import CodePattern.Encoding
import CodePattern.Proofs.Forest
import CodePattern.Proofs.JsonText

/-! What the nested form tells of a tree. Members that are left out tell as much as those
that are there, in whatever order they stand, so trees have the same form only if they have the
same nodes in the same places. Each level of nodes takes two levels of the form, one for its nodes
and one for what they hold, and so the text of a tree that is too high is not read back. -/

namespace CodePattern

namespace Json

/-- The same value, whatever the order of the members of its objects. -/
inductive Same : Json → Json → Prop
  | null : Same .null .null
  | bool (b : Bool) : Same (.bool b) (.bool b)
  | num (n : Int) : Same (.num n) (.num n)
  | frac (x : Fractional) : Same (.frac x) (.frac x)
  | str (s : String) : Same (.str s) (.str s)
  | arr {vs ws : List Json} (h : List.Forall₂ Same vs ws) : Same (.arr vs) (.arr ws)
  | obj {ms ns : List (String × Json)}
      (h : ∀ name, Option.Rel Same (member? name ms) (member? name ns)) : Same (.obj ms) (.obj ns)

mutual
theorem Same.refl : (v : Json) → Same v v
  | .null => .null
  | .bool b => .bool b
  | .num n => .num n
  | .frac x => .frac x
  | .str s => .str s
  | .arr vs => .arr (Same.refl_items vs)
  | .obj ms => .obj (Same.refl_members ms)

theorem Same.refl_items : (vs : List Json) → List.Forall₂ Same vs vs
  | [] => .nil
  | v :: vs => .cons (Same.refl v) (Same.refl_items vs)

theorem Same.refl_members : (ms : List (String × Json)) → (name : String) →
    Option.Rel Same (member? name ms) (member? name ms)
  | [], _ => .none
  | (key, v) :: ms, name => by
    rw [member?]
    split
    · exact .some (Same.refl v)
    · exact Same.refl_members ms name
end

theorem Same.members {ms ns : List (String × Json)} (h : Same (.obj ms) (.obj ns)) (name : String) :
    Option.Rel Same (member? name ms) (member? name ns) := by
  cases h with
  | obj h => exact h name

/-- The form tells the value, whatever the order of members. -/
def Faithful {α : Type} (form : α → Json) : Prop := ∀ {a b : α}, Same (form a) (form b) → a = b

theorem faithful_str : Faithful str := by
  intro a b h
  cases h
  rfl

theorem faithful_nat : Faithful nat := by
  intro a b h
  cases h
  rfl

theorem Faithful.optional {α : Type} {form : α → Json} (h : Faithful form) {a b : Option α}
    (hab : Option.Rel Same (a.map form) (b.map form)) : a = b := by
  cases a <;> cases b <;> cases hab
  case none.none => rfl
  case some.some hab => exact congrArg some (h hab)

/-- A flag that is told only when it is set is told by what is left out. -/
theorem faithful_flag {p q : Prop} [Decidable p] [Decidable q]
    (h : Option.Rel Same (if p then some (.bool true) else none)
      (if q then some (.bool true) else none)) : p ↔ q := by
  split_ifs at h with hp hq hq
  · exact iff_of_true hp hq
  · cases h
  · cases h
  · exact iff_of_false hp hq

theorem member?_append (name : String) (ms ns : List (String × Json)) :
    member? name (ms ++ ns) = (member? name ms).or (member? name ns) := by
  induction ms with
  | nil => rfl
  | cons m ms ih =>
    rw [List.cons_append, member?, member?, ih]
    split <;> rfl

theorem member?_whenSome (name key : String) (v : Option Json) :
    member? name (whenSome key v) = if key = name then v else none := by
  cases v <;> simp [whenSome, member?]

theorem member?_whenTrue (name key : String) (b : Bool) :
    member? name (whenTrue key b) = if key = name ∧ b then some (.bool true) else none := by
  cases b <;> simp [whenTrue, member?]

theorem nestingMembers_whenTrue (name : String) (b : Bool) :
    nestingMembers (whenTrue name b) = 0 := by
  cases b <;> rfl

theorem nestingMembers_whenSome (name : String) (v : Option Json) :
    nestingMembers (whenSome name v) = v.elim 0 nesting := by
  cases v with
  | none => rfl
  | some v => exact Nat.max_zero _

end Json

open Json (Same Faithful member? faithful_flag faithful_nat faithful_str)

theorem Span.faithful_toJson : Faithful Span.toJson := by
  intro s t h
  have hstart := h.members "startByte"
  have hend := h.members "endByte"
  have hstartLine := h.members "startLine"
  have hstartCol := h.members "startCol"
  have hendLine := h.members "endLine"
  have hendCol := h.members "endCol"
  simp [member?] at hstart hend hstartLine hstartCol hendLine hendCol
  obtain ⟨a, b, c, d, e, f⟩ := s
  obtain rfl := faithful_nat hstart
  obtain rfl := faithful_nat hend
  obtain rfl := UInt32.toNat_inj.mp (faithful_nat hstartLine)
  obtain rfl := UInt32.toNat_inj.mp (faithful_nat hstartCol)
  obtain rfl := UInt32.toNat_inj.mp (faithful_nat hendLine)
  obtain rfl := UInt32.toNat_inj.mp (faithful_nat hendCol)
  rfl

theorem Meta.faithful_toJson : Faithful Meta.toJson := by
  intro m n h
  cases m <;> cases n
  case ellipsis.ellipsis => rfl
  all_goals
    have htype := h.members "type"
    have hname := h.members "name"
    simp [member?] at htype hname
  case metavariable.metavariable => exact congrArg _ (faithful_str hname)
  case ellipsisMetavariable.ellipsisMetavariable => exact congrArg _ (faithful_str hname)
  all_goals exact absurd (faithful_str htype) (by decide)

/-- The members tell the nodes, and what may stand beside those is told by itself. -/
theorem AstNode.eq_of_same {n m : AstNode} {c d : Option Json}
    (h : Same (.obj (n.members ++ whenSome "children" c))
      (.obj (m.members ++ whenSome "children" d))) : n = m ∧ Option.Rel Same c d := by
  -- Each name is looked up on both sides, and a member that is left out is found on neither.
  have hkind := h.members "kind"
  have hanonymous := h.members "anonymous"
  have hfield := h.members "field"
  have hspan := h.members "span"
  have htext := h.members "text"
  have hmeta := h.members "meta"
  have herror := h.members "error"
  have hchildren := h.members "children"
  simp [AstNode.members, Json.member?_append, Json.member?_whenSome, Json.member?_whenTrue, member?]
    at hkind hanonymous hfield hspan htext hmeta herror hchildren
  have hnamed : n.named = m.named := by simpa using faithful_flag hanonymous
  have hfaulty : n.error = m.error := by simpa using faithful_flag herror
  refine ⟨?_, hchildren⟩
  cases n
  cases m
  rw [AstNode.mk.injEq]
  exact ⟨faithful_str hkind, hnamed, faithful_str.optional hfield, Span.faithful_toJson hspan,
    faithful_str.optional htext, Meta.faithful_toJson.optional hmeta, hfaulty⟩

/-- Children that are left out are told apart from those that are there. -/
theorem forall₂_of_rel {ts us : List (Rose AstNode)}
    (h : Option.Rel Same (if ts.isEmpty then none else some (.arr (nestedAll ts)))
      (if us.isEmpty then none else some (.arr (nestedAll us)))) :
    List.Forall₂ Same (nestedAll ts) (nestedAll us) := by
  cases ts <;> cases us <;> cases h
  case nil.nil => exact .nil
  case cons.cons h =>
    cases h with
    | arr h => exact h

mutual
theorem faithful_nestedJson : (t u : Rose AstNode) → Same (nestedJson t) (nestedJson u) → t = u
  | .node n ts, .node m us, h => by
    rw [nestedJson, nestedJson] at h
    obtain ⟨rfl, hchildren⟩ := AstNode.eq_of_same h
    rw [faithful_nestedAll ts us (forall₂_of_rel hchildren)]

theorem faithful_nestedAll : (ts us : List (Rose AstNode)) →
    List.Forall₂ Same (nestedAll ts) (nestedAll us) → ts = us
  | [], [], _ => rfl
  | t :: ts, u :: us, .cons h hs => by
    rw [faithful_nestedJson t u h, faithful_nestedAll ts us hs]
end

theorem faithful_optional : Faithful (fun t : Option (Rose AstNode) => t.elim .null nestedJson)
  | none, none, _ => rfl
  | none, some (.node _ _), h => nomatch h
  | some (.node _ _), none, h => nomatch h
  | some t, some u, h => congrArg some (faithful_nestedJson t u h)

theorem Json.nesting_optional_str (s : Option String) :
    (s.map Json.str).elim 0 Json.nesting = 0 := by
  cases s <;> rfl

theorem Span.nesting_toJson (s : Span) : s.toJson.nesting = 1 := rfl

theorem Meta.nesting_optional_le (m : Option Meta) :
    (m.map Meta.toJson).elim 0 Json.nesting ≤ 1 := by
  rcases m with - | (_ | _ | _)
  · exact Nat.zero_le 1
  all_goals exact Nat.le_refl 1

theorem AstNode.nestingMembers_members (n : AstNode) : Json.nestingMembers n.members = 1 := by
  have hmeta := Meta.nesting_optional_le n.pattern
  simp only [members, Json.nestingMembers_append, Json.nestingMembers_whenTrue,
    Json.nestingMembers_whenSome, Json.nestingMembers, n.span.nesting_toJson,
    Json.nesting_optional_str, Json.nesting]
  omega

mutual
theorem nesting_nestedJson : (t : Rose AstNode) → (nestedJson t).nesting = 2 * t.height
  | .node n [] => by
    rw [nestedJson, Json.nesting, Json.nestingMembers_append, n.nestingMembers_members]
    rfl
  | .node n (t :: ts) => by
    have hbelow := nestingItems_nestedAll (t :: ts)
    rw [nestedJson, Json.nesting, Json.nestingMembers_append, n.nestingMembers_members,
      Json.nestingMembers_whenSome, if_neg (by simp), Option.elim_some, Json.nesting, hbelow,
      Rose.height]
    omega

theorem nestingItems_nestedAll : (ts : List (Rose AstNode)) →
    Json.nestingItems (nestedAll ts) = 2 * Rose.heightAll ts
  | [] => rfl
  | t :: ts => by
    rw [nestedAll, Json.nestingItems, nesting_nestedJson t, nestingItems_nestedAll ts,
      Rose.heightAll]
    omega
end

namespace Ast

open Rose

variable {a b : Ast}

/-- The levels of the tree that is read. -/
def levels (a : Ast) : Nat := a.tree?.elim 0 height

/-- The nodes are the same, and so in turn are their children one by one. -/
@[mk_iff]
inductive AlikeAt (a b : Ast) : Nat → Nat → Prop
  | node {i j : Nat} {n : AstNode} (hleft : a.get? i = some n) (hright : b.get? j = some n)
      (hchildren : List.Forall₂ (AlikeAt a b) (a.children i) (b.children j)) : AlikeAt a b i j

/-- The trees that are read are alike from their roots on, or there are none. -/
def Alike (a b : Ast) : Prop := Option.Rel (AlikeAt a b) a.root? b.root?

mutual
theorem alikeAt_iff_plain (ha : a.Distinct) (hb : b.Distinct) : (s t : Rose Entry) →
    s ∈ subtreesAll a.trees → t ∈ subtreesAll b.trees →
      (AlikeAt a b s.label.id t.label.id ↔ plain s = plain t)
  | .node d ss, .node e ts, hs, ht => by
    have hchildren := forall₂_alikeAt_iff ha hb ss ts (children_subset_of_mem_subtreesAll _ hs)
      (children_subset_of_mem_subtreesAll _ ht)
    rw [alikeAt_iff, get?_of_mem ha hs, get?_of_mem hb ht, children_of_mem ha hs,
      children_of_mem hb ht, plain, plain, Rose.map, Rose.map, Rose.node.injEq, ← hchildren]
    constructor
    · rintro ⟨n, hleft, hright, hforms⟩
      exact ⟨Option.some.inj (hleft.trans hright.symm), hforms⟩
    · rintro ⟨hnode, hforms⟩
      exact ⟨d.node, rfl, congrArg some hnode.symm, hforms⟩

theorem forall₂_alikeAt_iff (ha : a.Distinct) (hb : b.Distinct) : (ss ts : List (Rose Entry)) →
    ss ⊆ subtreesAll a.trees → ts ⊆ subtreesAll b.trees →
      (List.Forall₂ (AlikeAt a b) (ss.map (·.label.id)) (ts.map (·.label.id)) ↔
        mapAll (·.node) ss = mapAll (·.node) ts)
  | [], [], _, _ => by simp
  | [], t :: ts, _, _ => by simp [mapAll]
  | s :: ss, [], _, _ => by simp [mapAll]
  | s :: ss, t :: ts, hss, hts => by
    rw [List.cons_subset] at hss hts
    have hs := alikeAt_iff_plain ha hb s t hss.1 hts.1
    have hrest := forall₂_alikeAt_iff ha hb ss ts hss.2 hts.2
    rw [List.map_cons, List.map_cons, List.forall₂_cons, hs, hrest, mapAll, mapAll, List.cons.injEq]
    rfl
end

theorem alike_iff (ha : a.Distinct) (hb : b.Distinct) :
    Alike a b ↔ a.tree?.map plain = b.tree?.map plain := by
  have hmem : ∀ {c : Ast} {s : Rose Entry}, c.tree? = some s → s ∈ subtreesAll c.trees :=
    fun hs => mem_subtreesAll_of_mem (List.mem_of_head? hs)
  rw [Alike, root?, root?]
  cases hs : a.tree? <;> cases ht : b.tree?
  case some.some s t =>
    simp only [Option.map_some, Option.rel_some_some, Option.some.injEq]
    exact alikeAt_iff_plain ha hb s t (hmem hs) (hmem ht)
  all_goals simp

theorem toJson_eq_elim (a : Ast) : a.toJson = (a.tree?.map plain).elim .null nestedJson := by
  rw [toJson]
  cases a.tree? <;> rfl

theorem same_toJson_iff : Same a.toJson b.toJson ↔ a.tree?.map plain = b.tree?.map plain := by
  rw [toJson_eq_elim, toJson_eq_elim]
  exact ⟨faithful_optional, fun h => by rw [h]; exact Same.refl _⟩

theorem toJson_eq_iff : a.toJson = b.toJson ↔ a.tree?.map plain = b.tree?.map plain := by
  constructor
  · intro h
    rw [← same_toJson_iff, h]
    exact Same.refl _
  · intro h
    rw [toJson_eq_elim, toJson_eq_elim, h]

theorem nesting_toJson (a : Ast) : a.toJson.nesting = 2 * a.levels := by
  rw [toJson, levels]
  cases a.tree? with
  | none => rfl
  | some t => exact (nesting_nestedJson (plain t)).trans (congrArg (2 * ·) (height_map _ t))

/-- The form of a tree of more than 63 levels is nested too deep to be read back from its text. -/
theorem read?_toJson (a : Ast) :
    Json.read? a.toJson.text = if a.levels ≤ 63 then some a.toJson else none := by
  have hlevels : a.toJson.nesting ≤ Json.nestingLimit ↔ a.levels ≤ 63 := by
    rw [nesting_toJson, Json.nestingLimit]
    omega
  rw [Json.read?, Json.readWithin?_text, Json.allow]
  simp only [hlevels]

/-- The nested form tells the tree that is read and tells nothing else. It is read back from its
text if the tree has at most 63 levels, and by a reader that goes as deep as it takes, however many
levels there are. -/
theorem toJson_lossless {adds more : List Addition} (h : Grounded adds) (h' : Grounded more) :
    (Same (grow adds).toJson (grow more).toJson ↔ Alike (grow adds) (grow more)) ∧
    ((grow adds).toJson = (grow more).toJson ↔ Alike (grow adds) (grow more)) ∧
    (Json.read? (grow adds).toJson.text =
      if (grow adds).levels ≤ 63 then some (grow adds).toJson else none) ∧
    ∀ limit, 2 * (grow adds).levels ≤ limit →
      Json.readWithin? limit (grow adds).toJson.text = some (grow adds).toJson := by
  have halike := alike_iff h.records.distinct h'.records.distinct
  refine ⟨same_toJson_iff.trans halike.symm, toJson_eq_iff.trans halike.symm, read?_toJson _,
    fun limit hlimit => ?_⟩
  rw [Json.readWithin?_text, Json.allow_of_le (by rwa [nesting_toJson])]

/-- The first of the two trees, with its nodes added in the order of reading. -/
def oneTree : List Addition :=
  [⟨none, .ofKind "module"⟩, ⟨some 1, .ofKind "call"⟩, ⟨some 2, .ofKind "name"⟩,
    ⟨some 1, .ofKind "pass"⟩]

theorem oneTree_grounded : Grounded oneTree :=
  .concat (.concat (.concat (.concat .nil (by decide)) (by decide)) (by decide)) (by decide)

theorem toJson_lossless_twoTrees : Grounded twoTrees ∧ Grounded oneTree ∧
    (grow twoTrees).toJson = (grow oneTree).toJson ∧ Alike (grow twoTrees) (grow oneTree) ∧
    (grow twoTrees).levels = 3 ∧
    Json.read? (grow twoTrees).toJson.text = some (grow twoTrees).toJson := by
  have h := toJson_lossless twoTrees_grounded oneTree_grounded
  have hform : (grow twoTrees).toJson = (grow oneTree).toJson := rfl
  exact ⟨twoTrees_grounded, oneTree_grounded, hform, h.2.1.mp hform, rfl, h.2.2.1⟩

/-- Nodes each of which is the only child of the one before it. -/
def chain : Nat → List Addition
  | 0 => []
  | n + 1 => chain n ++ [⟨if n = 0 then none else some n, .ofKind "n"⟩]

theorem length_chain (n : Nat) : (chain n).length = n := by
  induction n with
  | zero => rfl
  | succ n ih => rw [chain, List.length_append, ih]; rfl

theorem chain_grounded (n : Nat) : Grounded (chain n) := by
  induction n with
  | zero => exact .nil
  | succ n ih =>
    refine .concat ih fun p hp => ?_
    split at hp
    · cases hp
    · next hne =>
      obtain rfl := Option.some.inj hp
      exact mem_returned.mpr ⟨n - 1, by rw [length_chain]; omega, by omega⟩

/-- A tree of 64 levels is not read back, as its form has 128. -/
theorem chain_not_read : Grounded (chain 64) ∧ (grow (chain 64)).levels = 64 ∧
    Json.read? (grow (chain 64)).toJson.text ≠ some (grow (chain 64)).toJson := by
  have hlevels : (grow (chain 64)).levels = 64 := by decide +kernel
  refine ⟨chain_grounded 64, hlevels, ?_⟩
  rw [read?_toJson, hlevels]
  exact Option.some_ne_none _ ∘ Eq.symm

end Ast

end CodePattern
