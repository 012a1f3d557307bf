import CodePattern.Proofs.Kept
import Mathlib.Data.List.Basic
import Mathlib.Data.List.Induction
import Mathlib.Data.List.Nodup

/-! Trees that grow by one node at a time. The additions that have been made decide what
the trees are, because every number names the node that was added under it and every node has
as its children the nodes that were added below it. -/

namespace CodePattern

namespace Rose

variable {α : Type} (p : α → Bool) (child : Rose α)

theorem attachAll_eq_map (ts : List (Rose α)) :
    attachAll p child ts = ts.map (attach p child) := by
  induction ts with
  | nil => rfl
  | cons t ts ih => rw [attachAll, ih, List.map_cons]

theorem label_attach (t : Rose α) : (attach p child t).label = t.label := by
  cases t
  rfl

theorem children_attach (t : Rose α) : (attach p child t).children =
    t.children.map (attach p child) ++ if p t.label then [child] else [] := by
  obtain ⟨a, cs⟩ := t
  rw [attach, attachAll_eq_map]
  by_cases ha : p a = true <;> simp [children, label, ha]

mutual
/-- The child comes in once for every node that takes it, and all else stays. -/
theorem subtrees_attach : (t : Rose α) → (attach p child t).subtrees.Perm
    (t.subtrees.map (attach p child) ++ (t.preorder.filter p).flatMap (fun _ => child.subtrees))
  | .node a cs => by
    have hcs := subtreesAll_attachAll cs
    rw [subtrees, List.map_cons, preorder, attach, subtrees, List.cons_append]
    refine .cons _ ?_
    by_cases ha : p a = true
    · rw [if_pos ha, List.filter_cons_of_pos ha, List.flatMap_cons, subtreesAll_append]
      simp only [subtreesAll, List.append_nil]
      refine (hcs.append_right _).trans ?_
      rw [List.append_assoc]
      exact List.perm_append_comm.append_left _
    · rw [if_neg ha, List.filter_cons_of_neg ha]
      exact hcs

theorem subtreesAll_attachAll : (ts : List (Rose α)) → (subtreesAll (attachAll p child ts)).Perm
    ((subtreesAll ts).map (attach p child) ++
      ((preorderAll ts).filter p).flatMap (fun _ => child.subtrees))
  | [] => .nil
  | t :: ts => by
    have ht := subtrees_attach t
    have hts := subtreesAll_attachAll ts
    rw [attachAll, subtreesAll, subtreesAll, preorderAll, List.map_append, List.filter_append,
      List.flatMap_append]
    refine (ht.append hts).trans ?_
    simp only [List.append_assoc]
    exact (List.perm_append_comm_assoc _ _ _).append_left _
end

theorem mem_subtreesAll_attachAll {s : Rose α} {ts : List (Rose α)} (h : s ∈ subtreesAll ts) :
    attach p child s ∈ subtreesAll (attachAll p child ts) :=
  (subtreesAll_attachAll p child ts).mem_iff.mpr
    (List.mem_append_left _ (List.mem_map_of_mem h))

end Rose

/-- A node to be added below a parent, or beside the other trees. -/
structure Addition where
  parent : Option Nat
  node : AstNode
  deriving DecidableEq, Repr

namespace Ast

open Rose

def addAll (ast : Ast) (adds : List Addition) : Ast :=
  adds.foldl (fun ast x => ast.add x.parent x.node) ast

theorem addAll_append (ast : Ast) (adds more : List Addition) :
    ast.addAll (adds ++ more) = (ast.addAll adds).addAll more := List.foldl_append

/-- The trees after some additions, beginning with none. -/
def grow (adds : List Addition) : Ast := empty.addAll adds

theorem grow_concat (adds : List Addition) (x : Addition) :
    grow (adds ++ [x]) = (grow adds).add x.parent x.node := addAll_append empty adds [x]

theorem size_add (ast : Ast) (parent : Option Nat) (node : AstNode) :
    (ast.add parent node).size = ast.size + 1 := by
  cases parent <;> rfl

theorem size_grow (adds : List Addition) : (grow adds).size = adds.length := by
  induction adds using List.reverseRecOn with
  | nil => rfl
  | append_singleton adds x ih => rw [grow_concat, size_add, ih, List.length_append]; rfl

/-- The numbers that the additions answered, in order. -/
def returned (adds : List Addition) : List Nat :=
  (List.range adds.length).map (fun i => (grow (adds.take i)).nextId)

theorem returned_eq (adds : List Addition) : returned adds = List.range' 1 adds.length := by
  rw [returned, List.range'_eq_map_range]
  refine List.map_congr_left fun i hi => ?_
  have hlen : (adds.take i).length = i :=
    List.length_take_of_le (Nat.le_of_lt (List.mem_range.mp hi))
  rw [nextId, size_grow, hlen, Nat.add_comm]

theorem mem_returned {adds : List Addition} {id : Nat} :
    id ∈ returned adds ↔ ∃ i, i < adds.length ∧ id = i + 1 := by
  rw [returned_eq, List.mem_range'_1]
  constructor
  · rintro ⟨hpos, hlt⟩
    exact ⟨id - 1, by omega, by omega⟩
  · rintro ⟨i, hi, rfl⟩
    omega

/-- Every parent is a number that an earlier addition answered. -/
inductive Grounded : List Addition → Prop
  | nil : Grounded []
  | concat {adds : List Addition} {x : Addition} (h : Grounded adds)
      (hparent : ∀ p ∈ x.parent, p ∈ returned adds) : Grounded (adds ++ [x])

/-- The numbers of the additions with this parent, in order. -/
def numbersUnder (parent : Option Nat) (adds : List Addition) : List Nat :=
  adds.findIdxs (fun x => x.parent = parent) 1

theorem numbersUnder_concat (parent : Option Nat) (adds : List Addition) (x : Addition) :
    numbersUnder parent (adds ++ [x]) =
      numbersUnder parent adds ++ if x.parent = parent then [adds.length + 1] else [] := by
  rw [numbersUnder, List.findIdxs_append, List.findIdxs_singleton, Nat.add_comm 1]
  simp only [decide_eq_true_eq]
  rfl

theorem returned_concat (adds : List Addition) (x : Addition) :
    returned (adds ++ [x]) = returned adds ++ [adds.length + 1] := by
  rw [returned_eq, returned_eq, List.length_append, List.length_singleton, List.range'_1_concat,
    Nat.add_comm 1]

theorem Grounded.parent_mem {adds : List Addition} (h : Grounded adds) :
    ∀ x ∈ adds, ∀ p ∈ x.parent, p ∈ returned adds := by
  induction h with
  | nil => simp
  | @concat adds x _ hparent ih =>
    intro y hy p hp
    rw [returned_concat]
    rcases List.mem_append.mp hy with hy | hy
    · exact List.mem_append_left _ (ih y hy p hp)
    · obtain rfl := List.mem_singleton.mp hy
      exact List.mem_append_left _ (hparent p hp)

theorem Grounded.numbersUnder_eq_nil {adds : List Addition} (h : Grounded adds) {id : Nat}
    (hid : id ∉ returned adds) : numbersUnder (some id) adds = [] := by
  rw [numbersUnder, List.findIdxs_eq_nil_iff]
  intro x hx
  rw [decide_eq_false_iff_not]
  exact fun hp => hid (h.parent_mem x hx id hp)

theorem next_not_mem (adds : List Addition) : adds.length + 1 ∉ returned adds := by
  intro h
  obtain ⟨i, hi, heq⟩ := mem_returned.mp h
  omega

/-- The trees hold the nodes of the additions, each once, under its number and below its parent. -/
structure Records (adds : List Addition) (ast : Ast) : Prop where
  size_eq : ast.size = adds.length
  numbers : ((subtreesAll ast.trees).map (·.label.id)).Perm (List.range' 1 adds.length)
  roots : ast.trees.map (·.label.id) = numbersUnder none adds
  entry : ∀ i x, adds[i]? = some x → ∃ s ∈ subtreesAll ast.trees,
    s.label = ⟨i + 1, x.node⟩ ∧ s.children.map (·.label.id) = numbersUnder (some (i + 1)) adds

theorem addition_cases {adds : List Addition} {x y : Addition} {i : Nat}
    (h : (adds ++ [x])[i]? = some y) : adds[i]? = some y ∨ i = adds.length ∧ y = x := by
  rcases Nat.lt_or_ge i adds.length with hi | hi
  · rw [List.getElem?_append_left hi] at h
    exact .inl h
  · rw [List.getElem?_append_right hi, List.getElem?_singleton] at h
    obtain ⟨hi', h⟩ := Option.ite_none_right_eq_some.mp h
    exact .inr ⟨by omega, (Option.some.inj h).symm⟩

namespace Records

variable {adds : List Addition} {ast : Ast} {x : Addition}

theorem distinct (h : Records adds ast) : ast.Distinct :=
  h.numbers.nodup_iff.mpr List.nodup_range'

theorem mem_numbers (h : Records adds ast) {id : Nat} :
    id ∈ (subtreesAll ast.trees).map (·.label.id) ↔ id ∈ returned adds := by
  rw [returned_eq, h.numbers.mem_iff]

/-- Only one node takes a child. -/
theorem takers (h : Records adds ast) {p : Nat} (hp : p ∈ returned adds) :
    ((preorderAll ast.trees).filter (·.id == p)).length = 1 := by
  have hcount := List.count_eq_one_of_mem h.distinct (h.mem_numbers.mpr hp)
  rw [List.count, List.countP_map] at hcount
  rw [← List.countP_eq_length_filter, ← label_subtreesAll, List.countP_map]
  exact hcount

theorem numbers_concat (h : Records adds ast) {ts : List (Rose Entry)}
    (hts : ((subtreesAll ts).map (·.label.id)).Perm
      ((subtreesAll ast.trees).map (·.label.id) ++ [ast.nextId])) :
    ((subtreesAll ts).map (·.label.id)).Perm (List.range' 1 (adds ++ [x]).length) := by
  rw [List.length_append, List.length_singleton, List.range'_1_concat, ← h.size_eq, Nat.add_comm 1]
  exact hts.trans ((h.size_eq ▸ h.numbers).append_right _)

theorem add_root (hground : Grounded adds) (h : Records adds ast) (hx : x.parent = none) :
    Records (adds ++ [x]) (ast.add none x.node) := by
  have hsize : (ast.add none x.node).size = (adds ++ [x]).length := by
    rw [size_add, h.size_eq, List.length_append]
    rfl
  have hsub : subtreesAll (ast.add none x.node).trees =
      subtreesAll ast.trees ++ [.node ⟨ast.nextId, x.node⟩ []] := subtreesAll_append _ _
  refine ⟨hsize, h.numbers_concat ?_, ?_, fun i y hy => ?_⟩
  · rw [hsub, List.map_append]
    exact .refl _
  · rw [numbersUnder_concat, if_pos hx, ← h.roots, ← h.size_eq]
    exact List.map_append
  · rw [hsub, numbersUnder_concat, hx, if_neg (by simp), List.append_nil]
    rcases addition_cases hy with hy | ⟨rfl, rfl⟩
    · obtain ⟨s, hs, hentry⟩ := h.entry i y hy
      exact ⟨s, List.mem_append_left _ hs, hentry⟩
    · rw [hground.numbersUnder_eq_nil (next_not_mem adds), ← h.size_eq]
      exact ⟨_, List.mem_append_right _ List.mem_cons_self, rfl, rfl⟩

theorem add_child (hground : Grounded adds) (h : Records adds ast) {p : Nat}
    (hx : x.parent = some p) (hp : p ∈ returned adds) :
    Records (adds ++ [x]) (ast.add (some p) x.node) := by
  let leaf : Rose Entry := .node ⟨ast.nextId, x.node⟩ []
  have htrees : (ast.add (some p) x.node).trees = attachAll (·.id == p) leaf ast.trees := rfl
  have hsize : (ast.add (some p) x.node).size = (adds ++ [x]).length := by
    rw [size_add, h.size_eq, List.length_append]
    rfl
  -- The parent's number is found once, so the leaf comes in once.
  obtain ⟨e, htakers⟩ := List.length_eq_one_iff.mp (h.takers hp)
  have hsub := subtreesAll_attachAll (·.id == p) leaf ast.trees
  rw [htakers, List.flatMap_singleton, ← htrees] at hsub
  refine ⟨hsize, h.numbers_concat ?_, ?_, fun i y hy => ?_⟩
  · refine (hsub.map _).trans ?_
    rw [List.map_append, List.map_map]
    simp only [Function.comp_def, label_attach]
    exact .refl _
  · rw [htrees, attachAll_eq_map, List.map_map, numbersUnder_concat, hx, if_neg (by simp),
      List.append_nil, ← h.roots]
    simp only [Function.comp_def, label_attach]
  · simp only [numbersUnder_concat, hx, Option.some.injEq]
    rcases addition_cases hy with hy | ⟨rfl, rfl⟩
    · obtain ⟨s, hs, hlabel, hchildren⟩ := h.entry i y hy
      refine ⟨attach (·.id == p) leaf s, htrees ▸ mem_subtreesAll_attachAll _ _ hs, ?_, ?_⟩
      · rw [label_attach, hlabel]
      · rw [children_attach, List.map_append, List.map_map, hlabel, ← hchildren, ← h.size_eq]
        simp only [Function.comp_def, label_attach, beq_iff_eq, @eq_comm _ p]
        split <;> rfl
    · -- No earlier addition named the new number, so the leaf has no children.
      have hne : p ≠ adds.length + 1 := fun he => next_not_mem adds (he ▸ hp)
      rw [hground.numbersUnder_eq_nil (next_not_mem adds), if_neg hne, ← h.size_eq]
      exact ⟨leaf, hsub.mem_iff.mpr (List.mem_append_right _ List.mem_cons_self), rfl, rfl⟩

theorem at?_eq (h : Records adds ast) {i : Nat} (hx : adds[i]? = some x) :
    ∃ s ∈ subtreesAll ast.trees, ast.at? (i + 1) = some s ∧ s.label = ⟨i + 1, x.node⟩ ∧
      s.children.map (·.label.id) = numbersUnder (some (i + 1)) adds := by
  obtain ⟨s, hs, hlabel, hchildren⟩ := h.entry i x hx
  have hat := at?_of_mem h.distinct hs
  rw [hlabel] at hat
  exact ⟨s, hs, hat, hlabel, hchildren⟩

theorem at?_eq_none (h : Records adds ast) {id : Nat} (hid : id ∉ returned adds) :
    ast.at? id = none := by
  rw [at?, List.find?_eq_none]
  intro s hs
  rw [beq_iff_eq]
  rintro rfl
  exact hid (h.mem_numbers.mp (List.mem_map_of_mem hs))

theorem get?_eq (h : Records adds ast) {i : Nat} (hx : adds[i]? = some x) :
    ast.get? (i + 1) = some x.node := by
  obtain ⟨s, -, hat, hlabel, -⟩ := h.at?_eq hx
  rw [get?, hat, Option.map_some, hlabel]

theorem get?_eq_none (h : Records adds ast) {id : Nat} (hid : id ∉ returned adds) :
    ast.get? id = none := by
  rw [get?, h.at?_eq_none hid, Option.map_none]

theorem children_eq (hground : Grounded adds) (h : Records adds ast) (p : Nat) :
    ast.children p = numbersUnder (some p) adds := by
  by_cases hp : p ∈ returned adds
  · obtain ⟨i, hi, rfl⟩ := mem_returned.mp hp
    obtain ⟨s, -, hat, -, hchildren⟩ := h.at?_eq (List.getElem?_eq_getElem hi)
    rw [children, hat]
    exact hchildren
  · rw [children, h.at?_eq_none hp, hground.numbersUnder_eq_nil hp]

end Records

theorem Grounded.records {adds : List Addition} (h : Grounded adds) : Records adds (grow adds) := by
  induction h with
  | nil => exact ⟨rfl, .nil, rfl, by simp⟩
  | @concat adds x hground hparent ih =>
    rw [grow_concat]
    cases hx : x.parent with
    | none => exact ih.add_root hground hx
    | some p => exact ih.add_child hground hx (hparent p hx)

end Ast

end CodePattern
