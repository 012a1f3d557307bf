import CodePattern.Proofs.Kept
import Mathlib.Data.List.Basic
import Mathlib.Data.List.Induction

/-! The nodes that stay and the nodes of the converted tree are the same nodes. A way down
the grammar's tree tells which child to take at each node. The ways to the nodes that stay, in
the order of words, give these nodes their numbers and put each below the one its way passes
last. -/

namespace CodePattern

namespace Rose

variable {α : Type}

/-- The subtree at the end of a way, with the labels above it, the nearest first. -/
def descend : List Nat → List α → Rose α → Option (List α × Rose α)
  | [], above, t => some (above, t)
  | i :: way, above, t => t.children[i]?.bind (descend way (t.label :: above))

theorem descend_concat (i : Nat) (way : List Nat) (above : List α) (t : Rose α) :
    descend (way ++ [i]) above t = (descend way above t).bind
      (fun x => x.2.children[i]?.map (fun s => (x.2.label :: x.1, s))) := by
  induction way generalizing above t with
  | nil => cases h : t.children[i]? <;> simp [descend, h]
  | cons j way ih => cases h : t.children[j]? <;> simp [descend, h, ih]

/-- The way to the node above, unless the way ends at the root. -/
def upper? (way : List Nat) : Option (List Nat) := if way = [] then none else some way.dropLast

theorem upper?_nil : upper? [] = none := rfl

theorem upper?_cons_eq_nil {i : Nat} {way : List Nat} : upper? (i :: way) = some [] ↔ way = [] := by
  cases way <;> simp [upper?]

theorem upper?_cons_eq_cons {i j : Nat} {way upper : List Nat} :
    upper? (i :: way) = some (j :: upper) ↔ i = j ∧ upper? way = some upper := by
  cases way <;> simp [upper?]

mutual
/-- The subtrees as `lineages` has them, each with the way to it. -/
def routes (above : List α) : Rose α → List (List Nat × List α × Rose α)
  | .node a cs => ([], above, .node a cs) :: routesFrom 0 (a :: above) cs

def routesFrom (i : Nat) (above : List α) : List (Rose α) → List (List Nat × List α × Rose α)
  | [] => []
  | t :: ts => (routes above t).map (fun r => (i :: r.1, r.2)) ++ routesFrom (i + 1) above ts
end

mutual
theorem snd_routes (above : List α) :
    (t : Rose α) → (t.routes above).map Prod.snd = t.lineages above
  | .node a cs => by simp [routes, lineages, snd_routesFrom 0 (a :: above) cs]

theorem snd_routesFrom (i : Nat) (above : List α) :
    (ts : List (Rose α)) → (routesFrom i above ts).map Prod.snd = lineagesAll above ts
  | [] => rfl
  | t :: ts => by
    have ht := snd_routes above t
    have hts := snd_routesFrom (i + 1) above ts
    rw [routesFrom, List.map_append, hts, List.map_map, lineagesAll, ← ht]
    rfl
end

mutual
theorem mem_routes {x : List α × Rose α} : (way : List Nat) → (above : List α) → (t : Rose α) →
    ((way, x) ∈ t.routes above ↔ descend way above t = some x)
  | way, above, .node a cs => by
    rw [routes, List.mem_cons, mem_routesFrom way 0 (a :: above) cs]
    cases way with
    | nil => simp [descend, eq_comm]
    | cons i way => simp [descend, label, children, and_assoc]

theorem mem_routesFrom {x : List α × Rose α} : (way : List Nat) → (i : Nat) → (above : List α) →
    (ts : List (Rose α)) → ((way, x) ∈ routesFrom i above ts ↔
      ∃ j rest, way = (i + j) :: rest ∧ ts[j]?.bind (descend rest above) = some x)
  | way, i, above, [] => by simp [routesFrom]
  | way, i, above, t :: ts => by
    rw [routesFrom, List.mem_append, mem_routesFrom way (i + 1) above ts]
    constructor
    · rintro (h | ⟨j, rest, rfl, hrest⟩)
      · obtain ⟨⟨rest, y⟩, hy, he⟩ := List.mem_map.mp h
        obtain ⟨rfl, rfl⟩ := Prod.mk.inj he
        exact ⟨0, rest, rfl, (mem_routes rest above t).mp hy⟩
      · exact ⟨j + 1, rest, by rw [Nat.add_assoc, Nat.add_comm 1], hrest⟩
    · rintro ⟨j, rest, rfl, hrest⟩
      cases j with
      | zero =>
        have hmem := (mem_routes rest above t).mpr hrest
        exact .inl (List.mem_map.mpr ⟨_, hmem, rfl⟩)
      | succ j => exact .inr ⟨j, rest, by rw [Nat.add_assoc, Nat.add_comm 1], hrest⟩
end

theorem exists_cons_of_mem_routesFrom {i : Nat} {above : List α} {ts : List (Rose α)}
    {r : List Nat × List α × Rose α} (h : r ∈ routesFrom i above ts) :
    ∃ j rest, r.1 = j :: rest ∧ i ≤ j := by
  obtain ⟨way, x⟩ := r
  obtain ⟨j, rest, rfl, -⟩ := (mem_routesFrom way i above ts).mp h
  exact ⟨i + j, rest, rfl, Nat.le_add_right i j⟩

mutual
theorem routes_ordered (above : List α) :
    (t : Rose α) → (t.routes above).Pairwise (fun r s => r.1 < s.1)
  | .node a cs => by
    rw [routes]
    refine .cons (fun r hr => ?_) (routesFrom_ordered 0 (a :: above) cs)
    obtain ⟨j, rest, hway, -⟩ := exists_cons_of_mem_routesFrom hr
    rw [hway]
    exact List.nil_lt_cons _ _

theorem routesFrom_ordered (i : Nat) (above : List α) :
    (ts : List (Rose α)) → (routesFrom i above ts).Pairwise (fun r s => r.1 < s.1)
  | [] => .nil
  | t :: ts => by
    rw [routesFrom]
    refine List.pairwise_append.mpr ⟨?_, routesFrom_ordered (i + 1) above ts, ?_⟩
    · refine List.pairwise_map.mpr ((routes_ordered above t).imp fun hlt => ?_)
      exact List.cons_lt_cons_iff.mpr (.inr ⟨rfl, hlt⟩)
    · intro r hr s hs
      obtain ⟨r, -, rfl⟩ := List.mem_map.mp hr
      obtain ⟨j, rest, hway, hj⟩ := exists_cons_of_mem_routesFrom hs
      rw [hway]
      exact List.cons_lt_cons_iff.mpr (.inl (by omega))
end

theorem length_subtrees (t : Rose α) : t.subtrees.length = t.size := by
  rw [← length_preorder, ← label_subtrees, List.length_map]

end Rose

namespace Conversion

open Rose

variable {c : Conversion}

/-- The way ends at a node that stays. -/
def Leads (c : Conversion) (tree : Rose GrammarNode) (way : List Nat) : Prop :=
  ∃ x, descend way [] tree = some x ∧ c.stays x = true

def staysAt (c : Conversion) (r : List Nat × List GrammarNode × Rose GrammarNode) : Bool :=
  c.stays r.2

def waysBelow (c : Conversion) (above : List GrammarNode) (t : Rose GrammarNode) :
    List (List Nat) :=
  ((t.routes above).filter c.staysAt).map Prod.fst

def waysFrom (c : Conversion) (i : Nat) (above : List GrammarNode)
    (ts : List (Rose GrammarNode)) : List (List Nat) :=
  ((routesFrom i above ts).filter c.staysAt).map Prod.fst

/-- The ways to the nodes that stay, in the order of words. -/
def ways (c : Conversion) (tree : Rose GrammarNode) : List (List Nat) := c.waysBelow [] tree

/-- The numbers of the ways right below another, the first way having the number `first`. -/
def numbersBelow (upper : List Nat) (first : Nat) (ways : List (List Nat)) : List Nat :=
  ways.findIdxs (fun way => upper? way = some upper) first

theorem mem_ways {tree : Rose GrammarNode} {way : List Nat} :
    way ∈ c.ways tree ↔ c.Leads tree way := by
  simp only [ways, waysBelow, List.mem_map, List.mem_filter, Prod.exists, exists_and_right,
    exists_eq_right, mem_routes, Leads, staysAt]

theorem ways_ordered (tree : Rose GrammarNode) : (c.ways tree).Pairwise (· < ·) :=
  List.pairwise_map.mpr ((routes_ordered [] tree).filter _)

theorem filter_snd (rs : List (List Nat × List GrammarNode × Rose GrammarNode)) :
    (rs.filter c.staysAt).map Prod.snd = (rs.map Prod.snd).filter c.stays := by
  rw [List.filter_map]
  rfl

theorem waysFrom_cons (i : Nat) (above : List GrammarNode) (t : Rose GrammarNode)
    (ts : List (Rose GrammarNode)) : c.waysFrom i above (t :: ts) =
      (c.waysBelow above t).map (i :: ·) ++ c.waysFrom (i + 1) above ts := by
  simp only [waysFrom, routesFrom, List.filter_append, List.map_append, List.filter_map,
    List.map_map, waysBelow]
  rfl

theorem exists_cons_of_mem_waysFrom {i : Nat} {above : List GrammarNode}
    {ts : List (Rose GrammarNode)} {way : List Nat} (h : way ∈ c.waysFrom i above ts) :
    ∃ j rest, way = j :: rest ∧ i ≤ j := by
  obtain ⟨r, hr, rfl⟩ := List.mem_map.mp h
  exact exists_cons_of_mem_routesFrom (List.mem_filter.mp hr).1

theorem waysFrom_of_closed {above : List GrammarNode} (h : c.opened above = false) (i : Nat)
    (ts : List (Rose GrammarNode)) : c.waysFrom i above ts = [] := by
  have hsnd := filter_snd (c := c) (routesFrom i above ts)
  rw [snd_routesFrom, stays_of_closedAll h, List.map_eq_nil_iff] at hsnd
  rw [waysFrom, hsnd, List.map_nil]

theorem length_waysBelow {above : List GrammarNode} (h : c.opened above = true)
    (t : Rose GrammarNode) :
    (c.waysBelow above t).length = (subtreesAll (c.keep (insideString above) t).toList).length := by
  have hsnd := congrArg List.length (filter_snd (c := c) (t.routes above))
  have himage := congrArg List.length (image_lineages h t)
  rw [List.length_map, snd_routes] at hsnd
  rw [List.length_map, List.length_map] at himage
  rw [waysBelow, List.length_map, hsnd, himage]

theorem length_ways (tree : Rose GrammarNode) :
    (c.ways tree).length = (subtreesAll (c.keep false tree).toList).length :=
  @length_waysBelow c [] rfl tree

section Numbers

variable {upper : List Nat} {i first : Nat} {above : List GrammarNode}

theorem numbersBelow_append (upper : List Nat) (first : Nat) (ways more : List (List Nat)) :
    numbersBelow upper first (ways ++ more) =
      numbersBelow upper first ways ++ numbersBelow upper (first + ways.length) more :=
  List.findIdxs_append

theorem numbersBelow_cons_nil (upper : List Nat) (first : Nat) (ways : List (List Nat)) :
    numbersBelow upper first ([] :: ways) = numbersBelow upper (first + 1) ways := by
  simp [numbersBelow, upper?_nil]

/-- Ways through one child stand below ways through this child only. -/
theorem numbersBelow_map_cons (ways : List (List Nat)) :
    numbersBelow (i :: upper) first (ways.map (i :: ·)) = numbersBelow upper first ways := by
  rw [numbersBelow, List.findIdxs_map, numbersBelow]
  congr 1
  funext way
  simp [upper?_cons_eq_cons]

theorem numbersBelow_map_cons_of_ne {j : Nat} (hne : i ≠ j) (ways : List (List Nat)) :
    numbersBelow (j :: upper) first (ways.map (i :: ·)) = [] := by
  rw [numbersBelow, List.findIdxs_map, List.findIdxs_eq_nil_iff]
  intro way _
  simp [upper?_cons_eq_cons, hne]

theorem numbersBelow_waysFrom_of_lt {j : Nat} (hlt : j < i) (ts : List (Rose GrammarNode)) :
    numbersBelow (j :: upper) first (c.waysFrom i above ts) = [] := by
  rw [numbersBelow, List.findIdxs_eq_nil_iff]
  intro way hway
  obtain ⟨k, rest, rfl, hk⟩ := exists_cons_of_mem_waysFrom hway
  have hne : k ≠ j := by omega
  simp [upper?_cons_eq_cons, hne]

end Numbers

def childNumbers (t : Rose Entry) : List Nat := t.children.map (·.label.id)

def numbered (c : Conversion) (first : Nat) (kept : List (Rose Kept)) : List (Rose Entry) :=
  Ast.numberAll first (mapAll c.astNode kept)

theorem numbered_append (first : Nat) (kept more : List (Rose Kept)) :
    c.numbered first (kept ++ more) =
      c.numbered first kept ++ c.numbered (first + (subtreesAll kept).length) more := by
  induction kept generalizing first with
  | nil => rfl
  | cons t kept ih =>
    have hsize : (t.map c.astNode).size = t.subtrees.length := by
      rw [size_map, length_subtrees]
    simp only [numbered, List.cons_append, mapAll, Ast.numberAll, List.cons.injEq, true_and,
      subtreesAll, List.length_append] at ih ⊢
    rw [ih, hsize, Nat.add_assoc]

/-- A node stays, without what is below it if it is a metavariable, or is left out. -/
theorem keep_cases {above : List GrammarNode} (h : c.opened above = true) (n : GrammarNode)
    (cs : List (Rose GrammarNode)) :
    (c.keep (insideString above) (.node n cs) = none ∧ c.waysBelow above (.node n cs) = []) ∨
      ∃ k below, c.keep (insideString above) (.node n cs) = some (.node k below) ∧
        c.waysBelow above (.node n cs) = [] :: c.waysFrom 0 (n :: above) cs ∧
        (c.opened (n :: above) = true ∧ below = c.keepAll (insideString (n :: above)) cs ∨
          below = [] ∧ c.waysFrom 0 (n :: above) cs = []) := by
  have hways : c.waysBelow above (.node n cs) =
      if n.informative then [] :: c.waysFrom 0 (n :: above) cs
      else c.waysFrom 0 (n :: above) cs := by
    rw [waysBelow, routes, List.filter_cons]
    simp only [staysAt, stays, label, h, Bool.and_true]
    split <;> rfl
  rw [hways, keep.eq_1]
  cases hn : n.informative with
  | false => exact .inl ⟨rfl, waysFrom_of_closed (by simp [opened, hn]) 0 cs⟩
  | true =>
    refine .inr ⟨_, _, rfl, rfl, ?_⟩
    cases hp : c.pattern? (insideString above) n with
    | some m => exact .inr ⟨rfl, waysFrom_of_closed (by simp [opened, hp]) 0 cs⟩
    | none =>
      rw [insideString_cons]
      exact .inl ⟨by simp [opened, hn, hp, h], rfl⟩

theorem roots_keep {above : List GrammarNode} (h : c.opened above = true) (i first : Nat)
    (t : Rose GrammarNode) :
    (c.numbered first (c.keep (insideString above) t).toList).map (·.label.id) =
      numbersBelow [] first ((c.waysBelow above t).map (i :: ·)) := by
  obtain ⟨n, cs⟩ := t
  rw [numbersBelow, List.findIdxs_map]
  obtain ⟨hkeep, hways⟩ | ⟨k, below, hkeep, hways, -⟩ := keep_cases h n cs
  · rw [hkeep, hways]
    rfl
  · have hnone : (c.waysFrom 0 (n :: above) cs).findIdxs
        ((fun way => decide (upper? way = some [])) ∘ (i :: ·)) (first + 1) = [] := by
      rw [List.findIdxs_eq_nil_iff]
      intro way hway
      obtain ⟨j, rest, rfl, -⟩ := exists_cons_of_mem_waysFrom hway
      simp [upper?_cons_eq_nil]
    rw [hkeep, hways, List.findIdxs_cons, hnone]
    rfl

theorem roots_keepAll {above : List GrammarNode} (h : c.opened above = true) (i first : Nat)
    (ts : List (Rose GrammarNode)) :
    (c.numbered first (c.keepAll (insideString above) ts)).map (·.label.id) =
      numbersBelow [] first (c.waysFrom i above ts) := by
  induction ts generalizing i first with
  | nil => rfl
  | cons t ts ih =>
    rw [keepAll_cons, numbered_append, List.map_append, roots_keep h i, ih (i + 1), waysFrom_cons,
      numbersBelow_append, List.length_map, length_waysBelow h]

mutual
/-- Below each numbered node stand the numbers of the ways right below its own. -/
theorem childNumbers_keep {above : List GrammarNode} (h : c.opened above = true) (first : Nat) :
    (t : Rose GrammarNode) →
      (subtreesAll (c.numbered first (c.keep (insideString above) t).toList)).map childNumbers =
        (c.waysBelow above t).map (numbersBelow · first (c.waysBelow above t))
  | .node n cs => by
    obtain ⟨hkeep, hways⟩ | ⟨k, below, hkeep, hways, hbelow⟩ := keep_cases h n cs
    · rw [hkeep, hways]
      rfl
    · have hrest : (c.numbered (first + 1) below).map (·.label.id) =
            numbersBelow [] (first + 1) (c.waysFrom 0 (n :: above) cs) ∧
          (subtreesAll (c.numbered (first + 1) below)).map childNumbers =
            (c.waysFrom 0 (n :: above) cs).map
              (numbersBelow · (first + 1) (c.waysFrom 0 (n :: above) cs)) := by
        rcases hbelow with ⟨hopen, rfl⟩ | ⟨rfl, hnone⟩
        · exact ⟨roots_keepAll hopen 0 _ cs, childNumbers_keepAll hopen 0 _ cs⟩
        · rw [hnone]
          exact ⟨rfl, rfl⟩
      have hnumbered : c.numbered first [.node k below] =
          [.node ⟨first, c.astNode k⟩ (c.numbered (first + 1) below)] := rfl
      simp only [hkeep, Option.toList_some, hnumbered, subtreesAll, subtrees, List.append_nil,
        List.map_cons, hways, numbersBelow_cons_nil, hrest.2]
      rw [childNumbers, Rose.children, hrest.1]

theorem childNumbers_keepAll {above : List GrammarNode} (h : c.opened above = true)
    (i first : Nat) : (ts : List (Rose GrammarNode)) →
      (subtreesAll (c.numbered first (c.keepAll (insideString above) ts))).map childNumbers =
        (c.waysFrom i above ts).map (numbersBelow · first (c.waysFrom i above ts))
  | [] => rfl
  | t :: ts => by
    have ht := childNumbers_keep h first t
    have hts := childNumbers_keepAll h (i + 1) (first + (c.waysBelow above t).length) ts
    rw [keepAll_cons, numbered_append, subtreesAll_append, List.map_append, ht,
      ← length_waysBelow h, hts, waysFrom_cons, List.map_append, List.map_map]
    -- No way through the first tree stands below one through the others, nor the other way round.
    congr 1
    · refine List.map_congr_left fun way _ => ?_
      rw [Function.comp_apply, numbersBelow_append, numbersBelow_map_cons,
        numbersBelow_waysFrom_of_lt (Nat.lt_succ_self i), List.append_nil]
    · refine List.map_congr_left fun way hway => ?_
      obtain ⟨j, rest, rfl, hj⟩ := exists_cons_of_mem_waysFrom hway
      rw [numbersBelow_append, numbersBelow_map_cons_of_ne (by omega), List.nil_append,
        List.length_map]
end

variable {tree : Rose GrammarNode} {i : Nat} {way : List Nat}

theorem leads_upper {upper : List Nat} (h : c.Leads tree way) (hupper : upper? way = some upper) :
    c.Leads tree upper := by
  obtain ⟨x, hx, hstays⟩ := h
  cases way using List.reverseRecOn with
  | nil => simp [upper?_nil] at hupper
  | append_singleton way i =>
    obtain rfl : way = upper := by simpa [upper?] using hupper
    rw [descend_concat] at hx
    obtain ⟨y, hy, hchild⟩ := Option.bind_eq_some_iff.mp hx
    obtain ⟨t, -, rfl⟩ := Option.map_eq_some_iff.mp hchild
    refine ⟨y, hy, ?_⟩
    simp only [stays, opened, Bool.and_eq_true] at hstays ⊢
    exact ⟨hstays.2.1.1, hstays.2.2⟩

/-- The node at the end of a way becomes the subtree of the same place in preorder. -/
theorem exists_kept_of_way (h : (c.ways tree)[i]? = some way) :
    ∃ x kept s, descend way [] tree = some x ∧ c.keep false tree = some kept ∧
      kept.subtrees[i]? = some s ∧ c.image x = some s := by
  rw [ways, waysBelow, List.getElem?_map] at h
  obtain ⟨⟨way, x⟩, hx, rfl⟩ := Option.map_eq_some_iff.mp h
  have hroute := (List.mem_filter.mp (List.mem_of_getElem? hx)).1
  have hstaying : (c.staying tree)[i]? = some x := by
    rw [staying, ← snd_routes, ← filter_snd, List.getElem?_map, hx]
    rfl
  have himage := congrArg (·[i]?) (image_staying c tree)
  simp only [List.getElem?_map, hstaying, Option.map_some] at himage
  obtain ⟨s, hs, himage⟩ := Option.map_eq_some_iff.mp himage.symm
  cases hkept : c.keep false tree with
  | none => simp [hkept, subtreesAll] at hs
  | some kept =>
    rw [hkept, Option.toList_some, subtreesAll, subtreesAll, List.append_nil] at hs
    exact ⟨x, kept, s, (mem_routes way [] tree).mp hroute, rfl, hs, himage.symm⟩

theorem children_of_way (h : (c.ways tree)[i]? = some way) :
    (c.run tree).ast.children (i + 1) = numbersBelow way 1 (c.ways tree) := by
  obtain ⟨x, kept, s, -, hkept, -⟩ := exists_kept_of_way h
  have hchildren : (subtreesAll (c.numbered 1 (c.keep false tree).toList)).map childNumbers =
      (c.ways tree).map (numbersBelow · 1 (c.ways tree)) := @childNumbers_keep c [] rfl 1 tree
  have hnumbered : c.numbered 1 [kept] = [Ast.number 1 (kept.map c.astNode)] := rfl
  rw [hkept, Option.toList_some, hnumbered, subtreesAll, subtreesAll, List.append_nil] at hchildren
  have hi := congrArg (·[i]?) hchildren
  simp only [List.getElem?_map, h, Option.map_some] at hi
  obtain ⟨e, he, hbelow⟩ := Option.map_eq_some_iff.mp hi
  rw [ast_run, hkept, Option.map_some, Ast.ofTree?, Ast.children, Ast.at?_ofTree, he]
  exact hbelow

theorem leaf_of_keep {inString : Bool} {n : GrammarNode} {cs : List (Rose GrammarNode)}
    {kept : Rose Kept} (h : c.keep inString (.node n cs) = some kept) :
    (kept.label.leaf = true ↔ (c.pattern? inString n).isSome = true ∨ cs = []) ∧
      (kept.label.leaf = true → kept.children = []) := by
  rw [keep] at h
  split at h
  · obtain rfl := Option.some.inj h
    refine ⟨by simp [label], fun hleaf => ?_⟩
    simp only [label, Bool.or_eq_true, List.isEmpty_iff] at hleaf
    rcases hleaf with hp | rfl
    · simp [Rose.children, hp]
    · simp [Rose.children, keepAll]
  · cases h

/-- What the converted tree says of a node with these nodes above and below it. -/
structure Shows (c : Conversion) (above : List GrammarNode) (n : GrammarNode)
    (below : List (Rose GrammarNode)) (a : AstNode) : Prop where
  kind : a.kind = n.kind
  named : a.named = n.named
  field : a.field = n.field
  error : a.error = (n.erroneous || n.missing)
  pattern : a.pattern = c.pattern? (insideString above) n
  text : a.text.isSome = true ↔ a.pattern.isSome = true ∨ below = []

theorem shows_of_image {above : List GrammarNode} {n : GrammarNode}
    {below : List (Rose GrammarNode)} {kept : Rose Kept}
    (h : c.image (above, .node n below) = some kept) :
    c.Shows above n below (c.astNode kept.label) := by
  obtain ⟨hnode, hpattern⟩ := label_of_keep h
  change kept.label.node = n at hnode
  change kept.label.pattern = c.pattern? (insideString above) n at hpattern
  have hleaf := (leaf_of_keep h).1
  have htext : (c.astNode kept.label).text.isSome = kept.label.leaf := by
    simp only [astNode]
    split <;> simp_all
  refine ⟨congrArg (·.kind) hnode, congrArg (·.named) hnode, congrArg (·.field) hnode,
    congrArg (·.faulty) hnode, hpattern, ?_⟩
  rw [htext, hleaf, ← hpattern]
  rfl

theorem length_ways_of_keep {kept : Rose Kept} (h : c.keep false tree = some kept) :
    (c.ways tree).length = kept.size := by
  rw [length_ways, h, Option.toList_some, subtreesAll, subtreesAll, List.append_nil,
    length_subtrees]

theorem ways_eq_nil (h : c.keep false tree = none) : c.ways tree = [] := by
  rw [← List.length_eq_zero_iff, length_ways, h]
  rfl

theorem ids_run (c : Conversion) (tree : Rose GrammarNode) :
    (c.run tree).ast.size = (c.ways tree).length ∧
      (subtreesAll (c.run tree).ast.trees).map (·.label.id) =
        List.range' 1 (c.ways tree).length := by
  rw [ast_run]
  cases h : c.keep false tree with
  | none =>
    rw [ways_eq_nil h]
    exact ⟨rfl, rfl⟩
  | some kept =>
    rw [length_ways_of_keep h, Option.map_some, Ast.ofTree?, Ast.ofTree, subtreesAll, subtreesAll,
      List.append_nil, Ast.ids_number, size_map]
    exact ⟨rfl, rfl⟩

theorem root_run (c : Conversion) (tree : Rose GrammarNode) :
    (c.Leads tree [] ∧ (c.run tree).ast.root? = some 1) ∨
      (¬ c.Leads tree [] ∧ (c.run tree).ast.isEmpty = true) := by
  rw [← mem_ways, ast_run]
  cases h : c.keep false tree with
  | none =>
    rw [ways_eq_nil h]
    exact .inr ⟨List.not_mem_nil, rfl⟩
  | some kept =>
    obtain ⟨n, cs⟩ := tree
    obtain ⟨t, ts⟩ := kept
    obtain ⟨hkeep, -⟩ | ⟨k, below, -, hways, -⟩ := @keep_cases c [] rfl n cs
    · exact absurd (h.symm.trans hkeep) (by simp)
    · exact .inl ⟨by rw [ways, hways]; exact List.mem_cons_self, rfl⟩

/-- The converted tree consists of the nodes that stay, numbered from one in preorder. Each
stands below the same node as in the grammar's tree and between the same nodes, and has text if
it is a metavariable or has nothing below it there. -/
theorem run_corresponds (c : Conversion) (tree : Rose GrammarNode) :
    let ways := c.ways tree
    let ast := (c.run tree).ast
    ways.Pairwise (· < ·) ∧ (∀ way, way ∈ ways ↔ c.Leads tree way) ∧
    (∀ way ∈ ways, ∀ upper, upper? way = some upper → upper ∈ ways) ∧
    ast.size = ways.length ∧
    (subtreesAll ast.trees).map (·.label.id) = List.range' 1 ways.length ∧
    (∀ i way, ways[i]? = some way → ∃ above n below a,
      descend way [] tree = some (above, .node n below) ∧ ast.get? (i + 1) = some a ∧
      c.Shows above n below a ∧ ast.children (i + 1) = numbersBelow way 1 ways ∧
      (a.text.isSome = true → ast.children (i + 1) = []) ∧
      (c.mode = .target → a.pattern = none)) ∧
    ((c.Leads tree [] ∧ ast.root? = some 1) ∨ (¬ c.Leads tree [] ∧ ast.isEmpty = true)) := by
  intro ways ast
  obtain ⟨hsize, hids⟩ := ids_run c tree
  refine ⟨ways_ordered tree, fun way => mem_ways, ?_, hsize, hids, ?_, root_run c tree⟩
  · intro way hway upper hupper
    exact mem_ways.mpr (leads_upper (mem_ways.mp hway) hupper)
  · intro i way hway
    obtain ⟨⟨above, n, below⟩, kept, s, hdescend, hkept, hs, himage⟩ := exists_kept_of_way hway
    have hshows := shows_of_image himage
    have htree : ast = .ofTree (kept.map c.astNode) := by
      rw [show ast = _ from ast_run c tree, hkept]
      rfl
    have hget : ast.get? (i + 1) = some (c.astNode s.label) := by
      rw [htree, Ast.get?_ofTree, subtrees_map, List.getElem?_map, hs, Option.map_some,
        Option.map_some, map_label]
    refine ⟨above, n, below, _, hdescend, hget, hshows, children_of_way hway, fun htext => ?_,
      fun hmode => ?_⟩
    · have hleaf := (leaf_of_keep himage).1.mpr (hshows.pattern ▸ hshows.text.mp htext)
      have hnone := (leaf_of_keep himage).2 hleaf
      have hsub : (kept.map c.astNode).subtrees[i]? = some (.node (c.astNode s.label) []) := by
        obtain ⟨k, cs⟩ := s
        obtain rfl : cs = [] := hnone
        rw [subtrees_map, List.getElem?_map, hs]
        rfl
      rw [htree]
      exact (Ast.leaf_ofTree hsub).2
    · rw [hshows.pattern, pattern?, hmode]

end Conversion

end CodePattern
