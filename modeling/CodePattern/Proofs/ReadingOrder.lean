import CodePattern.Proofs.Growth
import Mathlib.Data.List.Flatten
import Mathlib.Logic.Relation

/-! The order in which the nodes of a tree are read. A node comes before all that is below
it, and what is below one child comes before what is below the next. However a tree has grown,
its nodes are listed in this order, each once. -/

namespace CodePattern

namespace Rose

variable {α : Type}

theorem subtreesAll_eq_flatMap (ts : List (Rose α)) : subtreesAll ts = ts.flatMap subtrees := by
  induction ts with
  | nil => rfl
  | cons t ts ih => rw [subtreesAll, ih, List.flatMap_cons]

theorem subtreesAll_mono {ss ts : List (Rose α)} (h : ss.Sublist ts) :
    (subtreesAll ss).Sublist (subtreesAll ts) := by
  rw [subtreesAll_eq_flatMap, subtreesAll_eq_flatMap]
  exact h.flatMap _

mutual
theorem subtrees_sublist {s : Rose α} :
    (t : Rose α) → s ∈ t.subtrees → s.subtrees.Sublist t.subtrees
  | .node a cs, h => by
    rcases List.mem_cons.mp h with rfl | h
    · exact .refl _
    · exact (subtrees_sublist_all cs h).cons _

theorem subtrees_sublist_all {s : Rose α} :
    (ts : List (Rose α)) → s ∈ subtreesAll ts → s.subtrees.Sublist (subtreesAll ts)
  | t :: ts, h => by
    rcases List.mem_append.mp h with h | h
    · exact (subtrees_sublist t h).trans (List.sublist_append_left _ _)
    · exact (subtrees_sublist_all ts h).trans (List.sublist_append_right _ _)
end

theorem subtrees_eq (t : Rose α) : t.subtrees = t :: subtreesAll t.children := by
  cases t
  rfl

end Rose

namespace Ast

open Rose

/-- The second node is the first or is below it. -/
def Reaches (ast : Ast) : Nat → Nat → Prop :=
  Relation.ReflTransGen (fun p c => c ∈ ast.children p)

/-- The numbers of the nodes at and below a start, in the order of reading. -/
structure ReadingOrder (ast : Ast) (start : Option Nat) (ids : List Nat) : Prop where
  nodup : ids.Nodup
  mem_iff : ∀ d, d ∈ ids ↔ ∃ s ∈ start, ast.Reaches s d
  parent_first : ∀ p ∈ ids, ∀ c ∈ ast.children p, [p, c].Sublist ids
  siblings : ∀ p ∈ ids, ∀ c c', [c, c'].Sublist (ast.children p) →
    ∀ d d', ast.Reaches c d → ast.Reaches c' d' → [d, d'].Sublist ids

def numbersOf (t : Rose Entry) : List Nat := t.subtrees.map (·.label.id)

section Distinct

variable {ast : Ast} {s : Rose Entry} {d : Nat}

theorem children_of_mem (h : ast.Distinct) (hs : s ∈ subtreesAll ast.trees) :
    ast.children s.label.id = s.children.map (·.label.id) := by
  rw [children, at?_of_mem h hs]

theorem get?_of_mem (h : ast.Distinct) (hs : s ∈ subtreesAll ast.trees) :
    ast.get? s.label.id = some s.label.node := by
  rw [get?, at?_of_mem h hs, Option.map_some]

theorem exists_subtree_of_mem (hs : s ∈ subtreesAll ast.trees) (hd : d ∈ numbersOf s) :
    ∃ w ∈ s.subtrees, w ∈ subtreesAll ast.trees ∧ w.label.id = d := by
  obtain ⟨w, hw, rfl⟩ := List.mem_map.mp hd
  exact ⟨w, hw, (subtrees_sublist_all _ hs).subset hw, rfl⟩

theorem mem_numbersOf_of_reaches (h : ast.Distinct) (hs : s ∈ subtreesAll ast.trees)
    (hd : ast.Reaches s.label.id d) : d ∈ numbersOf s := by
  induction hd with
  | refl =>
    rw [numbersOf, subtrees_eq]
    exact List.mem_cons_self
  | @tail p c _ hc ih =>
    obtain ⟨w, hw, hmem, rfl⟩ := exists_subtree_of_mem hs ih
    rw [children_of_mem h hmem] at hc
    obtain ⟨v, hv, rfl⟩ := List.mem_map.mp hc
    exact List.mem_map_of_mem (children_subset_of_mem_subtrees s hw hv)

mutual
theorem reaches_of_mem_numbersOf (h : ast.Distinct) : (s : Rose Entry) →
    s ∈ subtreesAll ast.trees → d ∈ numbersOf s → ast.Reaches s.label.id d
  | .node e cs, hs, hd => by
    rcases List.mem_cons.mp hd with rfl | hd
    · exact .refl
    · have hsub : cs ⊆ subtreesAll ast.trees := children_subset_of_mem_subtreesAll _ hs
      obtain ⟨c, hc, hreach⟩ := exists_reaches_of_mem h cs hsub hd
      refine .head ?_ hreach
      rw [children_of_mem h hs]
      exact List.mem_map_of_mem hc

theorem exists_reaches_of_mem (h : ast.Distinct) : (cs : List (Rose Entry)) →
    cs ⊆ subtreesAll ast.trees → d ∈ (subtreesAll cs).map (·.label.id) →
      ∃ c ∈ cs, ast.Reaches c.label.id d
  | c :: cs, hsub, hd => by
    rw [List.cons_subset] at hsub
    rw [subtreesAll, List.map_append] at hd
    rcases List.mem_append.mp hd with hd | hd
    · exact ⟨c, List.mem_cons_self, reaches_of_mem_numbersOf h c hsub.1 hd⟩
    · obtain ⟨c', hc', hreach⟩ := exists_reaches_of_mem h cs hsub.2 hd
      exact ⟨c', List.mem_cons_of_mem _ hc', hreach⟩
end

theorem parent_before_child (h : ast.Distinct) (hs : s ∈ subtreesAll ast.trees) {p c : Nat}
    (hp : p ∈ numbersOf s) (hc : c ∈ ast.children p) : [p, c].Sublist (numbersOf s) := by
  obtain ⟨w, hw, hmem, rfl⟩ := exists_subtree_of_mem hs hp
  rw [children_of_mem h hmem] at hc
  obtain ⟨v, hv, rfl⟩ := List.mem_map.mp hc
  have hbelow : v ∈ subtreesAll w.children := mem_subtreesAll_of_mem hv
  have hpair : [w, v].Sublist s.subtrees := by
    refine List.Sublist.trans ?_ (subtrees_sublist s hw)
    rw [subtrees_eq]
    exact (List.singleton_sublist.mpr hbelow).cons_cons _
  exact hpair.map (·.label.id)

theorem sibling_before_sibling (h : ast.Distinct) (hs : s ∈ subtreesAll ast.trees) {p c c' d' : Nat}
    (hp : p ∈ numbersOf s) (hpair : [c, c'].Sublist (ast.children p)) (hd : ast.Reaches c d)
    (hd' : ast.Reaches c' d') : [d, d'].Sublist (numbersOf s) := by
  obtain ⟨w, hw, hmem, rfl⟩ := exists_subtree_of_mem hs hp
  rw [children_of_mem h hmem] at hpair
  obtain ⟨vs, hvs, heq⟩ := List.sublist_map_iff.mp hpair
  match vs, heq with
  | [v, v'], heq =>
    obtain ⟨rfl, rfl⟩ : c = v.label.id ∧ c' = v'.label.id := by simpa using heq
    have hchildren : w.children ⊆ subtreesAll ast.trees :=
      children_subset_of_mem_subtreesAll _ hmem
    have hmems : v ∈ w.children ∧ v' ∈ w.children := by simpa using hvs.subset
    have hv := mem_numbersOf_of_reaches h (hchildren hmems.1) hd
    have hv' := mem_numbersOf_of_reaches h (hchildren hmems.2) hd'
    have hboth : [d, d'].Sublist ((subtreesAll [v, v']).map (·.label.id)) := by
      simp only [subtreesAll, List.append_nil, List.map_append]
      exact (List.singleton_sublist.mpr hv).append (List.singleton_sublist.mpr hv')
    have hbelow : (subtreesAll w.children).Sublist s.subtrees := by
      refine List.Sublist.trans ?_ (subtrees_sublist s hw)
      rw [subtrees_eq w]
      exact List.sublist_cons_self _ _
    exact hboth.trans (((subtreesAll_mono hvs).trans hbelow).map _)

theorem readingOrder_of_mem (h : ast.Distinct) (hs : s ∈ subtreesAll ast.trees) :
    ast.ReadingOrder (some s.label.id) (numbersOf s) where
  nodup := h.sublist ((subtrees_sublist_all _ hs).map _)
  mem_iff d := by
    simp only [Option.mem_def, Option.some.injEq, exists_eq_left']
    exact ⟨reaches_of_mem_numbersOf h s hs, mem_numbersOf_of_reaches h hs⟩
  parent_first _ hp _ hc := parent_before_child h hs hp hc
  siblings _ hp _ _ hpair _ _ hd hd' := sibling_before_sibling h hs hp hpair hd hd'

/-- The nodes at and below a node are those of the numbers read from it. -/
theorem nodes_of_mem (h : ast.Distinct) (hs : s ∈ subtreesAll ast.trees) :
    (s.preorder.map (·.node)).map some = (numbersOf s).map ast.get? := by
  rw [← label_subtrees, numbersOf, List.map_map, List.map_map, List.map_map]
  refine List.map_congr_left fun w hw => ?_
  have hmem := (subtrees_sublist_all _ hs).subset hw
  simp only [Function.comp_apply, get?_of_mem h hmem]

end Distinct

end Ast

end CodePattern
