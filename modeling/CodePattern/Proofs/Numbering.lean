import CodePattern.Ast

/-! A tree whose nodes are numbered in preorder. The number of a node is its place in
the preorder, counted from one, and the tree without the numbers is the tree that was
given. -/

namespace CodePattern

namespace Rose

variable {α β : Type}

theorem subtreesAll_append (s t : List (Rose α)) :
    subtreesAll (s ++ t) = subtreesAll s ++ subtreesAll t := by
  induction s with
  | nil => rfl
  | cons x s ih => simp [subtreesAll, ih]

mutual
theorem preorder_subset_of_mem_subtrees {s : Rose α} :
    (t : Rose α) → s ∈ t.subtrees → s.preorder ⊆ t.preorder
  | .node a cs, h => by
    rcases List.mem_cons.mp h with rfl | h
    · exact List.Subset.refl _
    · exact List.subset_cons_of_subset a (preorder_subset_of_mem_subtreesAll cs h)

theorem preorder_subset_of_mem_subtreesAll {s : Rose α} :
    (ts : List (Rose α)) → s ∈ subtreesAll ts → s.preorder ⊆ preorderAll ts
  | t :: ts, h => by
    rcases List.mem_append.mp h with h | h
    · exact List.subset_append_of_subset_left _ (preorder_subset_of_mem_subtrees t h)
    · exact List.subset_append_of_subset_right _ (preorder_subset_of_mem_subtreesAll ts h)
end

theorem mem_subtreesAll_of_mem {t : Rose α} {ts : List (Rose α)} (h : t ∈ ts) :
    t ∈ subtreesAll ts := by
  obtain ⟨before, after, rfl⟩ := List.append_of_mem h
  obtain ⟨a, cs⟩ := t
  rw [subtreesAll_append]
  exact List.mem_append_right _ (List.mem_append_left _ List.mem_cons_self)

mutual
theorem children_subset_of_mem_subtrees {s : Rose α} :
    (t : Rose α) → s ∈ t.subtrees → s.children ⊆ t.subtrees
  | .node a cs, h => by
    rcases List.mem_cons.mp h with rfl | h
    · exact fun c hc => List.mem_cons_of_mem _ (mem_subtreesAll_of_mem hc)
    · exact List.subset_cons_of_subset _ (children_subset_of_mem_subtreesAll cs h)

theorem children_subset_of_mem_subtreesAll {s : Rose α} :
    (ts : List (Rose α)) → s ∈ subtreesAll ts → s.children ⊆ subtreesAll ts
  | t :: ts, h => by
    rcases List.mem_append.mp h with h | h
    · exact List.subset_append_of_subset_left _ (children_subset_of_mem_subtrees t h)
    · exact List.subset_append_of_subset_right _ (children_subset_of_mem_subtreesAll ts h)
end

theorem size_map (f : α → β) (t : Rose α) : (t.map f).size = t.size := by
  rw [← length_preorder, preorder_map, List.length_map, length_preorder]

theorem mapAll_eq_map (f : α → β) (ts : List (Rose α)) : mapAll f ts = ts.map (map f) := by
  induction ts with
  | nil => rfl
  | cons t ts ih => rw [mapAll, ih, List.map_cons]

theorem children_map (f : α → β) (t : Rose α) : (t.map f).children = t.children.map (map f) := by
  obtain ⟨a, cs⟩ := t
  exact mapAll_eq_map f cs

mutual
theorem subtrees_map (f : α → β) : (t : Rose α) → (t.map f).subtrees = t.subtrees.map (map f)
  | .node a cs => by simp [map, subtrees, subtreesAll_mapAll f cs]

theorem subtreesAll_mapAll (f : α → β) :
    (ts : List (Rose α)) → subtreesAll (mapAll f ts) = (subtreesAll ts).map (map f)
  | [] => rfl
  | t :: ts => by simp [mapAll, subtreesAll, subtrees_map f t, subtreesAll_mapAll f ts]
end

end Rose

namespace Ast

open Rose

mutual
theorem plain_number : (first : Nat) → (t : Rose AstNode) → plain (number first t) = t
  | first, .node n cs => by
    have hcs := mapAll_numberAll (first + 1) cs
    simp only [plain, number, map, hcs]

theorem mapAll_numberAll :
    (first : Nat) → (ts : List (Rose AstNode)) → mapAll (·.node) (numberAll first ts) = ts
  | _, [] => rfl
  | first, t :: ts => by
    have ht := plain_number first t
    have hts := mapAll_numberAll (first + t.size) ts
    rw [plain] at ht
    rw [numberAll, mapAll, ht, hts]
end

mutual
theorem ids_number : (first : Nat) → (t : Rose AstNode) →
    (number first t).subtrees.map (·.label.id) = List.range' first t.size
  | first, .node n cs => by
    have hcs := ids_numberAll (first + 1) cs
    rw [number, subtrees, List.map_cons, hcs, Rose.size, Nat.add_comm 1, List.range'_succ]
    rfl

theorem ids_numberAll : (first : Nat) → (ts : List (Rose AstNode)) →
    (subtreesAll (numberAll first ts)).map (·.label.id) = List.range' first (sizeAll ts)
  | _, [] => rfl
  | first, t :: ts => by
    have ht := ids_number first t
    have hts := ids_numberAll (first + t.size) ts
    rw [numberAll, subtreesAll, List.map_append, ht, hts, sizeAll, List.range'_append_1]
end

theorem find?_of_range' {l : List (Rose Entry)} {first : Nat}
    (h : l.map (·.label.id) = List.range' first l.length) (i : Nat) :
    l.find? (·.label.id == first + i) = l[i]? := by
  induction l generalizing first i with
  | nil => rfl
  | cons t l ih =>
    rw [List.map_cons, List.length_cons, List.range'_succ, List.cons.injEq] at h
    cases i with
    | zero => simp [h.1]
    | succ i =>
      have hne : (t.label.id == first + (i + 1)) = false := by
        rw [h.1]
        exact beq_false_of_ne (by omega)
      rw [List.find?_cons_of_neg (by simp [hne]), List.getElem?_cons_succ, ← ih h.2 i,
        Nat.add_assoc, Nat.add_comm 1]

theorem at?_ofTree (t : Rose AstNode) (i : Nat) :
    (ofTree t).at? (i + 1) = (number 1 t).subtrees[i]? := by
  have hids := ids_number 1 t
  have hlen : (number 1 t).subtrees.length = t.size := by
    have := congrArg List.length hids
    simpa using this
  rw [at?, ofTree, subtreesAll, subtreesAll, List.append_nil, Nat.add_comm i]
  exact find?_of_range' (by rw [hids, hlen]) i

theorem plain_at?_ofTree (t : Rose AstNode) (i : Nat) :
    ((ofTree t).at? (i + 1)).map plain = t.subtrees[i]? := by
  have hplain := congrArg subtrees (plain_number 1 t)
  rw [plain, subtrees_map] at hplain
  rw [at?_ofTree, ← List.getElem?_map, ← hplain]
  rfl

theorem get?_ofTree (t : Rose AstNode) (i : Nat) :
    (ofTree t).get? (i + 1) = t.subtrees[i]?.map label := by
  rw [← plain_at?_ofTree, Option.map_map, get?]
  congr 1
  funext e
  exact (map_label _ e).symm

theorem nodes_ofTree (t : Rose AstNode) : (ofTree t).nodes = t.preorder := by
  have hplain := congrArg preorder (plain_number 1 t)
  rw [plain, preorder_map] at hplain
  exact hplain

/-- Every number names one node only. -/
def Distinct (ast : Ast) : Prop := ((subtreesAll ast.trees).map (·.label.id)).Nodup

instance (ast : Ast) : Decidable ast.Distinct :=
  inferInstanceAs (Decidable (List.Nodup _))

theorem distinct_ofTree? (t : Option (Rose AstNode)) : (ofTree? t).Distinct := by
  cases t with
  | none => exact .nil
  | some t =>
    rw [Distinct, ofTree?, ofTree, subtreesAll, subtreesAll, List.append_nil, ids_number]
    exact List.nodup_range'

theorem at?_of_mem {ast : Ast} (h : ast.Distinct) {s : Rose Entry}
    (hs : s ∈ subtreesAll ast.trees) : ast.at? s.label.id = some s := by
  obtain ⟨before, after, he⟩ := List.append_of_mem hs
  rw [Distinct, he, List.map_append, List.map_cons, List.nodup_append] at h
  have hbefore : before.find? (·.label.id == s.label.id) = none := by
    rw [List.find?_eq_none]
    intro t ht
    have hne := h.2.2 t.label.id (List.mem_map_of_mem ht) s.label.id List.mem_cons_self
    simpa using hne
  rw [at?, he, List.find?_append, hbefore, Option.none_or, List.find?_cons_of_pos (by simp)]

theorem nodes_subtree_subset (t : Rose AstNode) (id : Nat) :
    ((ofTree t).subtree id).nodes ⊆ (ofTree t).nodes := by
  rw [subtree]
  cases hs : (ofTree t).at? id with
  | none => simp [ofTree?, nodes, tree?, empty]
  | some s =>
    have hmem : s ∈ subtreesAll (ofTree t).trees := List.mem_of_find?_eq_some hs
    have hsub := List.map_subset (·.node) (preorder_subset_of_mem_subtreesAll _ hmem)
    rw [ofTree, preorderAll, preorderAll, List.append_nil] at hsub
    rw [Option.map_some, ofTree?, nodes_ofTree, plain, preorder_map]
    exact hsub

/-- A node without children is found under its number, and has none there either. -/
theorem leaf_ofTree {t : Rose AstNode} {i : Nat} {n : AstNode}
    (h : t.subtrees[i]? = some (.node n [])) :
    (ofTree t).get? (i + 1) = some n ∧ (ofTree t).children (i + 1) = [] := by
  rw [← plain_at?_ofTree] at h
  obtain ⟨s, hs, hplain⟩ := Option.map_eq_some_iff.mp h
  obtain ⟨e, cs⟩ := s
  cases cs with
  | nil =>
    simp only [plain, map, node.injEq] at hplain
    simp [get?, children, hs, label, Rose.children, hplain.1]
  | cons c cs => simp [plain, map, mapAll] at hplain

end Ast

end CodePattern
