import CodePattern.Encoding
import CodePattern.Proofs.Forest
import CodePattern.Proofs.Correspondence

/-! The copy of what stands at and below a node. Reading the nodes in order and adding each
below the copy of its parent gives the copy, so a node's place in the reading is its number
there. All that is told of a node is told of its copy, the numbers apart. -/

namespace CodePattern

namespace Rose

variable {α : Type} {p q : α → Bool}

theorem mem_preorderAll_attachAll {child : Rose α} {ts : List (Rose α)} {a : α}
    (h : a ∈ preorderAll (attachAll p child ts)) : a ∈ preorderAll ts ∨ a ∈ child.preorder := by
  rw [← label_subtreesAll] at h
  obtain ⟨s, hs, rfl⟩ := List.mem_map.mp h
  rcases List.mem_append.mp ((subtreesAll_attachAll p child ts).mem_iff.mp hs) with hs | hs
  · obtain ⟨t, ht, rfl⟩ := List.mem_map.mp hs
    rw [label_attach, ← label_subtreesAll]
    exact .inl (List.mem_map_of_mem ht)
  · obtain ⟨-, -, hs⟩ := List.mem_flatMap.mp hs
    exact .inr (label_mem_preorder hs)

theorem preorderAll_append (ss ts : List (Rose α)) :
    preorderAll (ss ++ ts) = preorderAll ss ++ preorderAll ts := by
  rw [← label_subtreesAll, subtreesAll_append, List.map_append, label_subtreesAll,
    label_subtreesAll]

mutual
theorem attach_of_none {child : Rose α} :
    (t : Rose α) → (∀ a ∈ t.preorder, q a = false) → attach q child t = t
  | .node a cs, h => by
    rw [preorder, List.forall_mem_cons] at h
    rw [attach, h.1, attachAll_of_none cs h.2]
    rfl

theorem attachAll_of_none {child : Rose α} :
    (ts : List (Rose α)) → (∀ a ∈ preorderAll ts, q a = false) → attachAll q child ts = ts
  | [], _ => rfl
  | t :: ts, h => by
    rw [preorderAll, List.forall_mem_append] at h
    rw [attachAll, attach_of_none t h.1, attachAll_of_none ts h.2]
end

mutual
/-- What is attached to the attached tree alone could be attached to it before. -/
theorem attach_attach {child u : Rose α} : (t : Rose α) → (∀ a ∈ t.preorder, q a = false) →
    attach q child (attach p u t) = attach p (attach q child u) t
  | .node a cs, h => by
    rw [preorder, List.forall_mem_cons] at h
    have hcs : attachAll q child (attachAll p u cs) = attachAll p (attach q child u) cs :=
      attachAll_attachAll cs h.2
    rw [attach, attach, attach, h.1]
    by_cases ha : p a = true
    · simp only [ha, if_true, Bool.false_eq_true, if_false]
      rw [attachAll_eq_map, List.map_append, ← attachAll_eq_map, hcs]
      rfl
    · simp only [ha, Bool.false_eq_true, if_false]
      rw [hcs]

theorem attachAll_attachAll {child u : Rose α} :
    (ts : List (Rose α)) → (∀ a ∈ preorderAll ts, q a = false) →
      attachAll q child (attachAll p u ts) = attachAll p (attach q child u) ts
  | [], _ => rfl
  | t :: ts, h => by
    rw [preorderAll, List.forall_mem_append] at h
    rw [attachAll, attachAll, attachAll, attach_attach t h.1, attachAll_attachAll ts h.2]
end

end Rose

namespace Ast

open Rose

mutual
/-- The additions in the order of reading that make a tree whose root gets the number `first`. -/
def additions (parent : Option Nat) (first : Nat) : Rose AstNode → List Addition
  | .node n cs => ⟨parent, n⟩ :: additionsAll first (first + 1) cs

def additionsAll (parent first : Nat) : List (Rose AstNode) → List Addition
  | [] => []
  | t :: ts => additions (some parent) first t ++ additionsAll parent (first + t.size) ts
end

mutual
theorem node_additions (parent : Option Nat) (first : Nat) :
    (t : Rose AstNode) → (additions parent first t).map (·.node) = t.preorder
  | .node n cs => by rw [additions, List.map_cons, node_additionsAll first (first + 1) cs, preorder]

theorem node_additionsAll (parent first : Nat) :
    (ts : List (Rose AstNode)) → (additionsAll parent first ts).map (·.node) = preorderAll ts
  | [] => rfl
  | t :: ts => by
    rw [additionsAll, List.map_append, node_additions (some parent) first t,
      node_additionsAll parent (first + t.size) ts, preorderAll]
end

theorem length_additions (parent : Option Nat) (first : Nat) (t : Rose AstNode) :
    (additions parent first t).length = t.size := by
  rw [← length_preorder, ← node_additions parent first, List.length_map]

mutual
theorem grounded_additions {adds : List Addition} {parent : Option Nat} (h : Grounded adds)
    (hparent : ∀ p ∈ parent, p ∈ returned adds) :
    (t : Rose AstNode) → Grounded (adds ++ additions parent (adds.length + 1) t)
  | .node n cs => by
    have hx : Grounded (adds ++ [⟨parent, n⟩]) := .concat h hparent
    have hroot : adds.length + 1 ∈ returned (adds ++ [⟨parent, n⟩]) := by simp [returned_concat]
    have hcs := grounded_additionsAll hx hroot cs
    rwa [List.length_append, List.append_assoc] at hcs

theorem grounded_additionsAll {adds : List Addition} {p : Nat} (h : Grounded adds)
    (hp : p ∈ returned adds) :
    (ts : List (Rose AstNode)) → Grounded (adds ++ additionsAll p (adds.length + 1) ts)
  | [] => by rwa [additionsAll, List.append_nil]
  | t :: ts => by
    have ht : Grounded (adds ++ additions (some p) (adds.length + 1) t) :=
      grounded_additions h (by rintro q ⟨⟩; exact hp) t
    have hp' : p ∈ returned (adds ++ additions (some p) (adds.length + 1) t) := by
      obtain ⟨i, hi, rfl⟩ := mem_returned.mp hp
      exact mem_returned.mpr ⟨i, by rw [List.length_append]; omega, rfl⟩
    have hts := grounded_additionsAll ht hp' ts
    rwa [List.length_append, length_additions, List.append_assoc, Nat.add_right_comm] at hts
end

theorem id_of_mem_number {first : Nat} {t : Rose AstNode} {e : Entry}
    (h : e ∈ (number first t).preorder) : first ≤ e.id ∧ e.id < first + t.size := by
  rw [← label_subtrees] at h
  have hid := List.mem_map_of_mem h (f := (·.id))
  rw [List.map_map] at hid
  exact List.mem_range'_1.mp (ids_number first t ▸ hid)

mutual
/-- Adding a tree node by node below a parent attaches the numbered tree there. -/
theorem addAll_additions (p : Nat) {size : Nat} {ts : List (Rose Entry)}
    (h : ∀ a ∈ preorderAll ts, a.id ≤ size) : (t : Rose AstNode) →
    addAll ⟨size, ts⟩ (additions (some p) (size + 1) t) =
      ⟨size + t.size, attachAll (·.id == p) (number (size + 1) t) ts⟩
  | .node n cs => by
    have hnew : ∀ a ∈ preorderAll ts, (a.id == size + 1) = false :=
      fun a ha => beq_false_of_ne (Nat.ne_of_lt (Nat.lt_succ_of_le (h a ha)))
    have hcs := addAll_additionsAll (fun u => attachAll (·.id == p) u ts) ⟨size + 1, n⟩ []
      (size + 1) (fun _ _ => attachAll_attachAll ts hnew)
      (fun _ a ha => (mem_preorderAll_attachAll ha).symm.imp_right
        fun ha => Nat.le_succ_of_le (h a ha)) (Nat.le_refl _) (by simp [preorderAll]) cs
    rw [Rose.size, ← Nat.add_assoc]
    exact hcs

/-- Adding trees below a node attaches them to it, whatever is around the node. -/
theorem addAll_additionsAll (around : Rose Entry → List (Rose Entry)) (e : Entry)
    (ks : List (Rose Entry)) (size : Nat)
    (haround : ∀ child u, attachAll (·.id == e.id) child (around u) =
      around (attach (·.id == e.id) child u))
    (hbound : ∀ u, ∀ a ∈ preorderAll (around u), a ∈ u.preorder ∨ a.id ≤ size)
    (he : e.id ≤ size) (hks : ∀ a ∈ preorderAll ks, e.id < a.id ∧ a.id ≤ size) :
    (cs : List (Rose AstNode)) →
    addAll ⟨size, around (.node e ks)⟩ (additionsAll e.id (size + 1) cs) =
      ⟨size + sizeAll cs, around (.node e (ks ++ numberAll (size + 1) cs))⟩
  | [] => by rw [numberAll, List.append_nil]; rfl
  | c :: cs => by
    let numbered := number (size + 1) c
    have hbefore : ∀ a ∈ preorderAll (around (.node e ks)), a.id ≤ size := by
      intro a ha
      rcases hbound _ a ha with ha | ha
      · rcases List.mem_cons.mp ha with rfl | ha
        · exact he
        · exact (hks a ha).2
      · exact ha
    have hnone : ∀ a ∈ preorderAll ks, (a.id == e.id) = false :=
      fun a ha => beq_false_of_ne (Nat.ne_of_gt (hks a ha).1)
    have hattach : attach (·.id == e.id) numbered (.node e ks) = .node e (ks ++ [numbered]) := by
      rw [attach, attachAll_of_none ks hnone]
      simp
    -- The numbers that the next trees get are greater than all that stand here now.
    have hks' : ∀ a ∈ preorderAll (ks ++ [numbered]), e.id < a.id ∧ a.id ≤ size + c.size := by
      intro a ha
      rw [preorderAll_append, List.mem_append] at ha
      rcases ha with ha | ha
      · have := hks a ha
        omega
      · have hnumbered : a ∈ (number (size + 1) c).preorder := by simpa [preorderAll] using ha
        have := id_of_mem_number hnumbered
        omega
    have hcs := addAll_additionsAll around e (ks ++ [numbered]) (size + c.size) haround
      (fun u a ha => (hbound u a ha).imp_right Nat.le_add_right_of_le)
      (Nat.le_add_right_of_le he) hks' cs
    rw [additionsAll, addAll_append, addAll_additions e.id hbefore c, haround, hattach,
      Nat.add_right_comm, hcs, sizeAll, numberAll, Nat.add_assoc, Nat.add_right_comm,
      List.append_assoc]
    rfl
end

/-- A tree numbered in the order of reading has grown in that order. -/
theorem grow_additions (t : Rose AstNode) : grow (additions none 1 t) = ofTree t := by
  obtain ⟨n, cs⟩ := t
  have hcs := addAll_additionsAll (fun u => [u]) ⟨1, n⟩ [] 1 (fun _ _ => rfl)
    (fun u a ha => .inl (by simpa [preorderAll] using ha)) (Nat.le_refl 1)
    (by simp [preorderAll]) cs
  exact hcs

mutual
/-- A tree whose numbers are places in a reading is numbered as it is read. -/
theorem number_plain (place : Nat → Nat) : (first : Nat) → (s : Rose Entry) →
    (∀ i e, s.preorder[i]? = some e → place e.id = first + i) →
      number first (plain s) = s.map (fun e => ⟨place e.id, e.node⟩)
  | first, .node e cs, h => by
    have he : place e.id = first := h 0 e rfl
    have hcs := numberAll_plain place (first + 1) cs fun i a ha => by
      rw [h (i + 1) a ha, Nat.add_assoc, Nat.add_comm 1]
    rw [plain, Rose.map, number, hcs, Rose.map, he]

theorem numberAll_plain (place : Nat → Nat) : (first : Nat) → (ss : List (Rose Entry)) →
    (∀ i e, (preorderAll ss)[i]? = some e → place e.id = first + i) →
      numberAll first (mapAll (·.node) ss) = mapAll (fun e => ⟨place e.id, e.node⟩) ss
  | _, [], _ => rfl
  | first, s :: ss, h => by
    have hs := number_plain place first s fun i a ha => h i a (by
      rw [preorderAll, List.getElem?_append_left (List.getElem?_eq_some_iff.mp ha).1, ha])
    have hss := numberAll_plain place (first + s.size) ss fun i a ha => by
      rw [Nat.add_assoc]
      refine h (s.size + i) a ?_
      rw [preorderAll, List.getElem?_append_right (by rw [length_preorder]; omega),
        length_preorder, Nat.add_sub_cancel_left, ha]
    rw [plain] at hs
    rw [mapAll, numberAll, size_map, hs, hss, mapAll]
end

/-- The nested form of a node: what is told of it, and the nested forms of its children. -/
inductive NestedAs (ast : Ast) : Nat → Json → Prop
  | node {id : Nat} {n : AstNode} {forms : List Json} (hnode : ast.get? id = some n)
      (hforms : List.Forall₂ (NestedAs ast) (ast.children id) forms) :
      NestedAs ast id (.obj (n.members ++
        whenSome "children" (if forms.isEmpty then none else some (.arr forms))))

section Copy

variable {ast : Ast} {s : Rose Entry}

theorem subtree_of_mem (h : ast.Distinct) (hs : s ∈ subtreesAll ast.trees) :
    ast.subtree s.label.id = ofTree (plain s) := by
  rw [subtree, at?_of_mem h hs]
  rfl

mutual
theorem nestedAs_of_mem (h : ast.Distinct) : (s : Rose Entry) → s ∈ subtreesAll ast.trees →
    ast.NestedAs s.label.id (nestedJson (plain s))
  | .node e cs, hs => by
    have hsub : cs ⊆ subtreesAll ast.trees := children_subset_of_mem_subtreesAll _ hs
    have hforms := nestedAll_of_subset h cs hsub
    have hempty : (mapAll (·.node) cs).isEmpty = (nestedAll (mapAll (·.node) cs)).isEmpty := by
      cases cs <;> rfl
    rw [plain, Rose.map, nestedJson, hempty]
    refine .node (get?_of_mem h hs) ?_
    rw [children_of_mem h hs]
    exact hforms

theorem nestedAll_of_subset (h : ast.Distinct) : (ss : List (Rose Entry)) →
    ss ⊆ subtreesAll ast.trees →
      List.Forall₂ ast.NestedAs (ss.map (·.label.id)) (nestedAll (mapAll (·.node) ss))
  | [], _ => .nil
  | s :: ss, hsub => by
    rw [List.cons_subset] at hsub
    exact .cons (nestedAs_of_mem h s hsub.1) (nestedAll_of_subset h ss hsub.2)
end

/-- In the copy a node has the number of its place in the reading. -/
theorem at?_copy (h : ast.Distinct) (hs : s ∈ subtreesAll ast.trees) {i : Nat} {w : Rose Entry}
    (hw : s.subtrees[i]? = some w) : (ofTree (plain s)).at? (i + 1) =
      some (w.map (fun e => ⟨(numbersOf s).idxOf e.id + 1, e.node⟩)) := by
  have hnodup := (readingOrder_of_mem h hs).nodup
  have hplace : ∀ i e, s.preorder[i]? = some e → (numbersOf s).idxOf e.id + 1 = 1 + i := by
    intro i e he
    have hids : (numbersOf s)[i]? = some e.id := by
      rw [← label_subtrees, List.getElem?_map] at he
      obtain ⟨w, hw, rfl⟩ := Option.map_eq_some_iff.mp he
      rw [numbersOf, List.getElem?_map, hw]
      rfl
    obtain ⟨hi, hid⟩ := List.getElem?_eq_some_iff.mp hids
    rw [← hid, hnodup.idxOf_getElem i hi, Nat.add_comm]
  rw [at?_ofTree, number_plain (fun d => (numbersOf s).idxOf d + 1) 1 s hplace, subtrees_map,
    List.getElem?_map, hw]
  rfl

theorem children_copy (h : ast.Distinct) (hs : s ∈ subtreesAll ast.trees) {i : Nat}
    {w : Rose Entry} (hw : s.subtrees[i]? = some w) : (ofTree (plain s)).children (i + 1) =
      (ast.children w.label.id).map (fun c => (numbersOf s).idxOf c + 1) := by
  have hmem := (subtrees_sublist_all _ hs).subset (List.mem_of_getElem? hw)
  rw [children, at?_copy h hs hw, children_of_mem h hmem]
  simp only [children_map, List.map_map, Function.comp_def, map_label]

theorem get?_copy (h : ast.Distinct) (hs : s ∈ subtreesAll ast.trees) {i : Nat}
    {w : Rose Entry} (hw : s.subtrees[i]? = some w) :
    (ofTree (plain s)).get? (i + 1) = ast.get? w.label.id := by
  have hmem := (subtrees_sublist_all _ hs).subset (List.mem_of_getElem? hw)
  rw [get?, at?_copy h hs hw, get?_of_mem h hmem, Option.map_some, map_label]

theorem subtree_copy (h : ast.Distinct) (hs : s ∈ subtreesAll ast.trees) {i : Nat}
    {w : Rose Entry} (hw : s.subtrees[i]? = some w) :
    (ofTree (plain s)).subtree (i + 1) = ast.subtree w.label.id := by
  have hmem := (subtrees_sublist_all _ hs).subset (List.mem_of_getElem? hw)
  rw [subtree_of_mem h hmem, subtree, plain_at?_ofTree, plain, subtrees_map, List.getElem?_map, hw]
  rfl

/-- The copy shows the nodes of these numbers as the trees have them, and has grown in their
order. -/
structure CopiedFrom (ast : Ast) (id : Nat) (ids : List Nat) (copy : Ast) : Prop where
  order : ast.ReadingOrder (some id) ids
  size_eq : copy.size = ids.length
  nodes_eq : copy.nodes.map some = ids.map ast.get?
  get?_eq : ∀ i d, ids[i]? = some d → copy.get? (i + 1) = ast.get? d
  children_eq : ∀ i d, ids[i]? = some d →
    copy.children (i + 1) = (ast.children d).map (fun c => ids.idxOf c + 1)
  subtree_eq : ∀ i d, ids[i]? = some d → copy.subtree (i + 1) = ast.subtree d
  nestedAs : ast.NestedAs id copy.toJson
  grown : ∃ copies, Grounded copies ∧ copies.map (fun x => some x.node) = ids.map ast.get? ∧
    copy = grow copies

end Copy

/-- Copying what stands at a node loses nothing of it, wherever the node stands. The trees are a
value, which stays as it is. -/
theorem subtree_copied {adds : List Addition} (h : Grounded adds) {id : Nat}
    (hid : id ∈ returned adds) : ∃ ids, (grow adds).CopiedFrom id ids ((grow adds).subtree id) := by
  obtain ⟨s, hs, rfl⟩ := List.mem_map.mp (h.records.mem_numbers.mpr hid)
  have hdistinct := h.records.distinct
  have hat : ∀ {i d : Nat}, (numbersOf s)[i]? = some d →
      ∃ w : Rose Entry, s.subtrees[i]? = some w ∧ w.label.id = d := by
    intro i d hd
    rw [numbersOf, List.getElem?_map] at hd
    exact Option.map_eq_some_iff.mp hd
  have hnodes := nodes_of_mem hdistinct hs
  have hplain : (plain s).preorder = s.preorder.map (·.node) := preorder_map _ s
  rw [subtree_of_mem hdistinct hs]
  refine ⟨numbersOf s, readingOrder_of_mem hdistinct hs, ?_, ?_, ?_, ?_, ?_, ?_, ?_⟩
  case refine_1 => rw [ofTree, plain, size_map, numbersOf, List.length_map, length_subtrees]
  case refine_2 => rw [nodes_ofTree, hplain, hnodes]
  case refine_3 =>
    intro i d hd
    obtain ⟨w, hw, rfl⟩ := hat hd
    exact get?_copy hdistinct hs hw
  case refine_4 =>
    intro i d hd
    obtain ⟨w, hw, rfl⟩ := hat hd
    exact children_copy hdistinct hs hw
  case refine_5 =>
    intro i d hd
    obtain ⟨w, hw, rfl⟩ := hat hd
    exact subtree_copy hdistinct hs hw
  case refine_6 =>
    have hjson : (ofTree (plain s)).toJson = nestedJson (plain s) :=
      congrArg nestedJson (plain_number 1 (plain s))
    rw [hjson]
    exact nestedAs_of_mem hdistinct s hs
  case refine_7 =>
    refine ⟨additions none 1 (plain s), grounded_additions .nil (by simp) _, ?_,
      (grow_additions _).symm⟩
    rw [← hnodes, ← hplain, ← node_additions none 1, List.map_map]
    rfl

theorem subtree_copied_twoTrees : Grounded twoTrees ∧ 3 ∈ returned twoTrees ∧
    (∃ ids, (grow twoTrees).CopiedFrom 3 ids ((grow twoTrees).subtree 3)) ∧
    ((grow twoTrees).subtree 3).nodes.map (·.kind) = ["comment", "text"] :=
  ⟨twoTrees_grounded, by decide, subtree_copied twoTrees_grounded (by decide), by decide⟩

end Ast

end CodePattern
