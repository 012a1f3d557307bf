import CodePattern.Proofs.ReadingOrder

/-! What holds of the trees however they have grown. They are a forest in which the nodes keep
their numbers, their data and their places. Only the first tree is read. -/

namespace CodePattern

/-- A named node of this kind, of which nothing else is told. -/
def AstNode.ofKind (kind : String) : AstNode := ⟨kind, true, none, default, none, none, false⟩

namespace Ast

open Rose

variable {adds : List Addition}

theorem Grounded.first (h : Grounded adds) : ∀ x ∈ adds.head?, x.parent = none := by
  induction h with
  | nil => simp
  | @concat adds x _ hparent ih =>
    cases adds with
    | nil =>
      rintro y ⟨⟩
      exact Option.eq_none_iff_forall_not_mem.mpr fun p hp => List.not_mem_nil (hparent p hp)
    | cons y adds => exact ih

theorem Records.root_eq (hground : Grounded adds) {ast : Ast} (h : Records adds ast) :
    ast.root? = (returned adds).head? := by
  have hroot : ast.root? = (numbersUnder none adds).head? := by
    rw [root?, tree?, ← List.head?_map, h.roots]
  rw [hroot, returned_eq]
  cases adds with
  | nil => rfl
  | cons x adds =>
    rw [numbersUnder, List.findIdxs_cons, if_pos (by simpa using hground.first x rfl)]
    rfl

theorem Records.all_read_iff (hground : Grounded adds) {ast : Ast} (h : Records adds ast) :
    ast.nodes.length = ast.size ↔ ∀ x ∈ adds.tail, x.parent ≠ none := by
  have hlen := h.numbers.length_eq
  have hroots := congrArg List.length h.roots
  rw [List.length_map, List.length_range'] at hlen
  rw [List.length_map, numbersUnder, List.length_findIdxs] at hroots
  rw [h.size_eq, ← hlen, nodes, tree?]
  cases adds with
  | nil =>
    rw [List.countP_nil, List.length_eq_zero_iff] at hroots
    simp [hroots, subtreesAll]
  | cons x adds =>
    rw [List.countP_cons_of_pos (by simpa using hground.first x rfl)] at hroots
    obtain ⟨t, rest, htrees⟩ := List.exists_cons_of_length_eq_add_one hroots
    have hsub : (subtreesAll rest).length = 0 ↔ rest.length = 0 := by
      cases rest with
      | nil => simp [subtreesAll]
      | cons u us => simp [subtreesAll, subtrees_eq u]
    rw [htrees, List.length_cons, Nat.add_right_cancel_iff] at hroots
    simp only [htrees, List.head?_cons, List.length_map, ← label_subtrees, subtreesAll,
      List.length_append, List.tail_cons]
    rw [Nat.left_eq_add, hsub, hroots, List.countP_eq_zero]
    simp

theorem mem_numbersUnder {parent : Option Nat} {id : Nat} : id ∈ numbersUnder parent adds ↔
    ∃ i x, id = i + 1 ∧ adds[i]? = some x ∧ x.parent = parent := by
  rw [numbersUnder, List.mem_findIdxs_iff_getElem_sub_pos]
  constructor
  · rintro ⟨hpos, hlt, hparent⟩
    exact ⟨id - 1, _, by omega, List.getElem?_eq_getElem hlt, by simpa using hparent⟩
  · rintro ⟨i, x, rfl, hx, hparent⟩
    obtain ⟨hlt, rfl⟩ := List.getElem?_eq_some_iff.mp hx
    exact ⟨by omega, hlt, by simpa using hparent⟩

theorem root?_add {ast : Ast} {r : Nat} (h : ast.root? = some r) (parent : Option Nat)
    (node : AstNode) : (ast.add parent node).root? = some r := by
  rw [root?, tree?, Option.map_eq_some_iff] at h
  obtain ⟨t, ht, rfl⟩ := h
  obtain ⟨rest, htrees⟩ := List.head?_eq_some_iff.mp ht
  cases parent with
  | none => simp [root?, tree?, add, htrees]
  | some p => simp [root?, tree?, add, htrees, attachAll, label_attach]

theorem Records.get?_kept {ast grown : Ast} (h : Records adds ast) {x : Addition}
    (hgrown : Records (adds ++ [x]) grown) {id : Nat} (hid : id ≠ ast.nextId) :
    grown.get? id = ast.get? id := by
  by_cases hold : id ∈ returned adds
  · obtain ⟨i, hi, rfl⟩ := mem_returned.mp hold
    have hx := List.getElem?_eq_getElem hi
    have hx' : (adds ++ [x])[i]? = some adds[i] := by rw [List.getElem?_append_left hi, hx]
    rw [h.get?_eq hx, hgrown.get?_eq hx']
  · have hnew : id ∉ returned (adds ++ [x]) := by
      rw [nextId, h.size_eq] at hid
      simp [returned_concat, hold, hid]
    rw [h.get?_eq_none hold, hgrown.get?_eq_none hnew]

theorem exists_reading {ast : Ast} (h : ast.Distinct) : ∃ ids,
    ast.ReadingOrder ast.root? ids ∧ ast.nodes.map some = ids.map ast.get? := by
  rw [root?, nodes]
  cases ht : ast.tree? with
  | none => exact ⟨[], ⟨.nil, by simp, by simp, by simp⟩, rfl⟩
  | some t =>
    have hmem : t ∈ subtreesAll ast.trees := mem_subtreesAll_of_mem (List.mem_of_head? ht)
    exact ⟨numbersOf t, readingOrder_of_mem h hmem, nodes_of_mem h hmem⟩

/-- The additions have built a forest, whose first tree is read in order and whose nodes the next
addition leaves as they are. -/
structure Forest (adds : List Addition) : Prop where
  returned_eq : returned adds = List.range' 1 adds.length
  size_eq : (grow adds).size = adds.length
  root_eq : (grow adds).root? = (returned adds).head?
  get?_eq : ∀ i x, adds[i]? = some x → (grow adds).get? (i + 1) = some x.node
  get?_eq_none : ∀ id, id ∉ returned adds → (grow adds).get? id = none
  children_eq : ∀ p, (grow adds).children p = numbersUnder (some p) adds
  children_nodup : ∀ p, ((grow adds).children p).Nodup
  parent_unique : ∀ p q c, c ∈ (grow adds).children p → c ∈ (grow adds).children q → p = q
  root_kept : ∀ parent node r, (grow adds).root? = some r →
    ((grow adds).add parent node).root? = some r
  node_kept : ∀ x : Addition, (∀ p ∈ x.parent, p ∈ returned adds) → ∀ id, id ≠ (grow adds).nextId →
    ((grow adds).add x.parent x.node).get? id = (grow adds).get? id
  children_kept : ∀ x : Addition, (∀ p ∈ x.parent, p ∈ returned adds) → ∀ p, x.parent ≠ some p →
    ((grow adds).add x.parent x.node).children p = (grow adds).children p
  reads : ∃ ids, (grow adds).ReadingOrder (grow adds).root? ids ∧
    (grow adds).nodes.map some = ids.map (grow adds).get?
  all_read_iff : (grow adds).nodes.length = (grow adds).size ↔ ∀ x ∈ adds.tail, x.parent ≠ none

theorem grow_forest (h : Grounded adds) : Forest adds := by
  have hrec := h.records
  have hnext : ∀ {x : Addition}, (∀ p ∈ x.parent, p ∈ returned adds) →
      Records (adds ++ [x]) ((grow adds).add x.parent x.node) := by
    intro x hx
    rw [← grow_concat]
    exact (Grounded.concat h hx).records
  constructor
  case returned_eq => exact returned_eq adds
  case size_eq => exact size_grow adds
  case root_eq => exact hrec.root_eq h
  case get?_eq => exact fun i x hx => hrec.get?_eq hx
  case get?_eq_none => exact fun id hid => hrec.get?_eq_none hid
  case children_eq => exact hrec.children_eq h
  case children_nodup =>
    intro p
    rw [hrec.children_eq h]
    exact List.nodup_findIdxs
  case parent_unique =>
    intro p q c hp hq
    rw [hrec.children_eq h, mem_numbersUnder] at hp hq
    obtain ⟨i, x, rfl, hx, hparent⟩ := hp
    obtain ⟨j, y, heq, hy, hparent'⟩ := hq
    obtain rfl : i = j := by omega
    obtain rfl : x = y := Option.some.inj (hx.symm.trans hy)
    exact Option.some.inj (hparent.symm.trans hparent')
  case root_kept => exact fun parent node r hr => root?_add hr parent node
  case node_kept =>
    intro x hx id hid
    exact hrec.get?_kept (hnext hx) hid
  case children_kept =>
    intro x hx p hp
    rw [(hnext hx).children_eq (.concat h hx), hrec.children_eq h, numbersUnder_concat, if_neg hp,
      List.append_nil]
  case reads => exact exists_reading hrec.distinct
  case all_read_iff => exact hrec.all_read_iff h

/-- A tree whose nodes have not been added in the order of reading, and another beside it. -/
def twoTrees : List Addition :=
  [⟨none, .ofKind "module"⟩, ⟨some 1, .ofKind "call"⟩, ⟨none, .ofKind "comment"⟩,
    ⟨some 3, .ofKind "text"⟩, ⟨some 1, .ofKind "pass"⟩, ⟨some 2, .ofKind "name"⟩]

theorem twoTrees_grounded : Grounded twoTrees :=
  .concat (.concat (.concat (.concat (.concat (.concat .nil (by decide)) (by decide)) (by decide))
    (by decide)) (by decide)) (by decide)

theorem grow_forest_twoTrees : Grounded twoTrees ∧ Forest twoTrees ∧
    (grow twoTrees).children 1 = [2, 5] ∧
    (grow twoTrees).nodes.map (·.kind) = ["module", "call", "name", "pass"] :=
  ⟨twoTrees_grounded, grow_forest twoTrees_grounded, by decide, by decide⟩

end Ast

end CodePattern
