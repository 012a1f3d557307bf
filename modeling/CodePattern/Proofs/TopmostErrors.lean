import CodePattern.Proofs.Choice
import CodePattern.Proofs.Faults
import Mathlib.Data.List.Forall2

/-! What a conversion reports: one error for each node of the converted tree that is marked as
an error and stands below no other such node, in preorder. What an error says depends on the
node of the grammar's tree that it comes from and on the caller's text, how many there are on
neither the text nor the map. -/

namespace CodePattern

namespace Rose

variable {α β γ δ : Type}

/-- The node at the root of a subtree passes a test while no label above it does. -/
def isTopmost (p : α → Bool) (x : List α × Rose α) : Bool := p x.2.label && !x.1.any p

/-- The labels in preorder that pass a test while no label above them does. -/
def topmost (p : α → Bool) (t : Rose α) : List α :=
  ((t.lineages []).filter (isTopmost p)).map (·.2.label)

def topmostAll (p : α → Bool) (ts : List (Rose α)) : List α :=
  ((lineagesAll [] ts).filter (isTopmost p)).map (·.2.label)

mutual
theorem lineages_append (above farther : List α) : (t : Rose α) →
    t.lineages (above ++ farther) = (t.lineages above).map (fun x => (x.1 ++ farther, x.2))
  | .node a cs => by
    rw [lineages, lineages, List.map_cons, ← lineagesAll_append (a :: above) farther cs,
      List.cons_append]

theorem lineagesAll_append (above farther : List α) : (ts : List (Rose α)) →
    lineagesAll (above ++ farther) ts =
      (lineagesAll above ts).map (fun x => (x.1 ++ farther, x.2))
  | [] => rfl
  | t :: ts => by
    rw [lineagesAll, lineagesAll, List.map_append, lineages_append above farther t,
      lineagesAll_append above farther ts]
end

theorem topmost_node (p : α → Bool) (a : α) (cs : List (Rose α)) :
    (node a cs).topmost p = if p a then [a] else topmostAll p cs := by
  have hbelow := lineagesAll_append [] [a] cs
  rw [List.nil_append] at hbelow
  rw [topmost, lineages, hbelow, List.filter_cons, List.filter_map]
  cases ha : p a with
  | true =>
    have hnone : (lineagesAll [] cs).filter (isTopmost p ∘ fun x => (x.1 ++ [a], x.2)) = [] :=
      List.filter_eq_nil_iff.mpr fun x _ => by simp [isTopmost, ha]
    simp [isTopmost, label, ha, hnone]
  | false =>
    have hsame : isTopmost p ∘ (fun x => (x.1 ++ [a], x.2)) = isTopmost p := by
      funext x
      simp [isTopmost, ha]
    simp [isTopmost, label, ha, hsame, topmostAll]

theorem topmostAll_cons (p : α → Bool) (t : Rose α) (ts : List (Rose α)) :
    topmostAll p (t :: ts) = t.topmost p ++ topmostAll p ts := by
  rw [topmostAll, lineagesAll, List.filter_append, List.map_append]
  rfl

mutual
theorem lineages_map (f : α → β) (above : List α) : (t : Rose α) →
    (t.map f).lineages (above.map f) = (t.lineages above).map (fun x => (x.1.map f, x.2.map f))
  | .node a cs => by
    have hcs := lineagesAll_mapAll f (a :: above) cs
    rw [List.map_cons] at hcs
    simp only [map, lineages, List.map_cons, hcs]

theorem lineagesAll_mapAll (f : α → β) (above : List α) : (ts : List (Rose α)) →
    lineagesAll (above.map f) (mapAll f ts) =
      (lineagesAll above ts).map (fun x => (x.1.map f, x.2.map f))
  | [] => rfl
  | t :: ts => by
    simp only [mapAll, lineagesAll, List.map_append, lineages_map f above t,
      lineagesAll_mapAll f above ts]
end

theorem topmost_map (p : β → Bool) (f : α → β) (t : Rose α) :
    (t.map f).topmost p = (t.topmost (p ∘ f)).map f := by
  have hlineages := lineages_map f [] t
  rw [List.map_nil] at hlineages
  simp only [topmost, hlineages, List.filter_map, List.map_map]
  refine congrArg₂ List.map ?_ (List.filter_congr fun x _ => ?_)
  · funext x
    exact map_label f x.2
  · simp only [isTopmost, Function.comp_apply, map_label, List.any_map]

mutual
/-- Trees of one shape that agree in a second way, node by node, agree in both at once. -/
theorem map_pair_eq {f : α → γ} {g : β → γ} {f' : α → δ} {g' : β → δ} :
    (t : Rose α) → (s : Rose β) → t.map f = s.map g →
      t.preorder.map f' = s.preorder.map g' →
      t.map (fun a => (f a, f' a)) = s.map (fun b => (g b, g' b))
  | .node a cs, .node b ds, hshape, hlabels => by
    simp only [map, Rose.node.injEq] at hshape
    simp only [preorder, List.map_cons, List.cons.injEq] at hlabels
    have hcs := mapAll_pair_eq cs ds hshape.2 hlabels.2
    rw [map, map, hshape.1, hlabels.1, hcs]

theorem mapAll_pair_eq {f : α → γ} {g : β → γ} {f' : α → δ} {g' : β → δ} :
    (ts : List (Rose α)) → (ss : List (Rose β)) → mapAll f ts = mapAll g ss →
      (preorderAll ts).map f' = (preorderAll ss).map g' →
      mapAll (fun a => (f a, f' a)) ts = mapAll (fun b => (g b, g' b)) ss
  | [], [], _, _ => rfl
  | [], _ :: _, hshape, _ => by cases hshape
  | _ :: _, [], hshape, _ => by cases hshape
  | t :: ts, s :: ss, hshape, hlabels => by
    simp only [mapAll, List.cons.injEq] at hshape
    simp only [preorderAll, List.map_append] at hlabels
    have hsize : t.size = s.size := by rw [← size_map f t, hshape.1, size_map]
    have hlength : (t.preorder.map f').length = (s.preorder.map g').length := by
      rw [List.length_map, List.length_map, length_preorder, length_preorder, hsize]
    obtain ⟨ht, hts⟩ := List.append_inj hlabels hlength
    rw [mapAll, mapAll, map_pair_eq t s hshape.1 ht, mapAll_pair_eq ts ss hshape.2 hts]
end

end Rose

/-- The entries of the root's tree that are marked as errors and stand below no other. -/
def Ast.topmostErrors (ast : Ast) : List Entry :=
  ast.tree?.toList.flatMap (Rose.topmost (·.node.error))

namespace Conversion

open Rose

/-- The node of the grammar's tree that a node of the converted tree comes from. -/
def origin? (c : Conversion) (tree : Rose GrammarNode) (id : Nat) : Option GrammarNode :=
  (c.staying tree)[id - 1]?.map (·.2.label)

/-- The first characters of what a span covers, none if the span cuts a character. -/
def excerpt (text : List Char) (span : Span) : List Char :=
  ((slice? text span.startByte span.endByte).getD []).take 40

/-- How an error about a node of the grammar's tree is worded. -/
inductive Words (text : List Char) (n : GrammarNode) : SyntaxError → Prop
  | missing {span : Span} (h : n.missing = true) : Words text n ⟨"missing " ++ n.kind, span⟩
  | blank {span : Span} (h : n.missing = false)
      (hblank : ∀ c ∈ excerpt text span, isBlank c = true) :
      Words text n ⟨"unexpected input", span⟩
  | excerpt {span : Span} {c : Char} (h : n.missing = false) (hc : c ∈ excerpt text span)
      (hblank : isBlank c = false) :
      Words text n ⟨"unexpected `" ++ String.ofList (trim (excerpt text span)) ++ "`", span⟩

variable {c : Conversion} {tree : Rose GrammarNode}

theorem syntaxError_words (c : Conversion) (n : GrammarNode) :
    Words c.text n (c.syntaxError n) := by
  have hspan : (c.syntaxError n).span = c.span n := rfl
  rw [syntaxError]
  cases hn : n.missing with
  | true => exact .missing hn
  | false =>
    simp only [Bool.false_eq_true, if_false, quote]
    split
    · next hempty =>
      rw [List.isEmpty_iff, ← Pattern.allBlank_iff_trim, allBlank, List.all_eq_true] at hempty
      exact .blank hn hempty
    · next hempty =>
      rw [List.isEmpty_iff, ← Pattern.allBlank_iff_trim, allBlank, List.all_eq_true] at hempty
      push Not at hempty
      obtain ⟨d, hd, hblank⟩ := hempty
      exact .excerpt hn hd (Bool.eq_false_iff.mpr hblank)

mutual
theorem topmostFaults_eq :
    (t : Rose Kept) → topmostFaults t = (t.topmost (·.node.faulty)).map (·.node)
  | .node k cs => by
    rw [topmostFaults, topmost_node, topmostFaultsAll_eq cs]
    split <;> rfl

theorem topmostFaultsAll_eq : (ts : List (Rose Kept)) →
    topmostFaultsAll ts = (topmostAll (·.node.faulty) ts).map (·.node)
  | [] => rfl
  | t :: ts => by
    rw [topmostFaultsAll, topmostAll_cons, List.map_append, topmostFaults_eq t,
      topmostFaultsAll_eq ts]
end

/-- Each node of the converted tree comes from the node that was kept in its place. -/
theorem origin?_number {kept : Rose Kept} (h : c.keep false tree = some kept) :
    (Ast.number 1 (kept.map c.astNode)).map (fun a => (a.node, c.origin? tree a.id)) =
      kept.map (fun k => (c.astNode k, some k.node)) := by
  refine map_pair_eq _ kept (Ast.plain_number 1 _) ?_
  have hids := Ast.ids_number 1 (kept.map c.astNode)
  rw [size_map, ← length_preorder] at hids
  have hnodes := nodes_keep c tree
  rw [h, Option.toList_some, preorderAll, preorderAll, List.append_nil] at hnodes
  have hlength := congrArg List.length hnodes
  rw [List.length_map, List.length_map] at hlength
  calc (Ast.number 1 (kept.map c.astNode)).preorder.map (fun a => c.origin? tree a.id)
      = (List.range' 1 (c.staying tree).length).map (c.origin? tree) := by
        rw [← hlength, ← hids, List.map_map, ← label_subtrees, List.map_map]
        rfl
    _ = ((c.staying tree).map (·.2.label)).map some := by
        refine List.ext_getElem? fun i => ?_
        by_cases hi : i < (c.staying tree).length
        · simp [origin?, hi]
        · simp [hi]
    _ = kept.preorder.map (fun k => some k.node) := by
        rw [← hnodes, List.map_map]
        rfl

/-- The topmost errors of the converted tree, with the nodes they come from, are the topmost
faults of what was kept. -/
theorem topmostErrors_run {kept : Rose Kept} (h : c.keep false tree = some kept) :
    (c.run tree).ast.topmostErrors.map (fun a => (a.node, c.origin? tree a.id)) =
      (kept.topmost (·.node.faulty)).map (fun k => (c.astNode k, some k.node)) := by
  let numbered := Ast.number 1 (kept.map c.astNode)
  have htop : (c.run tree).ast.topmostErrors = numbered.topmost (·.node.error) := by
    rw [ast_run, h]
    simp [Ast.topmostErrors, Ast.ofTree?, Ast.ofTree, Ast.tree?, numbered]
  have hpair := topmost_map (fun x => x.1.error) (fun a => (a.node, c.origin? tree a.id)) numbered
  rw [origin?_number h, topmost_map] at hpair
  rw [htop]
  exact hpair.symm

theorem errors_forall₂ (c : Conversion) (tree : Rose GrammarNode) :
    List.Forall₂ (fun e a => e.span = a.node.span ∧
        ∃ n, c.origin? tree a.id = some n ∧ n.kind = a.node.kind ∧ Words c.text n e)
      (c.run tree).errors (c.run tree).ast.topmostErrors := by
  cases hkept : c.keep false tree with
  | none =>
    rw [ast_run, run, hkept]
    exact .nil
  | some kept =>
    have hpairs := topmostErrors_run hkept
    rw [← List.forall₂_eq_eq_eq, List.forall₂_map_left_iff, List.forall₂_map_right_iff] at hpairs
    have herrors : (c.run tree).errors =
        (kept.topmost (·.node.faulty)).map (fun k => c.syntaxError k.node) := by
      rw [run, hkept]
      exact (congrArg _ (topmostFaults_eq kept)).trans List.map_map
    rw [herrors, List.forall₂_map_left_iff]
    refine hpairs.flip.imp fun k a hka => ?_
    obtain ⟨hnode, horigin⟩ := Prod.mk.inj hka
    rw [hnode]
    exact ⟨rfl, k.node, horigin, rfl, syntaxError_words c k.node⟩

/-- How many errors there are depends on neither the caller's text nor the map. -/
theorem length_errors_of (family : Family) (mode : Mode) (parsed text text' : List Char)
    (map map' : OffsetMap) (tree : Rose GrammarNode) :
    ((Conversion.of family mode parsed text' map').run tree).errors.length =
      ((Conversion.of family mode parsed text map).run tree).errors.length := by
  let c := Conversion.of family mode parsed text map
  let c' := Conversion.of family mode parsed text' map'
  have hpattern : ∀ inString n, c'.pattern? inString n = c.pattern? inString n := fun _ _ => rfl
  have hkeep := keep_congr hpattern false tree
  rw [run, run, hkeep]
  cases c.keep false tree <;> simp

theorem errors_eq_nil_iff_nodes (c : Conversion) (tree : Rose GrammarNode) :
    (c.run tree).errors = [] ↔ ∀ a ∈ (c.run tree).ast.nodes, a.error = false := by
  rw [ast_run, run]
  cases c.keep false tree with
  | none => simp [Ast.ofTree?, Ast.nodes, Ast.tree?, Ast.empty]
  | some kept =>
    simp only [List.map_eq_nil_iff, topmostFaults_eq_nil_iff, Option.map_some, Ast.ofTree?,
      Ast.nodes_ofTree, preorder_map, List.forall_mem_map]
    rfl

/-- The errors of a conversion are, in preorder, the nodes of the converted tree that are marked
as errors and stand below no other. -/
theorem errors_topmost (family : Family) (mode : Mode) (parsed text : List Char)
    (map : OffsetMap) (tree : Rose GrammarNode) :
    let c := Conversion.of family mode parsed text map
    let converted := c.run tree
    List.Forall₂ (fun e a => e.span = a.node.span ∧
        ∃ n, c.origin? tree a.id = some n ∧ n.kind = a.node.kind ∧ Words text n e)
      converted.errors converted.ast.topmostErrors ∧
    (converted.errors = [] ↔ ∀ a ∈ converted.ast.nodes, a.error = false) ∧
    ∀ text' map', ((Conversion.of family mode parsed text' map').run tree).errors.length =
      converted.errors.length := by
  intro c converted
  exact ⟨errors_forall₂ c tree, errors_eq_nil_iff_nodes c tree,
    fun text' map' => length_errors_of family mode parsed text text' map map' tree⟩

end Conversion

end CodePattern
