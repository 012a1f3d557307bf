import CodePattern.Proofs.Candidate
import CodePattern.Proofs.Choice
import CodePattern.Proofs.Kept

/-! Whatever a pattern reports lies in the text that was given, whichever candidate the
pattern was made of. -/

namespace CodePattern

/-- Nodes lie in the program between characters, a dialect rejects nodes, and what a
wrapping adds at the end fits in memory. -/
structure Grammar.WellFormed (g : Grammar) : Prop where
  nodes : ∀ source tree, g.parse source = .ok tree → ∀ n ∈ tree.preorder,
    n.start ≤ n.stop ∧ IsBoundary source n.start ∧ IsBoundary source n.stop
  rejected : ∀ lang ast, ∀ e ∈ g.dialectErrors lang ast, ∃ n ∈ ast.nodes, e.span = n.span
  closing : ∀ body, ∀ w ∈ g.wrappings body, width w.closing.toList < UInt64.size / 2

theorem wrapping_cases {family : Family}
    {parser : List Char → Except ParseFailure (Rose GrammarNode)} {body : List Char} {w : Wrapping}
    (h : w ∈ (Grammar.ofFamily family parser).wrappings body) :
    w = .none ∨ family = .php ∧ (w = Php.openTag ∨ w = Php.openTagTerminated) := by
  cases family with
  | python => exact .inl (by simpa [Grammar.ofFamily, Python.wrappings] using h)
  | php =>
    simp only [Grammar.ofFamily, Php.wrappings] at h
    split at h
    · simp_all
    · split at h <;> simp_all

theorem Grammar.ofFamily_wellFormed (family : Family)
    {parser : List Char → Except ParseFailure (Rose GrammarNode)}
    (h : ∀ source tree, parser source = .ok tree → ∀ n ∈ tree.preorder,
      n.start ≤ n.stop ∧ IsBoundary source n.start ∧ IsBoundary source n.stop) :
    (Grammar.ofFamily family parser).WellFormed := by
  have hclosing : ∀ body, ∀ w ∈ (Grammar.ofFamily family parser).wrappings body,
      width w.closing.toList < UInt64.size / 2 := by
    intro body w hw
    rcases wrapping_cases hw with rfl | ⟨-, rfl | rfl⟩ <;> decide
  cases family with
  | php => exact ⟨h, fun lang ast e he => by simp [Grammar.ofFamily] at he, hclosing⟩
  | python =>
    refine ⟨h, fun lang ast e he => ?_, hclosing⟩
    obtain ⟨n, hn, rfl⟩ := List.mem_map.mp he
    exact ⟨n, (List.mem_filter.mp hn).1, rfl⟩

theorem lineOf_le_width {text : List Char} (h : trim text ≠ []) : lineOf text ≤ width text := by
  have hle := List.count_le_length (a := '\n') (l := text)
  have hne : text.count '\n' ≠ text.length := by
    intro heq
    apply h
    rw [← Pattern.allBlank_iff_trim, allBlank, List.all_eq_true]
    intro c hc
    rw [← List.count_eq_length.mp heq c hc]
    decide
  have hwidth := length_le_width text
  rw [lineOf]
  omega

namespace Conversion

theorem span_covers_textOf {c : Conversion} {n : GrammarNode} (hlines : c.lines = .ofText c.text)
    (hstart : IsBoundary c.text (c.map.locate n.start))
    (hstop : IsBoundary c.text (c.map.locate n.stop))
    (hw : width c.text < UInt32.size) (hl : lineOf c.text < UInt32.size) :
    (c.span n).Covers c.text (c.textOf (c.span n)) := by
  have hmax : IsBoundary c.text (max (c.map.locate n.stop) (c.map.locate n.start)) := by
    rcases Nat.le_total (c.map.locate n.stop) (c.map.locate n.start) with hle | hle
    · rwa [Nat.max_eq_right hle]
    · rwa [Nat.max_eq_left hle]
  obtain ⟨before, part, after, he, hbefore, hpart⟩ :=
    exists_part hstart hmax (Nat.le_max_right _ _)
  have hspan : c.span n =
      (LineTable.ofText c.text).span (width before) (width (before ++ part)) := by
    rw [span, hlines, hbefore, hpart]
  have htext : c.textOf (c.span n) = part := by
    rw [textOf, hspan]
    simp only [LineTable.span, he, slice?_part, Option.getD_some]
  rw [htext, hspan]
  exact span_covers he hw hl

end Conversion

namespace Pattern

/-- Nodes and errors cover parts of the text, and the text of a node is the part that it
covers. -/
def Located (p : Pattern) (text : List Char) : Prop :=
  (∀ n ∈ p.ast.nodes, ∃ part, n.span.Covers text part ∧
    ∀ s, n.text = some s → s = String.ofList part) ∧
  ∀ e ∈ p.errors, ∃ part, e.span.Covers text part

variable {g : Grammar} {lang : Language} {strict : Bool} {text : String}

theorem classify_nodes_subset (t : Option (Rose AstNode)) (topLevel : List Nat) :
    (classify (.ofTree? t) topLevel).2.nodes ⊆ (Ast.ofTree? t).nodes := by
  have hsubtree : ∀ id, ((Ast.ofTree? t).subtree id).nodes ⊆ (Ast.ofTree? t).nodes := by
    intro id
    cases t with
    | none => exact List.nil_subset _
    | some t => exact Ast.nodes_subtree_subset t id
  unfold classify
  split
  · split
    · split <;> exact hsubtree _
    · exact hsubtree _
  · exact List.Subset.refl _

theorem attempt_eq_ok {text : List Char} {c : Candidate} {r : Converted}
    (h : attempt g lang text c = .ok r) : ∃ tree, g.parse c.parsed = .ok tree ∧
      let converted := (Conversion.of g.family .pattern c.parsed text c.map).run tree
      r = { converted with errors := converted.errors ++ g.dialectErrors lang converted.ast } := by
  rw [attempt] at h
  split at h
  · cases h
  · next tree htree => exact ⟨tree, htree, (Except.ok.inj h).symm⟩

theorem exists_tree_of_attempt {text : List Char} {r : Converted}
    (h : .ok r ∈ attempts g lang text) :
    ∃ base ∈ bases text, ∃ w ∈ g.wrappings (Placeholder.insert g.family base.text).text,
      ∃ tree, g.parse (w.apply (Placeholder.insert g.family base.text).text) = .ok tree ∧
        let c := Candidate.wrap text base (Placeholder.insert g.family base.text) w
        let converted := (Conversion.of g.family .pattern c.parsed text c.map).run tree
        r = { converted with
          errors := converted.errors ++ g.dialectErrors lang converted.ast } := by
  obtain ⟨c, hc, hr⟩ := List.mem_map.mp h
  obtain ⟨base, hbase, hc⟩ := List.mem_flatMap.mp hc
  obtain ⟨w, hw, rfl⟩ := List.mem_map.mp hc
  obtain ⟨tree, htree, he⟩ := attempt_eq_ok hr
  exact ⟨base, hbase, w, hw, tree, htree, he⟩

theorem finish_eq_ok {r : Converted} {p : Pattern} (h : finish g lang strict r = .ok p) :
    p.ast = (classify r.ast (g.topLevel r.ast)).2 ∧
      p.metavariables = metavariablesOf p.ast.nodes ∧ p.errors = r.errors := by
  rw [finish] at h
  split at h
  · obtain rfl := Except.ok.inj h
    exact ⟨rfl, rfl, rfl⟩
  · cases h

theorem finish_subset {text : List Char} {r : Converted} {p : Pattern}
    (hr : .ok r ∈ attempts g lang text) (h : finish g lang strict r = .ok p) :
    p.ast.nodes ⊆ r.ast.nodes ∧ p.errors = r.errors := by
  obtain ⟨hast, -, herrors⟩ := finish_eq_ok h
  refine ⟨?_, herrors⟩
  obtain ⟨_, _, _, _, tree, _, rfl⟩ := exists_tree_of_attempt hr
  rw [hast, Conversion.ast_run]
  exact classify_nodes_subset _ _

theorem candidate_span_covers {text : List Char} {base : Revision} {w : Wrapping}
    {n : GrammarNode} (hbase : base ∈ bases text) (hblank : trim text ≠ [])
    (hsize : width text < UInt32.size) (hw : width w.closing.toList < UInt64.size / 2)
    (hstart : IsBoundary (w.apply (Placeholder.insert g.family base.text).text) n.start)
    (hstop : IsBoundary (w.apply (Placeholder.insert g.family base.text).text) n.stop) :
    let c := Candidate.wrap text base (Placeholder.insert g.family base.text) w
    let conversion := Conversion.of g.family .pattern c.parsed text c.map
    (conversion.span n).Covers text (conversion.textOf (conversion.span n)) := by
  intro c conversion
  have hword : width text + width w.closing.toList < wordSize := by
    simp only [wordSize, UInt64.size, UInt32.size] at hsize hw ⊢
    omega
  have hl := lineOf_le_width hblank
  exact Conversion.span_covers_textOf (c := conversion) rfl
    (locate_wrap_boundary hbase hword hstart) (locate_wrap_boundary hbase hword hstop)
    hsize (by show lineOf text < UInt32.size; omega)

theorem parse_located {p : Pattern} (hg : g.WellFormed) (hsize : width text.toList < UInt32.size)
    (hp : parse g lang strict text = .ok p) : p.Located text.toList := by
  obtain ⟨hblank, r, hr, hfinish⟩ := exists_outcome_of_parse hp
  obtain ⟨hnodes, herrors⟩ := finish_subset hr hfinish
  obtain ⟨base, hbase, w, hw, tree, htree, rfl⟩ := exists_tree_of_attempt hr
  let c := Candidate.wrap text.toList base (Placeholder.insert g.family base.text) w
  let conversion := Conversion.of g.family .pattern c.parsed text.toList c.map
  have hcovers : ∀ n ∈ tree.preorder, (conversion.span n).Covers text.toList
      (conversion.textOf (conversion.span n)) := by
    intro n hn
    obtain ⟨-, hstart, hstop⟩ := hg.nodes _ _ htree n hn
    exact candidate_span_covers hbase hblank hsize (hg.closing _ w hw) hstart hstop
  have hast : ∀ n ∈ (conversion.run tree).ast.nodes, ∃ part, n.span.Covers text.toList part ∧
      ∀ s, n.text = some s → s = String.ofList part := by
    intro n hn
    obtain ⟨k, rfl, hk⟩ := Conversion.exists_kept_of_mem_nodes hn
    refine ⟨_, hcovers k.node hk, fun s hs => ?_⟩
    simp only [Conversion.astNode] at hs
    split at hs
    · exact (Option.some.inj hs).symm
    · cases hs
  refine ⟨fun n hn => hast n (hnodes hn), fun e he => ?_⟩
  rw [herrors] at he
  rcases List.mem_append.mp he with he | he
  · obtain ⟨n, hn, hspan⟩ := Conversion.exists_node_of_mem_errors he
    exact ⟨_, hspan ▸ hcovers n hn⟩
  · obtain ⟨n, hn, hspan⟩ := hg.rejected _ _ e he
    obtain ⟨part, hpart, -⟩ := hast n hn
    exact ⟨part, hspan ▸ hpart⟩

def awaitTree (start : Nat) : Rose GrammarNode :=
  .node ⟨"module", true, false, false, start, start + 12, none⟩
    [.node ⟨"expression_statement", true, false, false, start, start + 12, none⟩
      [.node ⟨"await", true, false, false, start, start + 12, none⟩
        [.node ⟨"await", false, false, false, start, start + 5, none⟩ [],
          .node ⟨"identifier", true, false, false, start + 6, start + 12, none⟩ []]]]

def parseAwait (source : List Char) : Except ParseFailure (Rose GrammarNode) :=
  if source = "  await __mv_X".toList then .ok (awaitTree 2)
  else if source = "await __mv_X".toList then .ok (awaitTree 0)
  else .error (.refused "refused to parse")

theorem parseAwait_wellFormed : (Grammar.ofFamily .python parseAwait).WellFormed := by
  refine Grammar.ofFamily_wellFormed .python fun source tree h => ?_
  rw [parseAwait] at h
  split at h
  · next hsource =>
    obtain rfl := Except.ok.inj h
    subst hsource
    decide
  · split at h
    · next hsource =>
      obtain rfl := Except.ok.inj h
      subst hsource
      decide
    · cases h

theorem parse_located_await :
    (Grammar.ofFamily .python parseAwait).WellFormed ∧ width "  await $X".toList < UInt32.size ∧
      ∃ p, parse (.ofFamily .python parseAwait) .python2 false "  await $X" = .ok p ∧
        p.metavariables = ["$X"] ∧ p.errors.length = 1 ∧ p.Located "  await $X".toList := by
  have hp : ∃ p, parse (.ofFamily .python parseAwait) .python2 false "  await $X" = .ok p ∧
      p.metavariables = ["$X"] ∧ p.errors.length = 1 := ⟨_, rfl, rfl, rfl⟩
  obtain ⟨p, hp, hnames, herrors⟩ := hp
  exact ⟨parseAwait_wellFormed, by decide, p, hp, hnames, herrors,
    parse_located parseAwait_wellFormed (by decide) hp⟩

end Pattern

end CodePattern
