import CodePattern.Proofs.Indented
import CodePattern.Proofs.Nesting
import CodePattern.Proofs.Relabelled

/-! An indented pattern means what the pattern means. If the indented text makes no candidate
without errors as it is written, it is read without its indentation, and the tree is the one of
the pattern with all offsets moved right. -/

namespace CodePattern

open Indentation

namespace Grammar

/-- Whether the dialect rejects a tree depends on the kinds of its nodes. -/
def LooksAtKinds (g : Grammar) : Prop :=
  ∀ (lang : Language) (ast : Ast) (f : AstNode → AstNode), (∀ n, (f n).kind = n.kind) →
    (g.dialectErrors lang (ast.mapNodes f) = [] ↔ g.dialectErrors lang ast = [])

theorem looksAtKinds_ofFamily (family : Family)
    (parse : List Char → Except ParseFailure (Rose GrammarNode)) :
    (Grammar.ofFamily family parse).LooksAtKinds := by
  intro lang ast f hkind
  cases family with
  | php => exact Iff.rfl
  | python =>
    simp only [Grammar.ofFamily, Python.dialectErrors, List.map_eq_nil_iff, Ast.findAll,
      Ast.nodes_mapNodes, List.filter_map, Function.comp_def, hkind]

end Grammar

namespace Conversion

/-- The node over the indented text that stands for a node over the text. -/
def moveNode (space text : List Char) (n : AstNode) : AstNode :=
  let indented := indent space text
  let span := (LineTable.ofText indented).span (moved space text n.span.startByte)
    (moved space text n.span.endByte)
  { n with
    span
    text := n.text.map fun _ =>
      String.ofList ((slice? indented span.startByte span.endByte).getD []) }

section

variable {family : Family} {mode : Mode} {parsed text space : List Char} {map map' : OffsetMap}

theorem astNode_moved {k : Kept}
    (hstart : map'.locate k.node.start = moved space text (map.locate k.node.start))
    (hstop : map'.locate k.node.stop = moved space text (map.locate k.node.stop)) :
    (Conversion.of family mode parsed (indent space text) map').astNode k =
      moveNode space text ((Conversion.of family mode parsed text map).astNode k) := by
  have hspan : (Conversion.of family mode parsed (indent space text) map').span k.node =
      (LineTable.ofText (indent space text)).span (moved space text (map.locate k.node.start))
        (moved space text (max (map.locate k.node.stop) (map.locate k.node.start))) := by
    rw [(moved_monotone space text).map_max, ← hstart, ← hstop]
    rfl
  simp only [astNode, moveNode, hspan, textOf]
  cases k.leaf <;> rfl

theorem run_moved {tree : Rose GrammarNode}
    (hlocate : ∀ n ∈ tree.preorder, map'.locate n.start = moved space text (map.locate n.start) ∧
      map'.locate n.stop = moved space text (map.locate n.stop)) :
    let r := (Conversion.of family mode parsed text map).run tree
    let r' := (Conversion.of family mode parsed (indent space text) map').run tree
    r'.ast = r.ast.mapNodes (moveNode space text) ∧ (r'.errors = [] ↔ r.errors = []) := by
  intro r r'
  let c := Conversion.of family mode parsed text map
  let c' := Conversion.of family mode parsed (indent space text) map'
  have hpattern : ∀ inString n, c'.pattern? inString n = c.pattern? inString n := fun _ _ => rfl
  have hkeep := keep_congr hpattern false tree
  have hast : r'.ast = r.ast.mapNodes (moveNode space text) := by
    rw [show r'.ast = _ from ast_run c' tree, show r.ast = _ from ast_run c tree, hkeep,
      ← Ast.ofTree?_map]
    cases hk : c.keep false tree with
    | none => rfl
    | some kept =>
      simp only [Option.map_some, Rose.map_map]
      refine congrArg (Ast.ofTree? ∘ some) (Rose.map_congr kept fun k hmem => ?_)
      have hnode := hlocate _ (node_mem_of_keep hk hmem)
      exact astNode_moved hnode.1 hnode.2
  refine ⟨hast, ?_⟩
  simp only [r, r', run]
  rw [show c'.keep false tree = _ from hkeep]
  cases c.keep false tree <;> simp

end

end Conversion

namespace Pattern

variable {g : Grammar} {lang : Language} {strict : Bool} {space : List Char}

/-- What an attempt at the text says of an attempt at the indented text. -/
inductive Follows (f : AstNode → AstNode) : Attempt → Attempt → Prop
  | failed {failure : ParseFailure} : Follows f (.error failure) (.error failure)
  | parsed {r r' : Converted} (hast : r'.ast = r.ast.mapNodes f)
      (herrors : r'.errors = [] ↔ r.errors = []) : Follows f (.ok r) (.ok r')

theorem Follows.undecided {f : AstNode → AstNode} {a a' : Attempt} (h : Follows f a a')
    (ha : Undecided a) : Undecided a' := by
  obtain ⟨r, rfl, hne⟩ := ha
  cases h with
  | @parsed r r' hast herrors => exact ⟨r', rfl, fun he => hne (herrors.mp he)⟩

/-- The program that the text makes, made of the indented text without its indentation, leads
to the offsets of the text moved right. -/
theorem locate_outdent {family : Family} {text : List Char} {w : Wrapping} {offset : Nat}
    (hsize : width (indent space text) < UInt64.size / 2) (hoffset : offset < UInt64.size / 2) :
    (Candidate.wrap (indent space text) (.ofSegments (outdent space text))
        (Placeholder.insert family text) w).map.locate offset =
      moved space text ((Candidate.wrap text ⟨text, []⟩
        (Placeholder.insert family text) w).map.locate offset) := by
  have hword : wordSize = UInt64.size := rfl
  have hwidth : width text ≤ width (indent space text) := by
    rw [width_indent, moved]
    exact Nat.le_add_right _ _
  have hnew := @locate_wrap_back family (outdent space text) w offset
  have hold := @locate_wrap_back family [.copied text] w offset
  have hbefore : textBefore [.copied text] = text := by simp [textBefore]
  have hafter : textAfter [.copied text] = text := by simp [textAfter]
  rw [textBefore_outdent, textAfter_outdent] at hnew
  rw [hbefore, hafter, ofSegments_copied, Segment.back_only_copied] at hold
  rw [hnew hwidth (by omega), hold (Nat.le_refl _) (by omega), back_eq_moved,
    (moved_monotone space text).map_min, width_indent]

def plainAttempt (g : Grammar) (lang : Language) (text : List Char) (w : Wrapping) : Attempt :=
  attempt g lang text (.wrap text ⟨text, []⟩ (Placeholder.insert g.family text) w)

/-- The attempt at the indented text without its indentation, within a wrapping. -/
def outdentedAttempt (g : Grammar) (lang : Language) (space text : List Char) (w : Wrapping) :
    Attempt :=
  attempt g lang (indent space text) (.wrap (indent space text)
    (.ofSegments (outdent space text)) (Placeholder.insert g.family text) w)

theorem attempts_flush {text : List Char} (h : Flush text) : attempts g lang text =
    (g.wrappings (Placeholder.insert g.family text).text).map (plainAttempt g lang text) := by
  rw [attempts, candidates, bases, remove?_flush h, Option.toList_none, List.flatMap_singleton,
    candidatesOf, List.map_map]
  rfl

theorem attempts_indent {text : List Char} (hspace : space ≠ [])
    (hindent : ∀ c ∈ space, isIndent c = true) (h : Flush text) :
    attempts g lang (indent space text) =
      (candidatesOf g (indent space text) ⟨indent space text, []⟩).map
          (attempt g lang (indent space text)) ++
        (g.wrappings (Placeholder.insert g.family text).text).map
          (outdentedAttempt g lang space text) := by
  have htext : (Revision.ofSegments (outdent space text)).text = text :=
    textAfter_outdent space text
  rw [attempts, candidates, bases, remove?_indent hspace hindent h, Option.toList_some,
    List.flatMap_cons, List.flatMap_singleton, List.map_append]
  refine congrArg _ ?_
  rw [candidatesOf, htext, List.map_map]
  rfl

theorem attempt_follows {text : List Char} (hdialect : g.LooksAtKinds)
    (haddress : ∀ source tree, g.parse source = .ok tree →
      ∀ n ∈ tree.preorder, n.start < UInt64.size / 2 ∧ n.stop < UInt64.size / 2)
    (hsize : width (indent space text) < UInt64.size / 2) (w : Wrapping) :
    Follows (Conversion.moveNode space text) (plainAttempt g lang text w)
      (outdentedAttempt g lang space text w) := by
  let c := Candidate.wrap text ⟨text, []⟩ (Placeholder.insert g.family text) w
  let c' := Candidate.wrap (indent space text) (.ofSegments (outdent space text))
    (Placeholder.insert g.family text) w
  have hparsed : c'.parsed = c.parsed := rfl
  show Follows _ (attempt g lang text c) (attempt g lang (indent space text) c')
  rw [attempt, attempt, hparsed]
  cases hp : g.parse c.parsed with
  | error failure => exact .failed
  | ok tree =>
    have hlocate : ∀ n ∈ tree.preorder,
        c'.map.locate n.start = moved space text (c.map.locate n.start) ∧
          c'.map.locate n.stop = moved space text (c.map.locate n.stop) := by
      intro n hn
      obtain ⟨hstart, hstop⟩ := haddress _ _ hp n hn
      exact ⟨locate_outdent hsize hstart, locate_outdent hsize hstop⟩
    obtain ⟨hast, herrors⟩ := @Conversion.run_moved g.family .pattern c.parsed text space c.map
      c'.map tree hlocate
    have hkind : ∀ n, (Conversion.moveNode space text n).kind = n.kind := fun _ => rfl
    refine .parsed hast ?_
    simp only [List.append_eq_nil_iff, herrors, hast, hdialect lang _ _ hkind]

theorem exists_clean_of_follows {f : AstNode → AstNode} {plain outdented : Wrapping → Attempt}
    (hfollows : ∀ w, Follows f (plain w) (outdented w)) {ws : List Wrapping}
    {before after : List Attempt} {r : Converted} (h : ws.map plain = before ++ .ok r :: after)
    (hbefore : ∀ a ∈ before, Undecided a) (hclean : r.errors = []) :
    ∃ before' r' after', ws.map outdented = before' ++ .ok r' :: after' ∧
      (∀ a ∈ before', Undecided a) ∧ r'.errors = [] ∧ r'.ast = r.ast.mapNodes f := by
  obtain ⟨ws₁, rest, rfl, rfl, hrest⟩ := List.map_eq_append_iff.mp h
  obtain ⟨w, ws₂, rfl, hw, -⟩ := List.map_eq_cons_iff.mp hrest
  have hw' := hfollows w
  rw [hw] at hw'
  generalize houtdented : outdented w = a at hw'
  cases hw' with
  | @parsed r r' hast herrors =>
    refine ⟨ws₁.map outdented, r', ws₂.map outdented, ?_, fun a ha => ?_, herrors.mpr hclean, hast⟩
    · rw [List.map_append, List.map_cons, houtdented]
    · obtain ⟨v, hv, rfl⟩ := List.mem_map.mp ha
      exact (hfollows v).undecided (hbefore _ (List.mem_map_of_mem hv))

/-- A pattern without errors is made of the first attempt that has none. -/
theorem exists_clean_attempt {text : String} {p : Pattern} (h : parse g lang strict text = .ok p)
    (hclean : p.errors = []) :
    ∃ before r after, attempts g lang text.toList = before ++ .ok r :: after ∧
      (∀ a ∈ before, Undecided a) ∧ r.errors = [] ∧ finish g lang strict r = .ok p := by
  obtain ⟨hblank, -⟩ := exists_outcome_of_parse h
  obtain ⟨result, hv⟩ := exists_verdict g lang strict (attempts g lang text.toList)
  rw [parse_of_verdict hblank hv] at h
  generalize attempts g lang text.toList = as at hv ⊢
  cases hv with
  | unparsed => cases h
  | @clean before after r hbefore hr => exact ⟨before, r, after, rfl, hbefore, hr, h⟩
  | @accepted outcomes best hall hbest =>
    obtain ⟨before, after, rfl, -⟩ := hbest
    have hne := hall best (by simp)
    exact absurd ((finish_eq_ok h).2.2.symm.trans hclean) hne
  | invalid => cases h
  | noCandidate => cases h

/-- If a text gives a pattern without errors, and the text with white space before each line
gives none as it is written, the indented text gives the same pattern over other offsets: each
is moved right by the white space of the lines that start at or before it. Offsets are
addresses in memory and fill at most half of 64 bits. -/
theorem parse_indented {text : String} {p : Pattern}
    (htop : g.topLevel = belowRootExcept g.trivia) (hdialect : g.LooksAtKinds)
    (haddress : ∀ source tree, g.parse source = .ok tree →
      ∀ n ∈ tree.preorder, n.start < UInt64.size / 2 ∧ n.stop < UInt64.size / 2)
    (hsize : width (indent space text.toList) < UInt64.size / 2)
    (hflush : Flush text.toList) (hspace : space ≠ []) (hindent : ∀ c ∈ space, isIndent c = true)
    (hparse : parse g lang strict text = .ok p) (hclean : p.errors = [])
    (hwritten : ∀ c ∈ candidatesOf g (indent space text.toList) ⟨indent space text.toList, []⟩,
      Undecided (attempt g lang (indent space text.toList) c)) :
    parse g lang strict (String.ofList (indent space text.toList)) =
      .ok { p with ast := p.ast.mapNodes (Conversion.moveNode space text.toList) } := by
  let indented := indent space text.toList
  obtain ⟨before, r, after, hattempts, hbefore, hr, hfinish⟩ := exists_clean_attempt hparse hclean
  rw [attempts_flush hflush] at hattempts
  obtain ⟨before', r', after', hattempts', hbefore', hr', hast⟩ :=
    exists_clean_of_follows (attempt_follows hdialect haddress hsize) hattempts hbefore hr
  have hverdict : Verdict g lang strict (attempts g lang indented) (finish g lang strict r') := by
    rw [attempts_indent hspace hindent hflush, hattempts', ← List.append_assoc]
    -- The attempts at the indented text as it is written come first and decide nothing.
    refine .clean (fun a ha => ?_) hr'
    rcases List.mem_append.mp ha with ha | ha
    · obtain ⟨c, hc, rfl⟩ := List.mem_map.mp ha
      exact hwritten c hc
    · exact hbefore' a ha
  have hblank : trim indented ≠ [] := by
    rw [Ne, ← allBlank_iff_trim, allBlank_indent hindent hflush]
    exact Bool.false_ne_true
  have hmove : ∀ n, (Conversion.moveNode space text.toList n).kind = n.kind ∧
      (Conversion.moveNode space text.toList n).pattern = n.pattern ∧
      (Conversion.moveNode space text.toList n).error = n.error := fun _ => ⟨rfl, rfl, rfl⟩
  have htext : (String.ofList indented).toList = indented := String.toList_ofList
  rw [← htext] at hverdict hblank
  rw [parse_of_verdict hblank hverdict, finish_mapNodes htop (fun n => (hmove n).1)
    (fun n => (hmove n).2.1) (fun n => (hmove n).2.2) hast (hr'.trans hr.symm), hfinish]
  rfl

/-- What a grammar makes of names that stand too far to the right. -/
def misplacedNames : Rose GrammarNode :=
  .node ⟨"module", true, false, false, 0, 15, none⟩
    [.node ⟨"ERROR", true, true, false, 1, 15, none⟩ []]

def parseAtMargin (source : List Char) : Except ParseFailure (Rose GrammarNode) :=
  if source = "\t__mv_X\n\t__mv_Y".toList then .ok misplacedNames
  else Conversion.parseTwoNames source

theorem parseAtMargin_eq_ok {source : List Char} {tree : Rose GrammarNode}
    (h : parseAtMargin source = .ok tree) : tree = misplacedNames ∨ tree = Conversion.twoNames := by
  rw [parseAtMargin, Conversion.parseTwoNames] at h
  split at h
  · exact .inl (Except.ok.inj h).symm
  · split at h
    · exact .inr (Except.ok.inj h).symm
    · cases h

/-- Two names with a tab before each of them. -/
theorem parse_indented_twoNames :
    let g := Grammar.ofFamily .python parseAtMargin
    let text := "$X\n$Y"
    let space := ['\t']
    let indented := indent space text.toList
    String.ofList indented = "\t$X\n\t$Y" ∧ g.topLevel = belowRootExcept g.trivia ∧
      g.LooksAtKinds ∧
      (∀ source tree, g.parse source = .ok tree →
        ∀ n ∈ tree.preorder, n.start < UInt64.size / 2 ∧ n.stop < UInt64.size / 2) ∧
      width indented < UInt64.size / 2 ∧ Flush text.toList ∧ space ≠ [] ∧
      (∀ c ∈ space, isIndent c = true) ∧
      (∀ c ∈ candidatesOf g indented ⟨indented, []⟩, Undecided (attempt g .python indented c)) ∧
      ∃ p p', parse g .python true text = .ok p ∧ p.errors = [] ∧
        p.ast.nodes.map (fun n => (n.span.startByte, n.span.endByte)) =
          [(0, 5), (0, 2), (0, 2), (3, 5), (3, 5)] ∧
        parse g .python true (String.ofList indented) = .ok p' ∧
        p' = { p with ast := p.ast.mapNodes (Conversion.moveNode space text.toList) } ∧
        p'.ast.nodes.map (fun n => (n.span.startByte, n.span.endByte)) =
          [(1, 7), (1, 3), (1, 3), (5, 7), (5, 7)] := by
  intro g text space indented
  have hspans : (parse g .python true text).map (fun p => (p.errors,
      p.ast.nodes.map (fun n => (n.span.startByte, n.span.endByte)),
      (p.ast.mapNodes (Conversion.moveNode space text.toList)).nodes.map
        (fun n => (n.span.startByte, n.span.endByte)))) =
      .ok ([], [(0, 5), (0, 2), (0, 2), (3, 5), (3, 5)],
        [(1, 7), (1, 3), (1, 3), (5, 7), (5, 7)]) := by decide +kernel
  have hdialect : g.LooksAtKinds := Grammar.looksAtKinds_ofFamily _ _
  have haddress : ∀ source tree, g.parse source = .ok tree →
      ∀ n ∈ tree.preorder, n.start < UInt64.size / 2 ∧ n.stop < UInt64.size / 2 := by
    intro source tree h
    rcases parseAtMargin_eq_ok h with rfl | rfl <;> decide
  have hsize : width indented < UInt64.size / 2 := by decide
  have hflush : Flush text.toList := by decide
  have hspace : space ≠ [] := by decide
  have hindent : ∀ c ∈ space, isIndent c = true := List.forall_mem_singleton.mpr rfl
  have hwritten : ∀ c ∈ candidatesOf g indented ⟨indented, []⟩,
      Undecided (attempt g .python indented c) := by decide +kernel
  cases hp : parse g .python true text with
  | error e => rw [hp] at hspans; cases hspans
  | ok p =>
    rw [hp] at hspans
    simp only [Except.map, Except.ok.injEq, Prod.mk.injEq] at hspans
    obtain ⟨hclean, hold, hnew⟩ := hspans
    have hindented := parse_indented rfl hdialect haddress hsize hflush hspace hindent hp hclean
      hwritten
    exact ⟨by decide, rfl, hdialect, haddress, hsize, hflush, hspace, hindent, hwritten, p, _, rfl,
      hclean, hold, hindented, rfl, hnew⟩

end Pattern

end CodePattern
