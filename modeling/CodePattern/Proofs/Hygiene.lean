import CodePattern.Proofs.Identifier
import CodePattern.Proofs.Located

/-! Whether a metavariable of the tree was written by the user. Placeholders are told by
their spelling alone, so an identifier that is spelled like one is taken for a metavariable.
If the text holds no such spelling and every placeholder stands alone, all metavariables of
the tree are written in the text. -/

namespace CodePattern

namespace Placeholder

open Lexical

/-- The spellings by which placeholders are told. -/
def marks : Family → List (List Char)
  | .python => [metavariableMark, ellipsisMetavariableMark]
  | .php => ['$' :: ellipsisMetavariableMark, phpEllipsis]

def Unmarked (family : Family) (text : List Char) : Prop :=
  ∀ mark ∈ marks family, ¬ mark <:+: text

theorem occurs_iff {part text : List Char} : Language.occurs part text = true ↔ part <:+: text := by
  induction text with
  | nil => simp [Language.occurs]
  | cons c text ih =>
    rw [Language.occurs, Bool.or_eq_true, List.isPrefixOf_iff_prefix, ih, List.infix_cons_iff]

instance (family : Family) (text : List Char) : Decidable (Unmarked family text) :=
  decidable_of_iff (∀ mark ∈ marks family, ¬ Language.occurs mark text = true) (by
    simp only [Unmarked, occurs_iff])

/-- The placeholders that are put into the text stand alone. -/
def StandAlone (alphabet : Alphabet) (family : Family) (text : List Char) : Prop :=
  ∀ e ∈ (insert family text).edits, ∃ before new after,
    (insert family text).text = before ++ (new ++ after) ∧
    e.newStart = width before ∧ e.newStop = width (before ++ new) ∧
    alphabet.Alone family before new after

/-- The node covers the lead and an identifier that cannot be made longer. -/
def IsName (alphabet : Alphabet) (lead source : List Char) (n : GrammarNode) : Prop :=
  ∃ before run after, source = before ++ (lead ++ (run ++ after)) ∧
    alphabet.Whole (before ++ lead) run after ∧
    n.start = width before ∧ n.stop = width before + width (lead ++ run)

/-- Identifiers, names and variables are whole, and an ellipsis is three dots. -/
structure WholeName (alphabet : Alphabet) (source : List Char) (n : GrammarNode) : Prop where
  identifier : n.kind = "identifier" → IsName alphabet [] source n
  name : n.kind = "name" → IsName alphabet [] source n
  variableName : n.kind = "variable_name" → IsName alphabet ['$'] source n
  ellipsis : n.kind = "ellipsis" → slice? source n.start n.stop = some dots

theorem WholeName.of_other {alphabet : Alphabet} {source : List Char} {n : GrammarNode}
    (h : n.kind ∉ ["identifier", "name", "variable_name", "ellipsis"]) :
    WholeName alphabet source n := by
  simp only [List.mem_cons, List.not_mem_nil, or_false, not_or] at h
  exact ⟨fun hk => absurd hk h.1, fun hk => absurd hk h.2.1, fun hk => absurd hk h.2.2.1,
    fun hk => absurd hk h.2.2.2⟩

theorem WholeName.of_identifier {alphabet : Alphabet} {source : List Char} {n : GrammarNode}
    (hkind : n.kind = "identifier") (h : IsName alphabet [] source n) :
    WholeName alphabet source n := by
  refine ⟨fun _ => h, fun hk => ?_, fun hk => ?_, fun hk => ?_⟩ <;>
    exact absurd (hkind.symm.trans hk) (by decide)

theorem Marks.writes_python {written new : List Char} {m : Meta} (h : Marks .python written new)
    (hm : pythonIdentifier? new = some m) : Writes written m := by
  cases h with
  | @metavariable name _ h =>
    rw [pythonIdentifier?_metavariable] at hm
    obtain rfl := Option.some.inj hm
    exact .metavariable h
  | @ellipsisMetavariable name h =>
    rw [Placeholder.ellipsisMetavariable, pythonIdentifier?_ellipsisMetavariable] at hm
    obtain rfl := Option.some.inj hm
    exact .ellipsisMetavariable h
  | ellipsis hf => cases hf

theorem Marks.writes_php {written new : List Char} {m : Meta} (h : Marks .php written new)
    (hm : phpVariable? new = some m) : Writes written m := by
  cases h with
  | metavariable hf => cases hf
  | @ellipsisMetavariable name h =>
    rw [Placeholder.ellipsisMetavariable, phpVariable?_ellipsisMetavariable] at hm
    obtain rfl := Option.some.inj hm
    exact .ellipsisMetavariable h
  | ellipsis =>
    have hnone : phpVariable? phpEllipsis = none := rfl
    simp [hnone] at hm

theorem mark_infix_of_pythonIdentifier? {text : List Char} {m : Meta}
    (h : pythonIdentifier? text = some m) : ∃ mark ∈ marks .python, mark <:+: text := by
  rw [pythonIdentifier?] at h
  split at h
  · next name hname =>
    exact ⟨ellipsisMetavariableMark, by simp [marks], [], name,
      (append_of_afterLead? hname).symm⟩
  · obtain ⟨name, hname, -⟩ := Option.map_eq_some_iff.mp h
    exact ⟨metavariableMark, by simp [marks], [], name, (append_of_afterLead? hname).symm⟩

theorem isPhpMetavariable_iff {text : List Char} : isPhpMetavariable text = true ↔
    ∃ name, text = '$' :: name ∧ isMetavariableName name = true ∧
      String.ofList name ∉ superglobals := by
  cases text with
  | nil => simp [isPhpMetavariable]
  | cons c name =>
    by_cases hc : c = '$'
    · simp [isPhpMetavariable, hc]
    · simp [isPhpMetavariable, hc]

/-- A variable without a mark is a metavariable by its own name only. -/
theorem mark_or_writes_of_phpVariable? {text : List Char} {m : Meta}
    (h : phpVariable? text = some m) : (∃ mark ∈ marks .php, mark <:+: text) ∨ Writes text m := by
  rw [phpVariable?] at h
  split at h
  · next name hname =>
    exact .inl ⟨_, List.mem_cons_self, [], name, (append_of_afterLead? hname).symm⟩
  · split at h
    · next hmeta =>
      obtain rfl := Option.some.inj h
      obtain ⟨name, rfl, hname, -⟩ := isPhpMetavariable_iff.mp hmeta
      exact .inr (.metavariable hname)
    · cases h

theorem pattern?_python {c : Conversion} {inString : Bool} {n : GrammarNode} {m : Meta}
    (hf : c.family = .python) (h : c.pattern? inString n = some m) :
    n.kind = "identifier" ∧ pythonIdentifier? (c.parsedText n) = some m ∨
      n.kind = "ellipsis" ∧ m = .ellipsis := by
  rw [Conversion.pattern?] at h
  split at h
  · cases h
  · simp only [hf] at h
    split at h
    · next hkind => exact .inl ⟨hkind, h⟩
    · split at h
      · next hkind => exact .inr ⟨hkind, (Option.some.inj h).symm⟩
      · cases h

theorem pattern?_php {c : Conversion} {inString : Bool} {n : GrammarNode} {m : Meta}
    (hf : c.family = .php) (h : c.pattern? inString n = some m) :
    n.kind = "variable_name" ∧ phpVariable? (c.parsedText n) = some m ∨
      n.kind = "name" ∧ c.parsedText n = phpEllipsis ∧ m = .ellipsis := by
  rw [Conversion.pattern?] at h
  split at h
  · cases h
  · simp only [hf] at h
    split at h
    · next hkind =>
      split at h
      · cases h
      · exact .inl ⟨hkind, h⟩
    · split at h
      · next hname => exact .inr ⟨hname.1, hname.2, (Option.some.inj h).symm⟩
      · cases h

section Candidate

variable {family : Family} {parser : List Char → Except ParseFailure (Rose GrammarNode)}
  {text : List Char} {base : Revision} {w : Wrapping} {alphabet : Alphabet}

/-- A part of the body stands in the text, unless it overlaps a placeholder. -/
theorem slice_or_overlaps (hsize : width text < wordSize) (hbase : base ∈ Pattern.bases text)
    {before part after : List Char}
    (h : (insert family base.text).text = before ++ (part ++ after)) (hpart : part ≠ [])
    (hnl : '\n' ∉ part) :
    let c := Candidate.wrap text base (insert family base.text) w
    slice? text (c.map.locate (width w.opening.toList + width before))
        (c.map.locate (width w.opening.toList + width (before ++ part))) = some part ∨
      ∃ e ∈ (insert family base.text).edits,
        e.newStart < width (before ++ part) ∧ width before < e.newStop := by
  intro c
  obtain ⟨-, -, -, hle⟩ := exists_segments_of_mem_bases hbase
  have hbefore : textBefore (segments family base.text) = base.text := textBefore_segments _ _
  have hnew : ∀ s ∈ segments family base.text, s.new ≠ [] := fun s hs => new_ne_nil_of_mem_scan hs
  rcases Segment.restores_or_overlaps hnew h hpart with hrestores | hoverlaps
  · have hstop : width (before ++ part) ≤ width (insert family base.text).text := by
      rw [h]
      simp only [width_append]
      omega
    obtain ⟨first, last, htext, hstart, hend⟩ := layer_restores hrestores (by simp) hstop
      (by rw [hbefore]; omega)
    rw [hbefore] at htext
    exact .inl (slice?_locate_wrap hsize hbase htext hpart hnl hstart hend)
  · exact .inr hoverlaps.exists_edit

theorem StandAlone.exists_marks {e : Edit} (h : StandAlone alphabet family base.text)
    (hsize : width text < wordSize) (hbase : base ∈ Pattern.bases text)
    (he : e ∈ (insert family base.text).edits) :
    let c := Candidate.wrap text base (insert family base.text) w
    ∃ before new after written, (insert family base.text).text = before ++ (new ++ after) ∧
      e.newStart = width before ∧ e.newStop = width (before ++ new) ∧
      alphabet.Alone family before new after ∧ Marks family written new ∧
      slice? text (c.map.locate (width w.opening.toList + e.newStart))
        (c.map.locate (width w.opening.toList + e.newStop)) = some written := by
  intro c
  obtain ⟨before, new, after, hbody, hnewStart, hnewStop, hplace⟩ := h e he
  obtain ⟨written, new', hmarks, -, hslice, hparsed⟩ := exists_marks_of_edit (w := w) hsize hbase he
  have hwhere := slice?_part (w.opening.toList ++ before) new (after ++ w.closing.toList)
  have hsame : c.parsed = w.opening.toList ++ before ++ new ++ (after ++ w.closing.toList) := by
    show w.apply (insert family base.text).text = _
    rw [hbody, Wrapping.apply]
    simp
  rw [← hsame, List.append_assoc, width_append _ before, width_append _ (before ++ new),
    ← hnewStart, ← hnewStop, hparsed] at hwhere
  obtain rfl := Option.some.inj hwhere
  exact ⟨before, new', after, written, hbody, hnewStart, hnewStop, hplace, hmarks, hslice⟩

theorem IsName.parsedText {c : Conversion} {lead : List Char} {n : GrammarNode}
    (h : IsName alphabet lead c.parsed n) :
    ∃ before run after, c.parsed = before ++ (lead ++ run ++ after) ∧
      alphabet.Whole (before ++ lead) run after ∧ n.start = width before ∧
      n.stop = width (before ++ (lead ++ run)) ∧ c.parsedText n = lead ++ run := by
  obtain ⟨before, run, after, hsource, hwhole, hstart, hstop⟩ := h
  rw [← width_append] at hstop
  refine ⟨before, run, after, by simp [hsource], hwhole, hstart, hstop, ?_⟩
  have hparsed : c.parsed = before ++ (lead ++ run) ++ after := by simp [hsource]
  rw [Conversion.parsedText, hparsed, hstart, hstop, slice?_part, Option.getD_some]

theorem not_mem_closing {alphabet : Alphabet} {body lead run : List Char}
    (hw : w ∈ (Grammar.ofFamily family parser).wrappings body)
    (hlead : lead = [] ∨ lead = ['$']) (hall : ∀ c ∈ run, alphabet.has c = true) :
    ∀ c ∈ lead ++ run, c ∉ w.closing.toList := by
  have hsemicolon : alphabet.has ';' = false := alphabet.ascii ';' (by decide)
  intro c hc hmem
  have hclosing : c = ';' := by
    rcases wrapping_cases hw with rfl | ⟨-, rfl | rfl⟩
    · simp [Wrapping.none] at hmem
    · simp [Php.openTag] at hmem
    · simpa [Php.openTagTerminated] using hmem
  subst hclosing
  rcases Alphabet.mem_lead_or_has hlead hall hc with h | h
  · exact absurd h (by decide)
  · simp [hsemicolon] at h

theorem not_lineFeed_mem {alphabet : Alphabet} {lead run : List Char}
    (hlead : lead = [] ∨ lead = ['$']) (hall : ∀ c ∈ run, alphabet.has c = true) :
    '\n' ∉ lead ++ run := by
  have hfeed : alphabet.has '\n' = false := alphabet.ascii '\n' (by decide)
  intro hmem
  rcases Alphabet.mem_lead_or_has hlead hall hmem with h | h
  · exact absurd h (by decide)
  · simp [hfeed] at h

/-- A name in the program stands in the text, or is a placeholder, or lacks the dollar sign
of a placeholder. -/
theorem IsName.cases {lead : List Char} {n : GrammarNode} (hsize : width text < wordSize)
    (hbase : base ∈ Pattern.bases text)
    (halone : StandAlone alphabet family base.text)
    (hw : w ∈ (Grammar.ofFamily family parser).wrappings (insert family base.text).text)
    (hlead : lead = [] ∨ lead = ['$']) (hfamily : lead = ['$'] → family = .php) :
    let c := Candidate.wrap text base (insert family base.text) w
    let conversion := Conversion.of family .pattern c.parsed text c.map
    IsName alphabet lead c.parsed n →
    (∀ d ∈ (conversion.parsedText n).head?, d ∉ w.opening.toList) →
    slice? text (c.map.locate n.start) (c.map.locate n.stop) = some (conversion.parsedText n) ∨
      (∃ written, Marks family written (conversion.parsedText n) ∧
        slice? text (c.map.locate n.start) (c.map.locate n.stop) = some written) ∨
      lead = [] ∧ ∃ written, Marks family written ('$' :: conversion.parsedText n) := by
  intro c conversion hname hfirst
  obtain ⟨before, run, after, hsource, hwhole, hstart, hstop, htext⟩ :=
    IsName.parsedText (c := conversion) hname
  rw [htext] at hfirst ⊢
  have hne : lead ++ run ≠ [] := List.append_ne_nil_of_right_ne_nil lead hwhole.ne_nil
  have hprogram : w.opening.toList ++ (insert family base.text).text ++ w.closing.toList =
      before ++ (lead ++ run ++ after) := hsource
  obtain ⟨b, a, hbody, rfl, rfl⟩ :=
    part_inside hprogram hne hfirst (not_mem_closing hw hlead hwhole.all)
  rw [List.append_assoc] at hstop hwhole
  rw [width_append] at hstart hstop
  rcases slice_or_overlaps (w := w) hsize hbase hbody hne (not_lineFeed_mem hlead hwhole.all) with
    hslice | ⟨e, he, hlt, hgt⟩
  · rw [hstart, hstop]
    exact .inl hslice
  · obtain ⟨b', new, a', written, hbody', hnewStart, hnewStop, hplace, hmarks, hslice⟩ :=
      halone.exists_marks (w := w) hsize hbase he
    obtain ⟨lead', run', rfl, hlead', hne', hall⟩ := hmarks.exists_run
    have hoverlap := hwhole.of_wrapping.eq_of_overlap hlead hlead' hplace hfamily hne'
      (fun d hd => alphabet.has_of_word (hall d hd))
      (by simpa using hbody.symm.trans hbody') (by rwa [← hnewStart, ← width_append])
      (by rwa [← width_append, ← hnewStop])
    rcases hoverlap with ⟨rfl, rfl, rfl⟩ | ⟨rfl, rfl, rfl⟩
    · refine .inr (.inl ⟨written, hmarks, ?_⟩)
      rw [hstart, hstop, ← hslice, hnewStart, hnewStop]
    · exact .inr (.inr ⟨rfl, written, hmarks⟩)

theorem Marks.not_dollar_phpEllipsis {written : List Char} :
    ¬ Marks .php written ('$' :: phpEllipsis) := by
  intro h
  generalize he : '$' :: phpEllipsis = new at h
  have hname : none = afterLead? ('$' :: ellipsisMetavariableMark) new :=
    congrArg (afterLead? ('$' :: ellipsisMetavariableMark)) he
  cases h with
  | metavariable hf => cases hf
  | ellipsisMetavariable => cases hname
  | ellipsis => exact absurd he (by decide)

theorem Marks.eq_dots {written : List Char} (h : Marks .php written phpEllipsis) :
    written = dots := by
  generalize he : phpEllipsis = new at h
  cases h with
  | metavariable hf => cases hf
  | ellipsisMetavariable =>
    have hfirst : none = afterLead? ['$'] _ := congrArg (afterLead? ['$']) he
    cases hfirst
  | ellipsis => rfl

theorem infix_of_slice? {text part : List Char} {start stop : Nat}
    (h : slice? text start stop = some part) : part <:+: text := by
  obtain ⟨before, after, rfl, -⟩ := append_of_slice? h
  exact ⟨before, after, rfl⟩

/-- Three dots in the program stand in the text, as no placeholder of Python has any. -/
theorem slice_dots_python (hsize : width text < wordSize) (hbase : base ∈ Pattern.bases text)
    (halone : StandAlone alphabet .python base.text) {before after : List Char}
    (h : (insert .python base.text).text = before ++ (dots ++ after)) :
    let c := Candidate.wrap text base (insert .python base.text) .none
    slice? text (c.map.locate (width before)) (c.map.locate (width (before ++ dots))) =
      some dots := by
  intro c
  have hopening : width Wrapping.none.opening.toList = 0 := rfl
  rcases slice_or_overlaps (w := .none) hsize hbase h (by decide) (by decide) with
    hslice | ⟨e, he, hlt, hgt⟩
  · rwa [hopening, Nat.zero_add, Nat.zero_add] at hslice
  · obtain ⟨before', new, after', written, h', hnewStart, hnewStop, -, hmarks, -⟩ :=
      halone.exists_marks (w := .none) hsize hbase he
    obtain ⟨lead, run, rfl, hlead, hne, hall⟩ := hmarks.exists_run
    obtain ⟨d, hd, hmem⟩ := exists_common_of_overlap (by decide)
      (List.append_ne_nil_of_right_ne_nil lead hne) (h.symm.trans h')
      (by rwa [← hnewStart]) (by rwa [← hnewStop])
    obtain rfl : d = '.' := by simpa [dots] using hd
    rcases List.mem_append.mp hmem with hmem | hmem
    · rcases hlead with rfl | rfl
      · cases hmem
      · exact absurd hmem (by decide)
    · exact absurd (hall '.' hmem) (by decide)

theorem exists_written_python {n : GrammarNode} {inString : Bool} {m : Meta}
    (hsize : width text < wordSize) (hbase : base ∈ Pattern.bases text)
    (hunmarked : Unmarked .python text) (halone : StandAlone alphabet .python base.text)
    (hw : w ∈ (Grammar.ofFamily .python parser).wrappings (insert .python base.text).text) :
    let c := Candidate.wrap text base (insert .python base.text) w
    WholeName alphabet c.parsed n →
    (Conversion.of .python .pattern c.parsed text c.map).pattern? inString n = some m →
    ∃ written, Writes written m ∧
      slice? text (c.map.locate n.start) (c.map.locate n.stop) = some written := by
  intro c hn hm
  have hwrapping : w = .none := by
    rcases wrapping_cases hw with rfl | ⟨hf, -⟩
    · rfl
    · cases hf
  subst hwrapping
  rcases pattern?_python rfl hm with ⟨hkind, hm⟩ | ⟨hkind, rfl⟩
  · rcases IsName.cases hsize hbase halone hw (.inl rfl) (by simp)
      (hn.identifier hkind) (by simp [Wrapping.none]) with
      hslice | ⟨written, hmarks, hslice⟩ | ⟨-, written, hmarks⟩
    · obtain ⟨mark, hmark, hpart⟩ := mark_infix_of_pythonIdentifier? hm
      exact absurd (hpart.trans (infix_of_slice? hslice)) (hunmarked mark hmark)
    · exact ⟨written, hmarks.writes_python hm, hslice⟩
    · exact absurd hmarks Marks.not_dollar_python
  · refine ⟨dots, .ellipsis, ?_⟩
    obtain ⟨before, after, hsource, hstart, hstop⟩ := append_of_slice? (hn.ellipsis hkind)
    have hbody : (insert .python base.text).text = before ++ (dots ++ after) := by
      have hprogram : [] ++ (insert .python base.text).text ++ [] = before ++ dots ++ after :=
        hsource
      simpa using hprogram
    rw [← hstart, ← hstop]
    exact slice_dots_python hsize hbase halone hbody

theorem exists_written_php {n : GrammarNode} {inString : Bool} {m : Meta}
    (hsize : width text < wordSize) (hbase : base ∈ Pattern.bases text)
    (hunmarked : Unmarked .php text) (halone : StandAlone alphabet .php base.text)
    (hw : w ∈ (Grammar.ofFamily .php parser).wrappings (insert .php base.text).text) :
    let c := Candidate.wrap text base (insert .php base.text) w
    WholeName alphabet c.parsed n →
    (Conversion.of .php .pattern c.parsed text c.map).pattern? inString n = some m →
    ∃ written, Writes written m ∧
      slice? text (c.map.locate n.start) (c.map.locate n.stop) = some written := by
  intro c hn hm
  have hopening : '$' ∉ w.opening.toList ∧ '_' ∉ w.opening.toList := by
    rcases wrapping_cases hw with rfl | ⟨-, rfl | rfl⟩ <;> decide
  rcases pattern?_php rfl hm with ⟨hkind, hm⟩ | ⟨hkind, htext, rfl⟩
  · have hname := hn.variableName hkind
    have hfirst : ∀ d ∈ ((Conversion.of .php .pattern c.parsed text c.map).parsedText n).head?,
        d ∉ w.opening.toList := by
      obtain ⟨-, run, -, -, -, -, -, htext⟩ :=
        IsName.parsedText (c := Conversion.of .php .pattern c.parsed text c.map) hname
      rw [htext]
      rintro d ⟨⟩
      exact hopening.1
    rcases IsName.cases hsize hbase halone hw (.inr rfl) (fun _ => rfl) hname hfirst with
      hslice | ⟨written, hmarks, hslice⟩ | ⟨hlead, -⟩
    · rcases mark_or_writes_of_phpVariable? hm with ⟨mark, hmark, hpart⟩ | hwrites
      · exact absurd (hpart.trans (infix_of_slice? hslice)) (hunmarked mark hmark)
      · exact ⟨_, hwrites, hslice⟩
    · exact ⟨written, hmarks.writes_php hm, hslice⟩
    · cases hlead
  · have hfirst : ∀ d ∈ ((Conversion.of .php .pattern c.parsed text c.map).parsedText n).head?,
        d ∉ w.opening.toList := by
      rw [htext]
      rintro d ⟨⟩
      exact hopening.2
    rcases IsName.cases hsize hbase halone hw (.inl rfl) (fun _ => rfl) (hn.name hkind) hfirst with
      hslice | ⟨written, hmarks, hslice⟩ | ⟨-, written, hmarks⟩
    · rw [htext] at hslice
      exact absurd (infix_of_slice? hslice) (hunmarked phpEllipsis (by simp [marks]))
    · rw [htext] at hmarks
      obtain rfl := hmarks.eq_dots
      exact ⟨dots, .ellipsis, hslice⟩
    · rw [htext] at hmarks
      exact absurd hmarks Marks.not_dollar_phpEllipsis

end Candidate

end Placeholder

theorem Grammar.family_ofFamily (family : Family)
    (parser : List Char → Except ParseFailure (Rose GrammarNode)) :
    (Grammar.ofFamily family parser).family = family := by
  cases family <;> rfl

namespace Pattern

open Lexical Placeholder

theorem mem_foldl_distinct {name : String} (names found : List String) :
    name ∈ names.foldl (fun found name => if found.contains name then found else found ++ [name])
      found ↔ name ∈ found ∨ name ∈ names := by
  induction names generalizing found with
  | nil => simp
  | cons x names ih =>
    rw [List.foldl_cons, ih]
    by_cases hx : found.contains x
    · have hmem : x ∈ found := by simpa using hx
      rw [if_pos hx, List.mem_cons]
      constructor
      · rintro (h | h)
        · exact .inl h
        · exact .inr (.inr h)
      · rintro (h | rfl | h)
        · exact .inl h
        · exact .inl hmem
        · exact .inr h
    · rw [if_neg hx, List.mem_append, List.mem_singleton, List.mem_cons, or_assoc]

theorem mem_metavariablesOf {name : String} {nodes : List AstNode} :
    name ∈ metavariablesOf nodes ↔ ∃ n ∈ nodes, n.pattern.bind Meta.name? = some name := by
  rw [metavariablesOf, mem_foldl_distinct, List.mem_filterMap]
  simp

variable {family : Family} {parser : List Char → Except ParseFailure (Rose GrammarNode)}
  {alphabet : Alphabet}

theorem written_of_candidate {text : List Char} {c : Candidate} {tree : Rose GrammarNode}
    {a : AstNode} {m : Meta} (hsize : width text < wordSize) (hunmarked : Unmarked family text)
    (halone : ∀ base ∈ bases text, StandAlone alphabet family base.text)
    (hc : c ∈ candidates (.ofFamily family parser) text)
    (htree : ∀ n ∈ tree.preorder, WholeName alphabet c.parsed n)
    (ha : a ∈ ((Conversion.of family .pattern c.parsed text c.map).run tree).ast.nodes)
    (hm : a.pattern = some m) :
    ∃ written, Writes written m ∧ written <:+: text ∧ a.text = some (String.ofList written) := by
  obtain ⟨base, hbase, hc⟩ := List.mem_flatMap.mp hc
  rw [candidatesOf, Grammar.family_ofFamily] at hc
  obtain ⟨w, hw, rfl⟩ := List.mem_map.mp hc
  obtain ⟨n, hn, inString, hpattern, htext⟩ := Conversion.exists_pattern_of_mem_nodes ha hm
  have hwritten : ∃ written, Writes written m ∧
      slice? text ((Candidate.wrap text base (insert family base.text) w).map.locate n.start)
        ((Candidate.wrap text base (insert family base.text) w).map.locate n.stop) =
          some written := by
    cases family with
    | python =>
      exact exists_written_python hsize hbase hunmarked (halone base hbase) hw (htree n hn) hpattern
    | php =>
      exact exists_written_php hsize hbase hunmarked (halone base hbase) hw (htree n hn) hpattern
  obtain ⟨written, hwrites, hslice⟩ := hwritten
  refine ⟨written, hwrites, infix_of_slice? hslice, ?_⟩
  rw [htext, Conversion.textOf_span hslice]

/-- If no placeholder is spelled out in the text and each one stands alone, all metavariables
are written in the text, with their names, and the ellipses are too. -/
theorem metavariables_written {text : String} (hsize : width text.toList < wordSize)
    (hunmarked : Unmarked family text.toList)
    (halone : ∀ base ∈ bases text.toList, StandAlone alphabet family base.text) :
    (∀ c ∈ candidates (.ofFamily family parser) text.toList, ∀ tree,
      (∀ n ∈ tree.preorder, WholeName alphabet c.parsed n) →
      ∀ a ∈ ((Conversion.of family .pattern c.parsed text.toList c.map).run tree).ast.nodes,
        ∀ m, a.pattern = some m → ∃ written, Writes written m ∧ written <:+: text.toList ∧
          a.text = some (String.ofList written)) ∧
    ((∀ source tree, parser source = .ok tree →
        ∀ n ∈ tree.preorder, WholeName alphabet source n) →
      ∀ lang strict p, parse (.ofFamily family parser) lang strict text = .ok p →
        ∀ name ∈ p.metavariables, ∃ written m, Writes written m ∧ m.name? = some name ∧
          written <:+: text.toList) := by
  refine ⟨fun c hc tree htree a ha m hm =>
    written_of_candidate hsize hunmarked halone hc htree ha hm, ?_⟩
  intro hparser lang strict p hp name hname
  obtain ⟨-, r, hr, hfinish⟩ := exists_outcome_of_parse hp
  rw [(finish_eq_ok hfinish).2.1] at hname
  obtain ⟨a, ha, hbind⟩ := mem_metavariablesOf.mp hname
  obtain ⟨m, hm, hmname⟩ := Option.bind_eq_some_iff.mp hbind
  have hmem := (finish_subset hr hfinish).1 ha
  obtain ⟨c, hc, hattempt⟩ := List.mem_map.mp hr
  obtain ⟨tree, htree, rfl⟩ := attempt_eq_ok hattempt
  rw [Grammar.family_ofFamily] at hmem
  have hparse : parser c.parsed = .ok tree := by
    cases family <;> exact htree
  obtain ⟨written, hwrites, hinfix, -⟩ :=
    written_of_candidate hsize hunmarked halone hc (hparser _ _ hparse) hmem hm
  exact ⟨written, m, hwrites, hmname, hinfix⟩

theorem awaitTree_whole (indent : List Char) {source : List Char}
    (hsource : source = indent ++ "await ".toList ++ "__mv_X".toList) :
    ∀ n ∈ (awaitTree (width indent)).preorder, WholeName .asciiOnly source n := by
  have hname : IsName .asciiOnly [] source
      ⟨"identifier", true, false, false, width indent + 6, width indent + 12, none⟩ := by
    refine ⟨indent ++ "await ".toList, "__mv_X".toList, [], by simp [hsource], ?_, ?_, ?_⟩
    · exact ⟨by decide, List.all_eq_true.mp rfl, by simp; decide, by simp⟩
    · rw [width_append]
      rfl
    · rw [width_append]
      rfl
  intro n hn
  simp only [awaitTree, Rose.preorder, Rose.preorderAll, List.append_nil, List.nil_append,
    List.cons_append, List.mem_cons, List.not_mem_nil, or_false] at hn
  rcases hn with rfl | rfl | rfl | rfl | rfl
  · exact .of_other (by simp)
  · exact .of_other (by simp)
  · exact .of_other (by simp)
  · exact .of_other (by simp)
  · exact .of_identifier rfl hname

theorem metavariables_written_await :
    let text := "  await $X"
    width text.toList < wordSize ∧ Unmarked .python text.toList ∧
      (∀ base ∈ bases text.toList, StandAlone .asciiOnly .python base.text) ∧
      ∃ p, parse (.ofFamily .python parseAwait) .python2 false text = .ok p ∧
        p.metavariables = ["$X"] ∧
        ∃ written m, Writes written m ∧ m.name? = some "$X" ∧ written <:+: text.toList := by
  intro text
  have hsize : width text.toList < wordSize := by decide
  have hunmarked : Unmarked .python text.toList := by decide
  have halone : ∀ base ∈ bases text.toList, StandAlone .asciiOnly .python base.text := by
    have hbases : bases text.toList = [⟨text.toList, []⟩, ⟨"await $X".toList, [⟨0, 0, 0, 2⟩]⟩] := by
      decide
    have hinsert : Placeholder.insert .python text.toList =
        ⟨"  await __mv_X".toList, [⟨8, 14, 8, 10⟩]⟩ := by decide
    have hinsert' : Placeholder.insert .python "await $X".toList =
        ⟨"await __mv_X".toList, [⟨6, 12, 6, 8⟩]⟩ := by decide
    rw [hbases]
    intro base hbase
    simp only [List.mem_cons, List.not_mem_nil, or_false] at hbase
    rcases hbase with rfl | rfl
    · rw [StandAlone, hinsert]
      intro e he
      obtain rfl := List.mem_singleton.mp he
      exact ⟨"  await ".toList, "__mv_X".toList, [], rfl, rfl, rfl, by decide⟩
    · rw [StandAlone, hinsert']
      intro e he
      obtain rfl := List.mem_singleton.mp he
      exact ⟨"await ".toList, "__mv_X".toList, [], rfl, rfl, rfl, by decide⟩
  have hparser : ∀ source tree, parseAwait source = .ok tree →
      ∀ n ∈ tree.preorder, WholeName .asciiOnly source n := by
    intro source tree h
    rw [parseAwait] at h
    split at h
    · next hsource =>
      obtain rfl := Except.ok.inj h
      exact awaitTree_whole [' ', ' '] hsource
    · split at h
      · next hsource =>
        obtain rfl := Except.ok.inj h
        exact awaitTree_whole [] hsource
      · cases h
  have hp : ∃ p, parse (.ofFamily .python parseAwait) .python2 false "  await $X" = .ok p ∧
      p.metavariables = ["$X"] := ⟨_, rfl, rfl⟩
  obtain ⟨p, hp, hnames⟩ := hp
  exact ⟨hsize, hunmarked, halone, p, hp, hnames,
    (metavariables_written hsize hunmarked halone).2 hparser _ _ p hp "$X" (by simp [hnames])⟩

def identifierTree : Rose GrammarNode :=
  .node ⟨"module", true, false, false, 0, 6, none⟩
    [.node ⟨"expression_statement", true, false, false, 0, 6, none⟩
      [.node ⟨"identifier", true, false, false, 0, 6, none⟩ []]]

def parseIdentifier (source : List Char) : Except ParseFailure (Rose GrammarNode) :=
  if source = "__mv_x".toList then .ok identifierTree
  else .error (.refused "refused to parse")

/-- An identifier of the text that is spelled like a placeholder is taken for a metavariable,
whose name is not in the text and is no name of a metavariable. -/
theorem identifier_taken_for_metavariable :
    let text := "__mv_x"
    ∃ c ∈ candidates (.ofFamily .python parseIdentifier) text.toList,
      parseIdentifier c.parsed = .ok identifierTree ∧
      (∀ n ∈ identifierTree.preorder, WholeName .asciiOnly c.parsed n) ∧
      (∃ a ∈ ((Conversion.of .python .pattern c.parsed text.toList c.map).run
          identifierTree).ast.nodes,
        a.pattern = some (.metavariable "$x") ∧ a.text = some "__mv_x") ∧
      isMetavariableName "x".toList = false ∧ ¬ "$x".toList <:+: text.toList ∧
      ∃ p, parse (.ofFamily .python parseIdentifier) .python false text = .ok p ∧
        p.metavariables = ["$x"] := by
  refine ⟨_, List.mem_cons_self, rfl, ?_, ?_, by decide, ?_, _, rfl, rfl⟩
  · intro n hn
    simp only [identifierTree, Rose.preorder, Rose.preorderAll, List.append_nil, List.mem_cons,
      List.not_mem_nil, or_false] at hn
    rcases hn with rfl | rfl | rfl
    · exact .of_other (by simp)
    · exact .of_other (by simp)
    · exact .of_identifier rfl ⟨[], "__mv_x".toList, [], rfl,
        ⟨by decide, List.all_eq_true.mp rfl, by simp, by simp⟩, rfl, rfl⟩
  · exact ⟨_, List.mem_cons_of_mem _ (List.mem_cons_of_mem _ List.mem_cons_self), rfl, rfl⟩
  · rw [← occurs_iff]
    decide

end Pattern

end CodePattern
