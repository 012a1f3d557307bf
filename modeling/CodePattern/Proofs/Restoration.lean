import CodePattern.Proofs.Dedented
import CodePattern.Proofs.Kept
import CodePattern.Proofs.Occurrence

/-! Placeholders convert back to what was written. The ends of a placeholder lead to the
ends of the pattern syntax in the text that was given, and a node that is the placeholder
becomes the metavariable that is written there. -/

namespace CodePattern

inductive Lexical.Writes : List Char → Meta → Prop
  | metavariable {name : List Char} (h : isMetavariableName name = true) :
      Writes ('$' :: name) (.metavariable (String.ofList ('$' :: name)))
  | ellipsisMetavariable {name : List Char} (h : isMetavariableName name = true) :
      Writes ('$' :: (dots ++ name)) (.ellipsisMetavariable (String.ofList ('$' :: (dots ++ name))))
  | ellipsis : Writes dots .ellipsis

theorem pythonIdentifier?_metavariable (name : List Char) :
    pythonIdentifier? (Placeholder.metavariableMark ++ name) =
      some (.metavariable (String.ofList ('$' :: name))) := by
  -- The marks differ in their fifth character.
  have hother : afterLead? Placeholder.ellipsisMetavariableMark
      (Placeholder.metavariableMark ++ name) = none := rfl
  rw [pythonIdentifier?, hother, afterLead?_append]
  exact congrArg (fun s => some (Meta.metavariable s)) String.ofList_append.symm

theorem pythonIdentifier?_ellipsisMetavariable (name : List Char) :
    pythonIdentifier? (Placeholder.ellipsisMetavariableMark ++ name) =
      some (.ellipsisMetavariable (String.ofList ('$' :: (Lexical.dots ++ name)))) := by
  rw [pythonIdentifier?, afterLead?_append]
  exact congrArg (fun s => some (Meta.ellipsisMetavariable s)) String.ofList_append.symm

theorem phpVariable?_ellipsisMetavariable (name : List Char) :
    phpVariable? ('$' :: (Placeholder.ellipsisMetavariableMark ++ name)) =
      some (.ellipsisMetavariable (String.ofList ('$' :: (Lexical.dots ++ name)))) := by
  rw [phpVariable?, ← List.cons_append, afterLead?_append]
  exact congrArg (fun s => some (Meta.ellipsisMetavariable s)) String.ofList_append.symm

namespace Placeholder

open Lexical

variable {family : Family} {written new : List Char}

/-- The kind of node that a placeholder is meant for. -/
def Meant (family : Family) (written : List Char) (inString : Bool) (n : GrammarNode) : Prop :=
  match family with
  | .python => n.kind = "identifier"
  | .php => if written = dots then n.kind = "name" else n.kind = "variable_name" ∧ inString = false

instance (family : Family) (written : List Char) (inString : Bool) (n : GrammarNode) :
    Decidable (Meant family written inString n) :=
  match family with
  | .python => inferInstanceAs (Decidable (n.kind = "identifier"))
  | .php => inferInstanceAs (Decidable
      (if written = dots then n.kind = "name" else n.kind = "variable_name" ∧ inString = false))

theorem Marks.writes (h : Marks family written new) :
    ∃ m, Writes written m ∧ ∀ (c : Conversion) (n : GrammarNode) (inString : Bool),
      c.family = family → c.mode = .pattern → c.parsedText n = new →
        Meant family written inString n → c.pattern? inString n = some m := by
  cases h with
  | @metavariable name hf h =>
    subst hf
    refine ⟨_, .metavariable h, fun c n inString hf hmode htext hn => ?_⟩
    have hkind : n.kind = "identifier" := hn
    simp only [Conversion.pattern?, hmode, hf, htext, if_pos hkind]
    exact pythonIdentifier?_metavariable name
  | @ellipsisMetavariable name h =>
    refine ⟨_, .ellipsisMetavariable h, fun c n inString hf hmode htext hn => ?_⟩
    cases family with
    | python =>
      have hkind : n.kind = "identifier" := hn
      simp only [Conversion.pattern?, hmode, hf, htext, if_pos hkind]
      exact pythonIdentifier?_ellipsisMetavariable name
    | php =>
      have hne : '$' :: (dots ++ name) ≠ dots := by simp [dots]
      obtain ⟨hkind, rfl⟩ : n.kind = "variable_name" ∧ inString = false := by
        simpa [Meant, hne] using hn
      simp only [Conversion.pattern?, hmode, hf, htext, if_pos hkind]
      exact phpVariable?_ellipsisMetavariable name
  | ellipsis hf =>
    subst hf
    refine ⟨_, .ellipsis, fun c n inString hf hmode htext hn => ?_⟩
    have hkind : n.kind = "name" := by simpa only [Meant, if_true] using hn
    have hne : n.kind ≠ "variable_name" := by
      rw [hkind]
      decide
    simp only [Conversion.pattern?, hmode, hf, htext, if_neg hne]
    exact if_pos ⟨hkind, trivial⟩

theorem mem_scan {s : Segment} {covered : Nat} {region : Region} {cs : List Char}
    (h : s ∈ scan family covered region cs) :
    ∃ region c cs, s = (step family region c cs).segment := by
  induction cs generalizing covered region with
  | nil => simp [scan] at h
  | cons c cs ih =>
    cases covered with
    | zero =>
      rcases List.mem_cons.mp h with rfl | h
      · exact ⟨region, c, cs, rfl⟩
      · exact ih h
    | succ n => exact ih h

theorem Advances.copy_or_marks {c : Char} {cs : List Char} {s : Step}
    (h : Advances family c cs s) :
    (∃ n region, s = .copy c cs n region) ∨
      ∃ n new, s = .replace c cs n new ∧ Marks family (c :: cs.take n) new := by
  cases h with
  | replace _ hm => exact .inr ⟨_, _, rfl, hm⟩
  | copy => exact .inl ⟨_, _, rfl⟩

theorem step_cases (family : Family) (region : Region) (c : Char) (cs : List Char) :
    (∃ n region', step family region c cs = .copy c cs n region') ∨
      ∃ n new, step family region c cs = .replace c cs n new ∧
        Marks family (c :: cs.take n) new := by
  cases region with
  | code =>
    rw [step, codeStep]
    split
    · rw [quoteStep]
      split <;> exact .inl ⟨_, _, rfl⟩
    · split
      · exact .inl ⟨_, _, rfl⟩
      · split
        · exact .inl ⟨_, _, rfl⟩
        · split
          · exact .inl ⟨_, _, rfl⟩
          · exact (plainStep_advances family c cs).copy_or_marks
  | quoted quote length =>
    rw [step, quotedStep]
    split
    · exact .inl ⟨_, _, rfl⟩
    · split <;> exact .inl ⟨_, _, rfl⟩
  | lineComment => exact .inl ⟨_, _, rfl⟩
  | blockComment =>
    rw [step, blockCommentStep]
    split <;> exact .inl ⟨_, _, rfl⟩

theorem marks_of_mem_scan {covered : Nat} {region : Region} {cs : List Char}
    (h : .replaced written new ∈ scan family covered region cs) : Marks family written new := by
  obtain ⟨region, c, cs, hs⟩ := mem_scan h
  rcases step_cases family region c cs with ⟨n, region', hstep⟩ | ⟨n, new', hstep, hm⟩
  · rw [hstep] at hs
    cases hs
  · rw [hstep] at hs
    obtain ⟨rfl, rfl⟩ := Segment.replaced.inj hs
    exact hm

theorem Marks.new_ne_nil (h : Marks family written new) : new ≠ [] := by
  cases h with
  | metavariable => exact List.append_ne_nil_of_left_ne_nil (by decide) _
  | ellipsisMetavariable =>
    cases family with
    | python => exact List.append_ne_nil_of_left_ne_nil (by decide) _
    | php => exact List.cons_ne_nil _ _
  | ellipsis => decide

theorem Marks.written_ne_nil (h : Marks family written new) : written ≠ [] := by
  cases h <;> simp [dots]

/-- Pattern syntax stands on one line. -/
theorem Marks.not_lineFeed_mem (h : Marks family written new) : '\n' ∉ written := by
  have hname : ∀ {name}, isMetavariableName name = true → '\n' ∉ name := by
    intro name h hmem
    exact absurd (all_word_of_name h _ hmem) (by decide)
  cases h with
  | metavariable _ h => simpa using hname h
  | ellipsisMetavariable h => simpa [dots] using hname h
  | ellipsis => simp [dots]

theorem new_ne_nil_of_mem_scan {s : Segment} {covered : Nat} {region : Region} {cs : List Char}
    (h : s ∈ scan family covered region cs) : s.new ≠ [] := by
  obtain ⟨region, c, cs, rfl⟩ := mem_scan h
  rcases step_cases family region c cs with ⟨n, region', hstep⟩ | ⟨n, new, hstep, hm⟩
  · simp [hstep, Step.copy]
  · rw [hstep]
    exact hm.new_ne_nil

/-- Every edit puts a placeholder for what is written, and its ends lead there. -/
theorem exists_placeholder {text : List Char} {e : Edit} (hsize : width text < wordSize)
    (he : e ∈ (insert family text).edits) :
    ∃ before written after before' new after', Marks family written new ∧
      text = before ++ written ++ after ∧
      (insert family text).text = before' ++ new ++ after' ∧
      e.oldStart = width before ∧ e.oldStop = width (before ++ written) ∧
      e.newStart = width before' ∧ e.newStop = width (before' ++ new) ∧
      throughLayer (insert family text).edits e.newStart = width before ∧
      throughLayer (insert family text).edits e.newStop = width (before ++ written) := by
  obtain ⟨before, written, new, after, hsegments, hnewStart, hnewStop, hstart, hstop⟩ :=
    mem_editsFrom he
  rw [Nat.zero_add] at hnewStart hstart
  have hmem : .replaced written new ∈ segments family text := by simp [hsegments]
  have hbefore := textBefore_segments family text
  have hnew : ∀ s ∈ segments family text, s.new ≠ [] := fun s hs => new_ne_nil_of_mem_scan hs
  have hback := Segment.back_ends (hsegments ▸ hnew)
  have hafter : (insert family text).text = textAfter before ++ new ++ textAfter after := by
    simp [insert, Revision.ofSegments, hsegments, textAfter]
  have hlayer : ∀ offset ≤ width (insert family text).text,
      throughLayer (insert family text).edits offset =
        Segment.back (before ++ .replaced written new :: after) offset := by
    intro offset hle
    change offset ≤ width (textAfter (segments family text)) at hle
    rw [← hsegments]
    exact throughLayer_editsOf (by rw [hbefore]; omega)
  have hwidth := congrArg width hafter
  simp only [width_append] at hwidth
  refine ⟨textBefore before, written, textBefore after, textAfter before, new, textAfter after,
    marks_of_mem_scan hmem, ?_, hafter, hstart, ?_, hnewStart, ?_, ?_, ?_⟩
  · rw [← hbefore, hsegments]
    simp [textBefore]
  · rw [hstop, hstart, width_append]
  · rw [hnewStop, hnewStart, width_append]
  · rw [hlayer _ (by omega), hnewStart, hback.1]
  · rw [hlayer _ (by omega), hnewStop, hnewStart, hback.2, width_append]

end Placeholder

namespace Conversion

open Rose

variable {c : Conversion} {n : GrammarNode}

theorem textOf_span {part : List Char}
    (h : slice? c.text (c.map.locate n.start) (c.map.locate n.stop) = some part) :
    c.textOf (c.span n) = part := by
  have hle : c.map.locate n.start ≤ c.map.locate n.stop := by
    by_contra hlt
    simp [slice?, hlt] at h
  rw [textOf, span]
  simp only [LineTable.span, Nat.max_eq_left hle, h, Option.getD_some]

theorem leaf_of_staying {tree : Rose GrammarNode} {i : Nat} {above : List GrammarNode}
    {cs : List (Rose GrammarNode)} {m : Meta}
    (h : (c.staying tree)[i]? = some (above, .node n cs))
    (hm : c.pattern? (insideString above) n = some m) :
    (c.run tree).ast.get? (i + 1) = some (c.astNode ⟨n, some m, true⟩) ∧
      (c.run tree).ast.children (i + 1) = [] := by
  have hstays : n.informative = true := by
    have hmem := (List.mem_filter.mp (List.mem_of_getElem? h)).2
    rw [stays, Bool.and_eq_true] at hmem
    exact hmem.1
  have himage := congrArg (·[i]?) (image_staying c tree)
  simp only [List.getElem?_map, h, Option.map_some] at himage
  rw [image, keep_leaf hstays hm] at himage
  cases hk : c.keep false tree with
  | none => simp [hk, subtreesAll] at himage
  | some kept =>
    have hleaf : kept.subtrees[i]? = some (.node ⟨n, some m, true⟩ []) := by
      rw [hk, Option.toList_some, subtreesAll, subtreesAll, List.append_nil] at himage
      obtain ⟨k, hleaf, hsame⟩ := Option.map_eq_some_iff.mp himage.symm
      rw [hleaf, Option.some.inj hsame]
    rw [run, hk]
    refine Ast.leaf_ofTree ?_
    rw [subtrees_map, List.getElem?_map, hleaf]
    rfl

end Conversion

namespace Placeholder

open Lexical

/-- A part of the base to whose ends the offsets of the body lead is found in the text. -/
theorem slice?_locate_wrap {text : List Char} {base body : Revision} {w : Wrapping}
    {start stop : Nat} {before part after : List Char} (hsize : width text < wordSize)
    (hbase : base ∈ Pattern.bases text) (htext : base.text = before ++ part ++ after)
    (hpart : part ≠ []) (hnl : '\n' ∉ part) (hstart : throughLayer body.edits start = width before)
    (hstop : throughLayer body.edits stop = width (before ++ part)) :
    let c := Candidate.wrap text base body w
    slice? text (c.map.locate (width w.opening.toList + start))
      (c.map.locate (width w.opening.toList + stop)) = some part := by
  intro c
  obtain ⟨first, last, htext', hfirst, hlast⟩ := base_restores hbase hsize htext hpart hnl
  have hlocateStart : c.map.locate (width w.opening.toList + start) = width first := by
    rw [locate_wrap, Nat.add_sub_cancel_left, hstart, hfirst, htext']
    simp
  have hlocateStop : c.map.locate (width w.opening.toList + stop) = width (first ++ part) := by
    rw [locate_wrap, Nat.add_sub_cancel_left, hstop, hlast, htext']
    simp
  rw [hlocateStart, hlocateStop, htext', slice?_part]

/-- What is written stands in the base and in the text, and the placeholder for it in the
candidate's program. -/
theorem exists_marks_of_edit {family : Family} {text : List Char} {base : Revision} {w : Wrapping}
    {e : Edit} (hsize : width text < wordSize) (hbase : base ∈ Pattern.bases text)
    (he : e ∈ (insert family base.text).edits) :
    let c := Candidate.wrap text base (insert family base.text) w
    let start := width w.opening.toList + e.newStart
    let stop := width w.opening.toList + e.newStop
    ∃ written new, Marks family written new ∧
      slice? base.text e.oldStart e.oldStop = some written ∧
      slice? text (c.map.locate start) (c.map.locate stop) = some written ∧
      slice? c.parsed start stop = some new := by
  intro c start stop
  obtain ⟨segments, -, -, hle⟩ := exists_segments_of_mem_bases hbase
  obtain ⟨before, written, after, before', new, after', hmarks, hbefore, hafter, hstart, hstop,
    hnewStart, hnewStop, hlayerStart, hlayerStop⟩ :=
    exists_placeholder (Nat.lt_of_le_of_lt hle hsize) he
  have hparsed : c.parsed =
      (w.opening.toList ++ before') ++ new ++ (after' ++ w.closing.toList) := by
    show w.apply (insert family base.text).text = _
    rw [hafter, Wrapping.apply]
    simp
  have hparsedStart : start = width (w.opening.toList ++ before') := by
    rw [width_append, ← hnewStart]
  have hparsedStop : stop = width (w.opening.toList ++ before' ++ new) := by
    rw [List.append_assoc, width_append, ← hnewStop]
  refine ⟨written, new, hmarks, ?_, ?_, ?_⟩
  · rw [hstart, hstop, hbefore, slice?_part]
  · exact slice?_locate_wrap hsize hbase hbefore hmarks.written_ne_nil hmarks.not_lineFeed_mem
      hlayerStart hlayerStop
  · rw [hparsed, hparsedStart, hparsedStop, slice?_part]

/-- The placeholder of an edit converts back to what is written. No text is too long for
its offsets. -/
theorem converts_back {family : Family} {text : List Char} {base : Revision}
    {w : Wrapping} {e : Edit} (hsize : width text < wordSize) (hbase : base ∈ Pattern.bases text)
    (he : e ∈ (insert family base.text).edits) :
    let c := Candidate.wrap text base (insert family base.text) w
    let conversion := Conversion.of family .pattern c.parsed text c.map
    let start := width w.opening.toList + e.newStart
    let stop := width w.opening.toList + e.newStop
    ∃ written m, Writes written m ∧
      slice? base.text e.oldStart e.oldStop = some written ∧
      slice? text (c.map.locate start) (c.map.locate stop) = some written ∧
      ∀ tree i above n cs, (conversion.staying tree)[i]? = some (above, .node n cs) →
        n.start = start → n.stop = stop →
        Meant family written (Conversion.insideString above) n →
        ∃ a, (conversion.run tree).ast.get? (i + 1) = some a ∧
          (conversion.run tree).ast.children (i + 1) = [] ∧ a.kind = n.kind ∧
          a.span = conversion.span n ∧ a.text = some (String.ofList written) ∧
          a.pattern = some m := by
  intro c conversion start stop
  obtain ⟨written, new, hmarks, hbefore, hslice, hparsed⟩ :=
    exists_marks_of_edit (w := w) hsize hbase he
  obtain ⟨m, hwrites, hpattern⟩ := hmarks.writes
  refine ⟨written, m, hwrites, hbefore, hslice, ?_⟩
  intro tree i above n cs hstaying hn hn' hmeant
  have hnew : conversion.parsedText n = new := by
    rw [Conversion.parsedText, hn, hn']
    exact congrArg (·.getD []) hparsed
  have hm := hpattern conversion n (Conversion.insideString above) rfl rfl hnew hmeant
  obtain ⟨hget, hchildren⟩ := Conversion.leaf_of_staying hstaying hm
  have hspan : conversion.textOf (conversion.span n) = written :=
    Conversion.textOf_span (by rw [hn, hn']; exact hslice)
  refine ⟨_, hget, hchildren, rfl, rfl, ?_, rfl⟩
  simp [Conversion.astNode, hspan]

def variableTree : Rose GrammarNode :=
  .node ⟨"program", true, false, false, 0, 15, none⟩
    [.node ⟨"php_tag", true, false, false, 0, 5, none⟩ [],
      .node ⟨"expression_statement", true, false, false, 6, 15, none⟩
        [.node ⟨"variable_name", true, false, false, 6, 14, none⟩
          [.node ⟨"$", false, false, false, 6, 7, none⟩ [],
            .node ⟨"name", true, false, false, 7, 14, none⟩ []],
        .node ⟨";", false, false, false, 14, 15, none⟩ []]]

theorem converts_back_indented :
    let text := "  $...X;".toList
    let base : Revision := ⟨"$...X;".toList, [⟨0, 0, 0, 2⟩]⟩
    let body := insert .php base.text
    let c := Candidate.wrap text base body Php.openTag
    let conversion := Conversion.of .php .pattern c.parsed text c.map
    width text < wordSize ∧ base ∈ Pattern.bases text ∧ body.edits = [⟨0, 8, 0, 5⟩] ∧
      c.parsed = "<?php\n$__mvs_X;".toList ∧
      slice? text (c.map.locate 6) (c.map.locate 14) = some "$...X".toList ∧
      ∃ a, (conversion.run variableTree).ast.get? 4 = some a ∧
        (conversion.run variableTree).ast.children 4 = [] ∧ a.text = some "$...X" ∧
        a.pattern = some (.ellipsisMetavariable "$...X") := by
  intro text base body c conversion
  have hbase : base ∈ Pattern.bases text := by decide
  have he : ⟨0, 8, 0, 5⟩ ∈ body.edits := by decide
  obtain ⟨written, m, hwrites, hbefore, hslice, htree⟩ :=
    converts_back (w := Php.openTag) (by decide) hbase he
  obtain rfl : "$...X".toList = written := Option.some.inj hbefore
  have hm : m = .ellipsisMetavariable "$...X" := by
    generalize hw : "$...X".toList = w at hwrites
    cases hwrites with
    | metavariable h =>
      obtain rfl := (List.cons.inj hw).2
      exact absurd h (by decide)
    | ellipsisMetavariable h =>
      obtain rfl : "X".toList = _ := congrArg (List.drop 4) hw
      rfl
    | ellipsis => exact absurd hw (by decide)
  obtain ⟨a, hget, hchildren, -, -, hat, hpattern⟩ :=
    htree variableTree 3 _ _ _ rfl rfl rfl (by decide)
  exact ⟨by decide, hbase, by decide, by decide, hslice, a, hget, hchildren, hat,
    hm ▸ hpattern⟩

end Placeholder

end CodePattern
