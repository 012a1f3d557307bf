import CodePattern.Proofs.OctetScan
import CodePattern.Proofs.Restoration

/-! The edits of a revision as a script that leads from the old text to the new one and back. They
go from left to right in both texts, begin and end between characters, and leave equal what is
between them. -/

namespace CodePattern

/-- The one edit begins after the start and not before the end of the other, in both texts. -/
def Edit.Before (d e : Edit) : Prop :=
  d.oldStart < e.oldStart ∧ d.oldStop ≤ e.oldStart ∧ d.newStart < e.newStart ∧
    d.newStop ≤ e.newStart

structure Edit.Between (old new : List Char) (e : Edit) : Prop where
  oldStart : IsBoundary old e.oldStart
  oldStop : IsBoundary old e.oldStop
  newStart : IsBoundary new e.newStart
  newStop : IsBoundary new e.newStop
  old_le : e.oldStart ≤ e.oldStop
  new_le : e.newStart ≤ e.newStop

/-- From one place in each text on, the texts are equal up to the first edit, between the edits
and after the last one. -/
inductive Gaps (old new : List Char) : Nat → Nat → List Edit → Prop
  | last {oldAt newAt : Nat} {part : List Char} (hold : slice? old oldAt (width old) = some part)
      (hnew : slice? new newAt (width new) = some part)
      (hsize : width old - oldAt = width new - newAt) : Gaps old new oldAt newAt []
  | next {oldAt newAt : Nat} {part : List Char} {e : Edit} {edits : List Edit}
      (hold : slice? old oldAt e.oldStart = some part)
      (hnew : slice? new newAt e.newStart = some part)
      (hsize : e.oldStart - oldAt = e.newStart - newAt)
      (h : Gaps old new e.oldStop e.newStop edits) : Gaps old new oldAt newAt (e :: edits)

/-- The new text from a place on, with every edit in it undone. -/
def undoFrom? (old new : List Char) : Nat → List Edit → Option (List Char)
  | newAt, [] => slice? new newAt (width new)
  | newAt, e :: edits =>
    (slice? new newAt e.newStart).bind fun gap =>
      (slice? old e.oldStart e.oldStop).bind fun part =>
        (undoFrom? old new e.newStop edits).map (gap ++ part ++ ·)

structure EditScript (old : List Char) (r : Revision) : Prop where
  ordered : r.edits.Pairwise Edit.Before
  between : ∀ e ∈ r.edits, e.Between old r.text
  gaps : Gaps old r.text 0 0 r.edits
  undone : undoFrom? old r.text 0 r.edits = some old

section Segments

variable {segments : List Segment} {old new : List Char}

theorem between_of_mem {e : Edit} (h : e ∈ editsOf segments) :
    e.Between (textBefore segments) (textAfter segments) := by
  obtain ⟨before, old, new, after, rfl, hnewStart, hnewStop, holdStart, holdStop⟩ := mem_editsFrom h
  rw [Nat.zero_add] at hnewStart holdStart
  have hbefore : textBefore (before ++ .replaced old new :: after) =
      textBefore before ++ old ++ textBefore after := by simp [textBefore]
  have hafter : textAfter (before ++ .replaced old new :: after) =
      textAfter before ++ new ++ textAfter after := by simp [textAfter]
  rw [hbefore, hafter]
  refine ⟨?_, ?_, ?_, ?_, by omega, by omega⟩
  · rw [holdStart, List.append_assoc]
    exact .width_left _ _
  · rw [holdStop, holdStart, ← width_append]
    exact .width_left _ _
  · rw [hnewStart, List.append_assoc]
    exact .width_left _ _
  · rw [hnewStop, hnewStart, ← width_append]
    exact .width_left _ _

/-- The gap is what has been copied since the last edit. -/
theorem gaps_editsFrom (oldDone newDone gap : List Char)
    (hold : old = oldDone ++ gap ++ textBefore segments)
    (hnew : new = newDone ++ gap ++ textAfter segments) :
    Gaps old new (width oldDone) (width newDone)
      (editsFrom (width (newDone ++ gap)) (width (oldDone ++ gap)) segments) := by
  induction segments generalizing oldDone newDone gap with
  | nil =>
    rw [textBefore, List.flatMap_nil, List.append_nil] at hold
    rw [textAfter, List.flatMap_nil, List.append_nil] at hnew
    have holdPart : slice? old (width oldDone) (width old) = some gap := by
      rw [hold]
      simpa using slice?_part oldDone gap []
    have hnewPart : slice? new (width newDone) (width new) = some gap := by
      rw [hnew]
      simpa using slice?_part newDone gap []
    refine .last holdPart hnewPart ?_
    rw [hold, hnew, width_append, width_append]
    omega
  | cons s segments ih =>
    rw [textBefore_cons] at hold
    rw [textAfter_cons] at hnew
    cases s with
    | copied text =>
      have h := ih oldDone newDone (gap ++ text) (by simpa using hold) (by simpa using hnew)
      rwa [← List.append_assoc, ← List.append_assoc, width_append _ text, width_append _ text] at h
    | replaced a b =>
      have h := ih (oldDone ++ gap ++ a) (newDone ++ gap ++ b) []
        (by simpa using hold) (by simpa using hnew)
      rw [List.append_nil, List.append_nil, width_append _ a, width_append _ b] at h
      have holdPart : slice? old (width oldDone) (width (oldDone ++ gap)) = some gap := by
        rw [hold]
        exact slice?_part _ _ _
      have hnewPart : slice? new (width newDone) (width (newDone ++ gap)) = some gap := by
        rw [hnew]
        exact slice?_part _ _ _
      refine .next holdPart hnewPart ?_ h
      show width (oldDone ++ gap) - _ = width (newDone ++ gap) - _
      rw [width_append, width_append]
      omega

theorem undoFrom?_editsFrom (oldDone newDone gap : List Char)
    (hold : old = oldDone ++ gap ++ textBefore segments)
    (hnew : new = newDone ++ gap ++ textAfter segments) :
    undoFrom? old new (width newDone)
        (editsFrom (width (newDone ++ gap)) (width (oldDone ++ gap)) segments) =
      some (gap ++ textBefore segments) := by
  induction segments generalizing oldDone newDone gap with
  | nil =>
    rw [textAfter, List.flatMap_nil, List.append_nil] at hnew
    rw [hnew]
    simpa [editsFrom, undoFrom?, textBefore] using slice?_part newDone gap []
  | cons s segments ih =>
    rw [textBefore_cons] at hold ⊢
    rw [textAfter_cons] at hnew
    cases s with
    | copied text =>
      have h := ih oldDone newDone (gap ++ text) (by simpa using hold) (by simpa using hnew)
      rwa [← List.append_assoc, ← List.append_assoc, width_append _ text, width_append _ text,
        List.append_assoc gap] at h
    | replaced a b =>
      have h := ih (oldDone ++ gap ++ a) (newDone ++ gap ++ b) []
        (by simpa using hold) (by simpa using hnew)
      rw [List.append_nil, List.append_nil, width_append _ a, width_append _ b,
        List.nil_append] at h
      have hgap : slice? new (width newDone) (width (newDone ++ gap)) = some gap := by
        rw [hnew]
        exact slice?_part _ _ _
      have hpart : slice? old (width (oldDone ++ gap)) (width (oldDone ++ gap) + width a) =
          some a := by
        rw [hold, ← width_append]
        simpa using slice?_part (oldDone ++ gap) a (textBefore segments)
      simp only [editsFrom, undoFrom?, hgap, hpart, h, Option.bind_some, Option.map_some]
      simp

theorem EditScript.of_segments (h : (editsOf segments).Pairwise Edit.Before) :
    EditScript (textBefore segments) (.ofSegments segments) where
  ordered := h
  between _ he := between_of_mem he
  gaps := gaps_editsFrom [] [] [] rfl rfl
  undone := undoFrom?_editsFrom [] [] [] rfl rfl

theorem editsFrom_before
    (h : ∀ old new, .replaced old new ∈ segments → old ≠ [] ∧ new ≠ [])
    (newStart oldStart : Nat) :
    (editsFrom newStart oldStart segments).Pairwise Edit.Before := by
  induction segments generalizing newStart oldStart with
  | nil => exact .nil
  | cons s segments ih =>
    have hrest := ih fun old new hmem => h old new (List.mem_cons_of_mem _ hmem)
    cases s with
    | copied text => exact hrest _ _
    | replaced old new =>
      obtain ⟨hold, hnew⟩ := h old new List.mem_cons_self
      have holdPos := width_pos hold
      have hnewPos := width_pos hnew
      refine .cons (fun e he => ?_) (hrest _ _)
      have hleOld := le_oldStart_of_mem he
      have hleNew := le_newStart_of_mem he
      exact ⟨by show oldStart < _; omega, hleOld, by show newStart < _; omega, hleNew⟩

end Segments

/-- The edit takes away spaces and tabs, at least one, that begin a line. -/
def Edit.Unindents (old : List Char) (e : Edit) : Prop :=
  e.newStop = e.newStart ∧ ∃ before indent after, old = before ++ indent ++ after ∧
    e.oldStart = width before ∧ e.oldStop = width (before ++ indent) ∧ indent ≠ [] ∧
      (∀ c ∈ indent, c = ' ' ∨ c = '\t') ∧ (before = [] ∨ before.getLast? = some '\n')

namespace Indentation

variable {strip : Nat} {piece : List Char} {ps : List (List Char)}

theorem mem_take_leading {n : Nat} (h : n ≤ leading piece) :
    ∀ c ∈ piece.take n, c = ' ' ∨ c = '\t' := by
  intro c hc
  have htake : piece.take n <+: piece.takeWhile isIndent :=
    (List.prefix_of_prefix_length_le (List.take_prefix _ _) (List.takeWhile_prefix _)
      (Nat.le_trans (List.length_take_le _ _) h))
  simpa [isIndent] using List.all_eq_true.mp List.all_takeWhile c (htake.subset hc)

/-- A piece has at most one edit, which takes away indentation and leaves the line feed. -/
theorem editsFrom_stripSegments (strip : Nat) (piece : List Char) (newStart oldStart : Nat) :
    editsFrom newStart oldStart (stripSegments strip piece) = [] ∨
      ∃ indent line, piece = indent ++ line ∧ indent ≠ [] ∧ (∀ c ∈ indent, c = ' ' ∨ c = '\t') ∧
        textAfter (stripSegments strip piece) = line ∧
        editsFrom newStart oldStart (stripSegments strip piece) =
          [⟨newStart, newStart, oldStart, oldStart + width indent⟩] := by
  rw [stripSegments]
  have hle := Nat.min_le_left (leading piece) strip
  generalize min (leading piece) strip = lost at hle ⊢
  rcases lost with _ | n
  · exact .inl rfl
  · refine .inr ⟨piece.take (n + 1), piece.drop (n + 1), (List.take_append_drop _ _).symm, ?_,
      mem_take_leading hle, by simp [textAfter], rfl⟩
    intro hnil
    have hlength : (piece.take (n + 1)).length = n + 1 :=
      List.length_take_of_le (Nat.le_trans hle (List.takeWhile_prefix _).length_le)
    rw [hnil] at hlength
    exact absurd hlength (by simp)

theorem editsFrom_pieces_before (hps : ps.Pairwise (fun p _ => p.getLast? = some '\n'))
    (newStart oldStart : Nat) :
    (editsFrom newStart oldStart (ps.flatMap (stripSegments strip))).Pairwise Edit.Before := by
  induction ps generalizing newStart oldStart with
  | nil => exact .nil
  | cons piece ps ih =>
    obtain ⟨hpiece, hrest⟩ := List.pairwise_cons.mp hps
    rw [List.flatMap_cons, editsFrom_append, textBefore_stripSegments]
    rcases editsFrom_stripSegments strip piece newStart oldStart with
      hnone | ⟨indent, line, rfl, hne, hblank, hline, hone⟩
    · rw [hnone]
      exact ih hrest _ _
    · rw [hone, hline, List.singleton_append, List.pairwise_cons]
      refine ⟨fun e he => ?_, ih hrest _ _⟩
      -- If another piece follows, this one ends with a line feed, which is no indentation.
      have hkept : line ≠ [] := by
        rintro rfl
        cases ps with
        | nil => cases he
        | cons next ps =>
          have hend := hpiece next List.mem_cons_self
          rw [List.append_nil] at hend
          exact absurd (hblank _ (List.mem_of_getLast? hend)) (by decide)
      have hlost := width_pos hne
      have hleft := width_pos hkept
      have hleOld := le_oldStart_of_mem he
      have hleNew := le_newStart_of_mem he
      rw [width_append] at hleOld
      refine ⟨?_, ?_, ?_, ?_⟩
      · show oldStart < _
        omega
      · show oldStart + width indent ≤ _
        omega
      · show newStart < _
        omega
      · show newStart ≤ _
        omega

theorem unindents_of_mem (hps : ps.Pairwise (fun p _ => p.getLast? = some '\n'))
    {old : List Char} (before : List Char) (hold : old = before ++ ps.flatten)
    (hbefore : before = [] ∨ before.getLast? = some '\n') {newStart : Nat} {e : Edit}
    (he : e ∈ editsFrom newStart (width before) (ps.flatMap (stripSegments strip))) :
    e.Unindents old := by
  induction ps generalizing before newStart with
  | nil => cases he
  | cons piece ps ih =>
    obtain ⟨hpiece, hrest⟩ := List.pairwise_cons.mp hps
    rw [List.flatMap_cons, editsFrom_append, textBefore_stripSegments, ← width_append] at he
    rcases List.mem_append.mp he with he | he
    · rcases editsFrom_stripSegments strip piece newStart (width before) with
        hnone | ⟨indent, line, rfl, hne, hblank, hline, hone⟩
      · rw [hnone] at he
        cases he
      · rw [hone, List.mem_singleton] at he
        subst he
        exact ⟨rfl, before, indent, line ++ ps.flatten, by rw [hold]; simp, rfl,
          (width_append _ _).symm, hne, hblank, hbefore⟩
    · cases ps with
      | nil => cases he
      | cons next ps =>
        have hend := hpiece next List.mem_cons_self
        refine ih hrest _ (by rw [hold, List.flatten_cons, List.append_assoc]) (.inr ?_) he
        rw [List.getLast?_append, hend]
        rfl

theorem editScript_of_remove? {text : List Char} {r : Revision} (h : remove? text = some r) :
    EditScript text r ∧ ∀ e ∈ r.edits, e.Unindents text := by
  obtain ⟨strip, rfl⟩ := exists_segments_of_remove? h
  have hbefore : (editsOf (segments strip text)).Pairwise Edit.Before :=
    editsFrom_pieces_before (pieces_pairwise text) 0 0
  have hscript := EditScript.of_segments hbefore
  rw [textBefore_segments] at hscript
  exact ⟨hscript, fun e he => unindents_of_mem (pieces_pairwise text) []
    (flatten_pieces text).symm (.inl rfl) he⟩

end Indentation

namespace Placeholder

theorem ne_nil_of_mem_segments {family : Family} {text old new : List Char}
    (h : .replaced old new ∈ segments family text) : old ≠ [] ∧ new ≠ [] := by
  have hmarks := marks_of_mem_scan h
  exact ⟨hmarks.written_ne_nil, hmarks.new_ne_nil⟩

theorem editScript_insert (family : Family) (text : List Char) :
    EditScript text (insert family text) := by
  have hbefore : (editsOf (segments family text)).Pairwise Edit.Before :=
    editsFrom_before (fun _ _ hmem => ne_nil_of_mem_segments hmem) 0 0
  have hscript := EditScript.of_segments hbefore
  rwa [textBefore_segments] at hscript

theorem lt_of_mem_insert {family : Family} {text : List Char} {e : Edit}
    (h : e ∈ (insert family text).edits) : e.oldStart < e.oldStop ∧ e.newStart < e.newStop := by
  obtain ⟨before, old, new, after, hsegments, -, hnewStop, -, holdStop⟩ := mem_editsFrom h
  have hmem : .replaced old new ∈ segments family text := by
    rw [hsegments]
    exact List.mem_append_right _ List.mem_cons_self
  obtain ⟨hold, hnew⟩ := ne_nil_of_mem_segments hmem
  have holdPos := width_pos hold
  have hnewPos := width_pos hnew
  omega

end Placeholder

/-- Both revisions of a text come about without a missing slice and are edit scripts. -/
theorem revisions_valid (family : Family) (text : List Char) :
    (Placeholder.Cursor.Runs family text .start (Placeholder.insert family text) ∧
      EditScript text (Placeholder.insert family text) ∧
      ∀ e ∈ (Placeholder.insert family text).edits,
        e.oldStart < e.oldStop ∧ e.newStart < e.newStop) ∧
    Indentation.draft? text = some (Indentation.remove? text) ∧
      ∀ r, Indentation.remove? text = some r →
        EditScript text r ∧ (∀ e ∈ r.edits, e.Unindents text) ∧
          (r.edits.map Edit.newStart).Nodup := by
  refine ⟨⟨Placeholder.Cursor.insert_runs family text, Placeholder.editScript_insert family text,
    fun e he => Placeholder.lt_of_mem_insert he⟩, Indentation.draft?_eq text, fun r hr => ?_⟩
  obtain ⟨hscript, hunindents⟩ := Indentation.editScript_of_remove? hr
  refine ⟨hscript, hunindents, ?_⟩
  rw [List.Nodup, List.pairwise_map]
  exact hscript.ordered.imp fun hbefore => Nat.ne_of_lt hbefore.2.2.1

end CodePattern
