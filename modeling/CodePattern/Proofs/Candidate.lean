import CodePattern.Pattern
import CodePattern.Proofs.WayBack

/-! The way back from a candidate to the text of the pattern. Every boundary of the
candidate's program goes to a boundary of the text. -/

namespace CodePattern

theorem locate_push (m : OffsetMap) (edits : List Edit) (offset : Nat) :
    (m.push edits).locate offset =
      min (m.layers.foldr throughLayer (throughLayer edits (offset - m.opening))) m.limit := by
  cases edits with
  | nil => rfl
  | cons e edits => simp [OffsetMap.push, OffsetMap.locate]

theorem locate_wrap (text : List Char) (base body : Revision) (w : Wrapping) (offset : Nat) :
    (Candidate.wrap text base body w).map.locate offset =
      min (throughLayer base.edits
        (throughLayer body.edits (offset - width w.opening.toList))) (width text) := by
  rw [Candidate.wrap, locate_push]
  cases hb : base.edits <;> rfl

namespace Indentation

theorem textAfter_stripSegments (strip : Nat) (piece : List Char) :
    textAfter (stripSegments strip piece) = piece.drop (min (leading piece) strip) := by
  rw [stripSegments]
  split
  · next h => rw [h]; simp [textAfter]
  · next h => rw [h]; simp [textAfter]

theorem width_drop_le (n : Nat) (cs : List Char) : width (cs.drop n) ≤ width cs := by
  have h := congrArg width (List.take_append_drop n cs)
  rw [width_append] at h
  omega

theorem width_textAfter_le (strip : Nat) (text : List Char) :
    width (textAfter (segments strip text)) ≤ width text := by
  have hpieces : ∀ ps : List (List Char),
      width (textAfter (ps.flatMap (stripSegments strip))) ≤ width ps.flatten := by
    intro ps
    induction ps with
    | nil => exact Nat.le_refl _
    | cons p ps ih =>
      have hp := width_drop_le (min (leading p) strip) p
      rw [← textAfter_stripSegments] at hp
      simp only [textAfter, List.flatMap_cons, List.flatMap_append, List.flatten_cons,
        width_append] at hp ih ⊢
      omega
  have h := hpieces (pieces text)
  rwa [flatten_pieces] at h

theorem exists_segments_of_remove? {text : List Char} {r : Revision} (h : remove? text = some r) :
    ∃ strip, r = .ofSegments (segments strip text) := by
  simp only [remove?] at h
  split at h
  · cases h
  · cases h
  · exact ⟨_, (Option.some.inj h).symm⟩

end Indentation

theorem ofSegments_copied (text : List Char) :
    Revision.ofSegments [.copied text] = ⟨text, []⟩ := by
  simp [Revision.ofSegments, editsOf, editsFrom, textAfter]

theorem base_cases {text : List Char} {base : Revision} (h : base ∈ Pattern.bases text) :
    base = .ofSegments [.copied text] ∨
      ∃ strip, base = .ofSegments (Indentation.segments strip text) := by
  rcases List.mem_cons.mp h with rfl | h
  · exact .inl (ofSegments_copied text).symm
  · exact .inr (Indentation.exists_segments_of_remove? (by simpa using h))

theorem exists_segments_of_mem_bases {text : List Char} {base : Revision}
    (h : base ∈ Pattern.bases text) :
    ∃ segments, base = .ofSegments segments ∧ textBefore segments = text ∧
      width base.text ≤ width text := by
  rcases base_cases h with rfl | ⟨strip, rfl⟩
  · exact ⟨_, rfl, by simp [textBefore], by simp [Revision.ofSegments, textAfter]⟩
  · exact ⟨_, rfl, Indentation.textBefore_segments strip text,
      Indentation.width_textAfter_le strip text⟩

/-- As long as no sum leaves the 64 bits of an offset, a candidate leads back as the
segments of its base and its placeholders do. -/
theorem locate_wrap_back {family : Family} {outer : List Segment} {w : Wrapping} {offset : Nat}
    (hle : width (textAfter outer) ≤ width (textBefore outer))
    (hsize : width (textBefore outer) + (offset - width w.opening.toList -
      width (Placeholder.insert family (textAfter outer)).text) < wordSize) :
    (Candidate.wrap (textBefore outer) (.ofSegments outer)
        (Placeholder.insert family (textAfter outer)) w).map.locate offset =
      min (Segment.back outer (Segment.back (Placeholder.segments family (textAfter outer))
        (offset - width w.opening.toList))) (width (textBefore outer)) := by
  let inner := Placeholder.segments family (textAfter outer)
  let offset' := offset - width w.opening.toList
  have hinner : textBefore inner = textAfter outer := Placeholder.textBefore_segments _ _
  change width (textBefore outer) + (offset' - width (textAfter inner)) < wordSize at hsize
  have hback := Segment.back_le inner offset'
  rw [hinner] at hback
  have hinnerLayer : throughLayer (editsOf inner) offset' = Segment.back inner offset' :=
    throughLayer_editsOf (by rw [hinner]; omega)
  have houterLayer : throughLayer (editsOf outer) (Segment.back inner offset') =
      Segment.back outer (Segment.back inner offset') := throughLayer_editsOf (by omega)
  rw [locate_wrap]
  show min (throughLayer (editsOf outer) (throughLayer (editsOf inner) offset')) _ = _
  rw [hinnerLayer, houterLayer]

/-- A candidate's program is cut between characters exactly where the text is. -/
theorem locate_wrap_boundary {family : Family} {text : List Char} {base : Revision}
    {w : Wrapping} {offset : Nat} (hbase : base ∈ Pattern.bases text)
    (hsize : width text + width w.closing.toList < wordSize)
    (h : IsBoundary (w.apply (Placeholder.insert family base.text).text) offset) :
    IsBoundary text
      ((Candidate.wrap text base (Placeholder.insert family base.text) w).map.locate offset) := by
  obtain ⟨outer, rfl, rfl, hle⟩ := exists_segments_of_mem_bases hbase
  let inner := Placeholder.segments family (textAfter outer)
  have hinner : textBefore inner = textAfter outer := Placeholder.textBefore_segments _ _
  have hbody : IsBoundary (textAfter inner ++ w.closing.toList)
      (offset - width w.opening.toList) := by
    rw [Wrapping.apply, List.append_assoc] at h
    exact h.sub
  have hlen := hbody.le_width
  rw [width_append] at hlen
  change width (textAfter outer) ≤ width (textBefore outer) at hle
  have hlocate := @locate_wrap_back family outer w offset hle (by
    change _ + (_ - width (textAfter inner)) < wordSize
    omega)
  have hmiddle := Segment.back_boundary hbody
  rw [hinner] at hmiddle
  exact hlocate ▸ (Segment.back_boundary hmiddle).min_width

end CodePattern
