import CodePattern.Proofs.Candidate

/-! Parts of a text on the way back through a layer. What stands on one line of a text
without indentation stood in the indented text as it is, and the ends of a replacement
lead to the ends of what was replaced. -/

namespace CodePattern

namespace Segment

/-- A part of the old text to whose ends the offsets of the new text lead. -/
def Restores (segments : List Segment) (start stop : Nat) (part : List Char) : Prop :=
  ∃ before after, textBefore segments = before ++ part ++ after ∧
    back segments start = width before ∧ back segments stop = width (before ++ part)

theorem back_zero {segments : List Segment} (h : ∀ s ∈ segments, s.new ≠ []) :
    back segments 0 = 0 := by
  cases segments with
  | nil => rfl
  | cons s segments =>
    have hs := h s List.mem_cons_self
    have hpos : 0 < width s.new := by
      have := length_le_width s.new
      have := List.length_pos_iff.mpr hs
      omega
    cases s with
    | copied text =>
      rw [new_copied] at hpos
      rw [back, if_pos hpos]
    | replaced old new =>
      rw [new_replaced] at hpos
      rw [back, if_neg (by omega), if_pos rfl]

theorem back_ends {before after : List Segment} {old new : List Char}
    (h : ∀ s ∈ before ++ .replaced old new :: after, s.new ≠ []) :
    back (before ++ .replaced old new :: after) (width (textAfter before)) =
        width (textBefore before) ∧
      back (before ++ .replaced old new :: after) (width (textAfter before) + width new) =
        width (textBefore before) + width old := by
  constructor
  · have hrest : back (.replaced old new :: after) 0 = 0 := back_zero
      (fun s hs => h s (List.mem_append_right _ hs))
    have hback := back_append before (.replaced old new :: after) 0
    rwa [hrest, Nat.add_zero, Nat.add_zero] at hback
  · have hrest : back after 0 = 0 := back_zero
      (fun s hs => h s (List.mem_append_right _ (List.mem_cons_of_mem _ hs)))
    have hback := back_replaced old new after 0
    rw [hrest, Nat.add_zero, Nat.add_zero] at hback
    rw [back_append, hback]

theorem restores_copied (before part after : List Char) :
    Restores [.copied (before ++ part ++ after)] (width before) (width (before ++ part)) part :=
  ⟨before, after, by simp [textBefore], back_only_copied _ _, back_only_copied _ _⟩

/-- Segments that lose an indentation and copy what comes after it. -/
structure Unindents (segments : List Segment) (indent line : List Char) (rest : List Segment) :
    Prop where
  before : textBefore segments = indent ++ (line ++ textBefore rest)
  after : textAfter segments = line ++ textAfter rest
  back : ∀ offset, back segments offset = width indent + back (.copied line :: rest) offset

namespace Unindents

variable {segments rest : List Segment} {indent line before part after : List Char}

theorem restores_line (h : Unindents segments indent line rest)
    (hline : line = before ++ part ++ after) (hrest : after = [] → rest = []) :
    Restores segments (width before) (width (before ++ part)) part := by
  have hback : ∀ offset ≤ width (before ++ part),
      Segment.back segments offset = width indent + offset := by
    intro offset hle
    rw [h.back, Segment.back]
    split
    · rfl
    · next hlt =>
      have hwidth := congrArg width hline
      rw [width_append] at hwidth
      rw [hrest (eq_nil_of_width (by omega)), Segment.back]
      omega
  refine ⟨indent ++ before, after ++ textBefore rest, by simp [h.before, hline], ?_, ?_⟩
  · rw [hback _ (by rw [width_append]; omega), width_append]
  · rw [hback _ (Nat.le_refl _), List.append_assoc, width_append indent]

theorem restores_rest {start stop : Nat} (h : Unindents segments indent line rest)
    (hrest : Restores rest start stop part) :
    Restores segments (width line + start) (width line + stop) part := by
  obtain ⟨before, after, htext, hstart, hstop⟩ := hrest
  refine ⟨indent ++ line ++ before, after, by simp [h.before, htext], ?_, ?_⟩
  · rw [h.back, back_copied, hstart, width_append, width_append, Nat.add_assoc]
  · rw [h.back, back_copied, hstop]
    simp only [width_append, Nat.add_assoc]

end Unindents

end Segment

/-- Every piece of a text but the last ends with a line feed. -/
theorem pieces_pairwise (text : List Char) :
    (pieces text).Pairwise (fun p _ => p.getLast? = some '\n') := by
  induction text with
  | nil => exact .nil
  | cons c text ih =>
    rw [pieces]
    split
    · next hc => exact .cons (fun _ _ => by simp [hc]) ih
    · split
      · exact List.pairwise_singleton _ _
      · next p ps h =>
        rw [h, List.pairwise_cons] at ih
        refine .cons (fun q hq => ?_) ih.2
        rw [List.getLast?_cons, ih.1 q hq]
        rfl

namespace Indentation

open Segment

theorem exists_unindents (strip : Nat) (piece : List Char) (rest : List Segment) :
    ∃ indent line, piece = indent ++ line ∧
      Unindents (stripSegments strip piece ++ rest) indent line rest := by
  rw [stripSegments]
  split
  · exact ⟨[], piece, rfl, by simp, by simp, by simp⟩
  · next n _ =>
    refine ⟨piece.take (n + 1), piece.drop (n + 1), (List.take_append_drop _ _).symm, by simp,
      by simp, fun offset => ?_⟩
    have h := back_replaced (piece.take (n + 1)) [] (.copied (piece.drop (n + 1)) :: rest) offset
    rwa [width_nil, Nat.zero_add] at h

theorem mem_of_getLast?_append {s t : List Char} {c : Char} (h : (s ++ t).getLast? = some c)
    (ht : t ≠ []) : c ∈ t := by
  rw [List.getLast?_append, List.getLast?_eq_some_getLast ht, Option.some_or] at h
  exact Option.some.inj h ▸ List.getLast_mem ht

theorem restores_pieces {strip : Nat} {ps : List (List Char)}
    (hps : ps.Pairwise (fun p _ => p.getLast? = some '\n')) {before part after : List Char}
    (h : textAfter (ps.flatMap (stripSegments strip)) = before ++ (part ++ after))
    (hpart : part ≠ []) (hnl : '\n' ∉ part) :
    Restores (ps.flatMap (stripSegments strip)) (width before) (width (before ++ part)) part := by
  induction ps generalizing before with
  | nil =>
    have hnil := List.append_eq_nil_iff.mp (List.append_eq_nil_iff.mp h.symm).2
    exact absurd hnil.1 hpart
  | cons p ps ih =>
    obtain ⟨hp, hrestPieces⟩ := List.pairwise_cons.mp hps
    rw [List.flatMap_cons] at h ⊢
    obtain ⟨indent, line, rfl, hline⟩ :=
      exists_unindents strip p (ps.flatMap (stripSegments strip))
    rw [hline.after] at h
    -- A part that reaches the end of its piece would hold the line feed, if another follows.
    have hlast : ∀ s t, line = s ++ t → t ≠ [] → '\n' ∉ t → ps = [] := by
      rintro s t rfl ht hnl
      by_contra hne
      obtain ⟨q, hq⟩ := List.exists_mem_of_ne_nil ps hne
      have hend := hp q hq
      rw [← List.append_assoc] at hend
      exact hnl (mem_of_getLast?_append hend ht)
    by_cases hle : width line ≤ width before
    · obtain ⟨mid, rfl, hmid⟩ := append_split_of_width h hle
      rw [List.append_assoc, width_append, width_append line]
      exact hline.restores_rest (ih hrestPieces hmid)
    · obtain ⟨tail, rfl, hrest⟩ := append_split_of_width h.symm (by omega)
      by_cases hle' : width part ≤ width tail
      · obtain ⟨more, rfl, -⟩ := append_split_of_width hrest hle'
        refine hline.restores_line (List.append_assoc _ _ _).symm ?_
        rintro rfl
        rw [List.append_nil] at hlast
        rw [hlast before part rfl hpart hnl]
        rfl
      · obtain ⟨more, rfl, hmore⟩ := append_split_of_width hrest.symm (by omega)
        have htail : tail ≠ [] := by
          rintro rfl
          simp at hle
        obtain rfl := hlast before tail rfl htail (fun hmem => hnl (List.mem_append_left _ hmem))
        have hnil := (List.append_eq_nil_iff.mp hmore.symm).1
        simp [hnil] at hle'

end Indentation

theorem layer_restores {segments : List Segment} {start stop : Nat} {part : List Char}
    (h : Segment.Restores segments start stop part) (hle : start ≤ stop)
    (hstop : stop ≤ width (Revision.ofSegments segments).text)
    (hsize : width (textBefore segments) < wordSize) :
    ∃ before after, textBefore segments = before ++ part ++ after ∧
      throughLayer (Revision.ofSegments segments).edits start = width before ∧
      throughLayer (Revision.ofSegments segments).edits stop = width (before ++ part) := by
  simp only [Revision.ofSegments] at hstop ⊢
  obtain ⟨before, after, htext, hstart, hend⟩ := h
  refine ⟨before, after, htext, ?_, ?_⟩
  · rw [throughLayer_editsOf (by omega), hstart]
  · rw [throughLayer_editsOf (by omega), hend]

/-- A part of a base that stands on one line is found in the text that was given. -/
theorem base_restores {text : List Char} {base : Revision} {before part after : List Char}
    (h : base ∈ Pattern.bases text) (hsize : width text < wordSize)
    (htext : base.text = before ++ part ++ after) (hpart : part ≠ []) (hnl : '\n' ∉ part) :
    ∃ before' after', text = before' ++ part ++ after' ∧
      throughLayer base.edits (width before) = width before' ∧
      throughLayer base.edits (width (before ++ part)) = width (before' ++ part) := by
  have hle : width before ≤ width (before ++ part) := by simp
  have hstop : width (before ++ part) ≤ width base.text := by
    rw [htext, width_append _ after]
    omega
  rcases base_cases h with rfl | ⟨strip, rfl⟩
  · have hbefore : textBefore [.copied text] = text := by simp [textBefore]
    obtain rfl : text = before ++ part ++ after := by
      simpa [Revision.ofSegments, textAfter] using htext
    have hrestores := layer_restores (Segment.restores_copied before part after) hle hstop
      (by rwa [hbefore])
    rwa [hbefore] at hrestores
  · have hbefore := Indentation.textBefore_segments strip text
    have hpieces := Indentation.restores_pieces (pieces_pairwise text)
      (htext.trans (List.append_assoc _ _ _)) hpart hnl
    have hrestores := layer_restores hpieces hle hstop (by rwa [← Indentation.segments, hbefore])
    rwa [← Indentation.segments, hbefore] at hrestores

end CodePattern
