import CodePattern.Proofs.Candidate
import Mathlib.Order.MinMax

/-! A text with white space put in front of each of its lines. If a line stood at the margin,
the white space is the common indentation of the new text, and without it the text is the old
one again. -/

namespace CodePattern

/-- Pieces that each end at their only line feed, but for a last one that may have none. -/
inductive Pieced : List (List Char) → Prop
  | nil : Pieced []
  | last {line : List Char} (hne : line ≠ []) (hline : '\n' ∉ line) : Pieced [line]
  | cons {line : List Char} {ps : List (List Char)} (hline : '\n' ∉ line) (hps : Pieced ps) :
    Pieced ((line ++ ['\n']) :: ps)

theorem pieces_pieced (text : List Char) : Pieced (pieces text) := by
  induction text with
  | nil => exact .nil
  | cons c text ih =>
    rw [pieces]
    by_cases hc : c = '\n'
    · rw [if_pos hc, hc]
      have hline : '\n' ∉ ([] : List Char) := List.not_mem_nil
      exact .cons hline ih
    · rw [if_neg hc]
      have hcons : ∀ line : List Char, '\n' ∉ line → '\n' ∉ c :: line := by
        intro line hline hmem
        rcases List.mem_cons.mp hmem with h | h
        · exact hc h.symm
        · exact hline h
      generalize pieces text = ps at ih ⊢
      cases ih with
      | nil => exact .last (by simp) (hcons [] List.not_mem_nil)
      | last _ hline => exact .last (by simp) (hcons _ hline)
      | cons hline hps => exact .cons (hcons _ hline) hps

theorem pieces_line {line : List Char} (hne : line ≠ []) (hline : '\n' ∉ line) :
    pieces line = [line] := by
  induction line with
  | nil => exact absurd rfl hne
  | cons c line ih =>
    obtain ⟨hc, hrest⟩ := List.ne_and_not_mem_of_not_mem_cons hline
    rw [pieces, if_neg hc.symm]
    cases line with
    | nil => rfl
    | cons d line => rw [ih (by simp) hrest]

theorem pieces_lineFeed {line : List Char} (hline : '\n' ∉ line) (rest : List Char) :
    pieces (line ++ '\n' :: rest) = (line ++ ['\n']) :: pieces rest := by
  induction line with
  | nil => rw [List.nil_append, pieces, if_pos rfl, List.nil_append]
  | cons c line ih =>
    obtain ⟨hc, hrest⟩ := List.ne_and_not_mem_of_not_mem_cons hline
    rw [List.cons_append, pieces, if_neg hc.symm, ih hrest]
    rfl

theorem Pieced.pieces_flatten {ps : List (List Char)} (h : Pieced ps) : pieces ps.flatten = ps := by
  induction h with
  | nil => rfl
  | last hne hline => simpa using pieces_line hne hline
  | cons hline _ ih =>
    rw [List.flatten_cons, List.append_assoc, List.singleton_append, pieces_lineFeed hline, ih]

theorem Pieced.map_append {space : List Char} (hspace : '\n' ∉ space) {ps : List (List Char)}
    (h : Pieced ps) : Pieced (ps.map (space ++ ·)) := by
  have happend : ∀ line, '\n' ∉ line → '\n' ∉ space ++ line := by
    intro line hline hmem
    exact (List.mem_append.mp hmem).elim hspace hline
  induction h with
  | nil => exact .nil
  | last hne hline => exact .last (by simp [hne]) (happend _ hline)
  | cons hline _ ih =>
    rw [List.map_cons, ← List.append_assoc]
    exact .cons (happend _ hline) ih

namespace Indentation

/-- The text with white space put at the start of each line. -/
def indent (space text : List Char) : List Char := (pieces text).flatMap (space ++ ·)

/-- A line that is not blank begins with neither a space nor a tab. -/
def Flush (text : List Char) : Prop :=
  ∃ line ∈ lines text, allBlank line = false ∧ line.head?.any isIndent = false

instance (text : List Char) : Decidable (Flush text) :=
  inferInstanceAs (Decidable (∃ line ∈ lines text, _))

/-- The segments that lead from the indented text to the text. -/
def outdent (space text : List Char) : List Segment :=
  (pieces text).flatMap (fun piece => [.replaced space [], .copied piece])

theorem textBefore_outdent (space text : List Char) :
    textBefore (outdent space text) = indent space text := by
  simp [textBefore, outdent, indent, List.flatMap_assoc]

theorem textAfter_outdent (space text : List Char) : textAfter (outdent space text) = text := by
  simp [textAfter, outdent, List.flatMap_assoc, flatten_pieces]

theorem leading_eq_zero {line : List Char} (h : line.head?.any isIndent = false) :
    leading line = 0 := by
  cases line with
  | nil => rfl
  | cons c line => simpa [leading, List.takeWhile_cons] using h

variable {space : List Char}

theorem isBlank_of_isIndent {c : Char} (h : isIndent c = true) : isBlank c = true := by
  simp only [isIndent, Bool.or_eq_true, beq_iff_eq] at h
  rcases h with rfl | rfl <;> rfl

theorem not_mem_of_isIndent {c : Char} (hindent : ∀ d ∈ space, isIndent d = true)
    (hc : isIndent c = false) : c ∉ space := by
  intro hmem
  rw [hindent c hmem] at hc
  cases hc

theorem leading_append (hindent : ∀ c ∈ space, isIndent c = true) (line : List Char) :
    leading (space ++ line) = space.length + leading line := by
  rw [leading, List.takeWhile_append_of_pos hindent, List.length_append]
  rfl

theorem allBlank_append (hindent : ∀ c ∈ space, isIndent c = true) (line : List Char) :
    allBlank (space ++ line) = allBlank line := by
  have hspace : space.all isBlank = true :=
    List.all_eq_true.mpr fun c hc => isBlank_of_isIndent (hindent c hc)
  rw [allBlank, List.all_append, hspace, Bool.true_and, allBlank]

theorem chomp_append (hindent : ∀ c ∈ space, isIndent c = true) (piece : List Char) :
    chomp (space ++ piece) = space ++ chomp piece := by
  have hlast : ∀ (c : Char) (s : List Char), isIndent c = false →
      ((space ++ s).getLast? = some c ↔ s.getLast? = some c) := by
    intro c s hc
    cases s using List.reverseRecOn with
    | nil =>
      simp only [List.append_nil, List.getLast?_nil, reduceCtorEq, iff_false]
      exact fun h => not_mem_of_isIndent hindent hc (List.mem_of_getLast? h)
    | append_singleton s d => simp [← List.append_assoc]
  simp only [chomp, hlast '\n' piece rfl]
  cases piece using List.reverseRecOn with
  | nil => rfl
  | append_singleton line d =>
    -- White space at the end of `space` is neither a line feed nor a carriage return.
    by_cases hd : d = '\n'
    · simp only [hd, List.getLast?_concat, if_true, ← List.append_assoc, List.dropLast_concat,
        hlast '\r' line rfl]
      cases line using List.reverseRecOn with
      | nil => rfl
      | append_singleton line e =>
        simp only [← List.append_assoc, List.dropLast_concat]
        split
        · rfl
        · exact List.append_assoc _ _ _
    · simp [hd]

theorem pieces_indent (hindent : ∀ c ∈ space, isIndent c = true) (text : List Char) :
    pieces (indent space text) = (pieces text).map (space ++ ·) := by
  have hspace : '\n' ∉ space := not_mem_of_isIndent hindent rfl
  rw [indent, List.flatMap_def]
  exact ((pieces_pieced text).map_append hspace).pieces_flatten

theorem lines_indent (hindent : ∀ c ∈ space, isIndent c = true) (text : List Char) :
    lines (indent space text) = (lines text).map (space ++ ·) := by
  rw [lines, pieces_indent hindent, lines, List.map_map, List.map_map]
  exact List.map_congr_left fun piece _ => chomp_append hindent piece

theorem common?_flush {text : List Char} (h : Flush text) : common? text = some 0 := by
  obtain ⟨line, hline, hblank, hhead⟩ := h
  refine List.min?_eq_some_iff.mpr ⟨?_, fun _ _ => Nat.zero_le _⟩
  rw [← leading_eq_zero hhead]
  exact List.mem_map_of_mem (List.mem_filter.mpr ⟨hline, by simp [hblank]⟩)

theorem common?_indent (hindent : ∀ c ∈ space, isIndent c = true) {text : List Char}
    (h : Flush text) : common? (indent space text) = some space.length := by
  have hfilter : (lines (indent space text)).filter (fun l => !allBlank l) =
      ((lines text).filter (fun l => !allBlank l)).map (space ++ ·) := by
    rw [lines_indent hindent, List.filter_map]
    refine congrArg _ (List.filter_congr fun line _ => ?_)
    rw [Function.comp_apply, allBlank_append hindent]
  have hleading : ((lines (indent space text)).filter (fun l => !allBlank l)).map leading =
      (((lines text).filter (fun l => !allBlank l)).map leading).map (space.length + ·) := by
    rw [hfilter, List.map_map, List.map_map]
    exact List.map_congr_left fun line _ => leading_append hindent line
  obtain ⟨hmem, -⟩ := List.min?_eq_some_iff.mp (common?_flush h)
  rw [common?, hleading]
  refine List.min?_eq_some_iff.mpr ⟨List.mem_map.mpr ⟨0, hmem, rfl⟩, fun n hn => ?_⟩
  obtain ⟨m, -, rfl⟩ := List.mem_map.mp hn
  exact Nat.le_add_right _ _

theorem remove?_flush {text : List Char} (h : Flush text) : remove? text = none := by
  rw [remove?, common?_flush h]

theorem stripSegments_append (hne : space ≠ []) (hindent : ∀ c ∈ space, isIndent c = true)
    (piece : List Char) :
    stripSegments space.length (space ++ piece) = [.replaced space [], .copied piece] := by
  obtain ⟨c, rest, rfl⟩ := List.exists_cons_of_ne_nil hne
  have hmin : min (leading (c :: rest ++ piece)) (c :: rest).length = rest.length + 1 := by
    rw [leading_append hindent]
    exact Nat.min_eq_right (Nat.le_add_right _ _)
  rw [stripSegments, hmin]
  simp

/-- Without its common indentation the indented text is the text. -/
theorem remove?_indent (hne : space ≠ []) (hindent : ∀ c ∈ space, isIndent c = true)
    {text : List Char} (h : Flush text) :
    remove? (indent space text) = some (.ofSegments (outdent space text)) := by
  have hsegments : segments space.length (indent space text) = outdent space text := by
    rw [segments, pieces_indent hindent, List.flatMap_map, outdent]
    simp only [stripSegments_append hne hindent]
  have hlength : space.length = space.length - 1 + 1 := by
    have := List.length_pos_iff.mpr hne
    omega
  rw [remove?, common?_indent hindent h, ← hsegments, hlength]

end Indentation

theorem chomp_subset (piece : List Char) : chomp piece ⊆ piece := by
  have hdrop := List.dropLast_subset piece
  simp only [chomp]
  split
  · split
    · exact List.Subset.trans (List.dropLast_subset _) hdrop
    · exact hdrop
  · exact List.Subset.refl _

theorem allBlank_of_line {text line : List Char} (h : line ∈ lines text)
    (hline : allBlank line = false) : allBlank text = false := by
  obtain ⟨piece, hpiece, rfl⟩ := List.mem_map.mp h
  rw [allBlank, List.all_eq_false] at hline ⊢
  obtain ⟨c, hc, hnot⟩ := hline
  refine ⟨c, ?_, hnot⟩
  rw [← flatten_pieces text]
  exact List.mem_flatten_of_mem hpiece (chomp_subset piece hc)

namespace Indentation

theorem allBlank_indent {space text : List Char} (hindent : ∀ c ∈ space, isIndent c = true)
    (h : Flush text) : allBlank (indent space text) = false := by
  obtain ⟨line, hline, hblank, -⟩ := h
  have hmem : space ++ line ∈ lines (indent space text) := by
    rw [lines_indent hindent]
    exact List.mem_map_of_mem hline
  exact allBlank_of_line hmem (by rw [allBlank_append hindent, hblank])

/-- Where the pieces of a text start, if the first starts at `offset`. -/
def startsFrom (offset : Nat) : List (List Char) → List Nat
  | [] => []
  | p :: ps => offset :: startsFrom (offset + width p) ps

def lineStarts (text : List Char) : List Nat := startsFrom 0 (pieces text)

/-- An offset of the text, moved right by the white space of each line that starts at or before
it. -/
def moved (space text : List Char) (offset : Nat) : Nat :=
  offset + width space * (lineStarts text).countP (· ≤ offset)

theorem countP_startsFrom {start offset : Nat} (hlt : offset < start) (ps : List (List Char)) :
    (startsFrom start ps).countP (· ≤ offset) = 0 := by
  induction ps generalizing start with
  | nil => rfl
  | cons p ps ih =>
    rw [startsFrom, List.countP_cons, ih (by omega), if_neg (by simp; omega)]

theorem back_outdent (space : List Char) (start offset : Nat) (ps : List (List Char)) :
    Segment.back (ps.flatMap (fun piece => [.replaced space [], .copied piece])) offset =
      offset + width space * (startsFrom start ps).countP (· ≤ start + offset) := by
  induction ps generalizing start offset with
  | nil => rfl
  | cons p ps ih =>
    have hcount : (startsFrom start (p :: ps)).countP (· ≤ start + offset) =
        (startsFrom (start + width p) ps).countP (· ≤ start + offset) + 1 := by
      rw [startsFrom]
      exact List.countP_cons_of_pos (by simp)
    rw [List.flatMap_cons, List.cons_append, List.singleton_append, Segment.back, width_nil,
      if_pos (Nat.zero_le _), Nat.sub_zero, Segment.back, hcount]
    by_cases hlt : offset < width p
    · rw [if_pos hlt, countP_startsFrom (by omega)]
      omega
    · have hoffset : start + width p + (offset - width p) = start + offset := by omega
      rw [if_neg hlt, ih (start + width p), hoffset, Nat.mul_add]
      omega

theorem back_eq_moved (space text : List Char) (offset : Nat) :
    Segment.back (outdent space text) offset = moved space text offset := by
  have h := back_outdent space 0 offset (pieces text)
  rwa [Nat.zero_add] at h

theorem moved_monotone (space text : List Char) : Monotone (moved space text) := by
  intro x y h
  rw [← back_eq_moved, ← back_eq_moved]
  exact Segment.back_mono _ h

theorem width_indent (space text : List Char) :
    width (indent space text) = moved space text (width text) := by
  have h := Segment.back_append (outdent space text) [] 0
  rw [List.append_nil, textAfter_outdent, textBefore_outdent, back_eq_moved, Segment.back] at h
  exact h.symm

end Indentation

end CodePattern
