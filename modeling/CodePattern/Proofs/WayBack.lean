import CodePattern.OffsetMap
import CodePattern.Proofs.Position

/-! The way back through a layer of edits, followed segment by segment. It leads from
boundaries of the new text to boundaries of the old one. -/

namespace CodePattern

namespace Segment

/-- The offset of the old text for an offset of the new text of segments. -/
def back : List Segment → Nat → Nat
  | [], offset => offset
  | .copied text :: rest, offset =>
    if offset < width text then offset else width text + back rest (offset - width text)
  | .replaced old new :: rest, offset =>
    if width new ≤ offset then width old + back rest (offset - width new)
    else if offset = 0 then 0 else width old

theorem back_copied (text : List Char) (rest : List Segment) (offset : Nat) :
    back (.copied text :: rest) (width text + offset) = width text + back rest offset := by
  rw [back, if_neg (by omega), Nat.add_sub_cancel_left]

theorem back_only_copied (text : List Char) (offset : Nat) :
    back [.copied text] offset = offset := by
  rw [back, back]
  split <;> omega

theorem back_replaced (old new : List Char) (rest : List Segment) (offset : Nat) :
    back (.replaced old new :: rest) (width new + offset) = width old + back rest offset := by
  rw [back, if_pos (by omega), Nat.add_sub_cancel_left]

theorem back_append (s t : List Segment) (offset : Nat) :
    back (s ++ t) (width (textAfter s) + offset) = width (textBefore s) + back t offset := by
  induction s with
  | nil => simp [textAfter, textBefore]
  | cons x s ih =>
    simp only [List.cons_append, textAfter_cons, textBefore_cons, width_append, Nat.add_assoc]
    cases x with
    | copied text => rw [new_copied, old_copied, back_copied, ih]
    | replaced old new => rw [new_replaced, old_replaced, back_replaced, ih]

theorem back_boundary {segments : List Segment} {rest : List Char} {offset : Nat}
    (h : IsBoundary (textAfter segments ++ rest) offset) :
    IsBoundary (textBefore segments ++ rest) (back segments offset) := by
  induction segments generalizing offset with
  | nil => exact h
  | cons x segments ih =>
    simp only [textAfter_cons, textBefore_cons, List.append_assoc] at h ⊢
    cases x with
    | copied text =>
      rw [back]
      split
      · next hlt => exact (h.left (by rw [new_copied]; omega)).append
      · exact (ih h.sub).add
    | replaced old new =>
      rw [back]
      split
      · exact (ih h.sub).add
      · split
        · exact .zero _
        · exact .width_left _ _

theorem back_mono (segments : List Segment) {x y : Nat} (hle : x ≤ y) :
    back segments x ≤ back segments y := by
  induction segments generalizing x y with
  | nil => exact hle
  | cons s segments ih =>
    cases s with
    | copied text =>
      have hrest := @ih (x - width text) (y - width text) (by omega)
      rw [back, back]
      split <;> split <;> omega
    | replaced old new =>
      rw [back, back]
      by_cases hx : width new ≤ x
      · rw [if_pos hx, if_pos (by omega)]
        exact Nat.add_le_add_left (ih (by omega)) _
      · rw [if_neg hx]
        by_cases hzero : x = 0
        · rw [if_pos hzero]
          exact Nat.zero_le _
        · rw [if_neg hzero]
          split
          · exact Nat.le_add_right _ _
          · exact Nat.le_of_eq (if_neg (by omega)).symm

/-- Beyond the new text, an offset leads as far beyond the old one. -/
theorem back_le (segments : List Segment) (offset : Nat) : back segments offset ≤
    width (textBefore segments) + (offset - width (textAfter segments)) := by
  induction segments generalizing offset with
  | nil => simp [back, textBefore, textAfter]
  | cons s segments ih =>
    simp only [textBefore_cons, textAfter_cons, width_append]
    cases s with
    | copied text =>
      have hrest := ih (offset - width text)
      rw [back, old_copied, new_copied]
      split <;> omega
    | replaced old new =>
      have hrest := ih (offset - width new)
      rw [back, old_replaced, new_replaced]
      split
      · omega
      · split <;> omega

end Segment

theorem editsFrom_cons (newStart oldStart : Nat) (s : Segment) (segments : List Segment) :
    editsFrom newStart oldStart (s :: segments) = editsFrom newStart oldStart [s] ++
      editsFrom (newStart + width s.new) (oldStart + width s.old) segments := by
  simpa [textAfter, textBefore] using editsFrom_append newStart oldStart [s] segments

theorem mem_editsFrom {e : Edit} {newStart oldStart : Nat} {segments : List Segment}
    (h : e ∈ editsFrom newStart oldStart segments) :
    ∃ before old new after, segments = before ++ .replaced old new :: after ∧
      e.newStart = newStart + width (textAfter before) ∧ e.newStop = e.newStart + width new ∧
      e.oldStart = oldStart + width (textBefore before) ∧ e.oldStop = e.oldStart + width old := by
  induction segments generalizing newStart oldStart with
  | nil => simp [editsFrom] at h
  | cons x segments ih =>
    cases x with
    | copied text =>
      obtain ⟨before, old, new, after, rfl, hs⟩ := ih h
      refine ⟨.copied text :: before, old, new, after, rfl, ?_⟩
      simpa [Nat.add_assoc] using hs
    | replaced old new =>
      rcases List.mem_cons.mp h with rfl | h
      · exact ⟨[], old, new, segments, rfl, by simp [textAfter, textBefore]⟩
      · obtain ⟨before, old', new', after, rfl, hs⟩ := ih h
        refine ⟨.replaced old new :: before, old', new', after, rfl, ?_⟩
        simpa [Nat.add_assoc] using hs

theorem le_newStart_of_mem {e : Edit} {newStart oldStart : Nat} {segments : List Segment}
    (h : e ∈ editsFrom newStart oldStart segments) : newStart ≤ e.newStart := by
  obtain ⟨before, _, _, _, _, he, _⟩ := mem_editsFrom h
  omega

theorem le_oldStart_of_mem {e : Edit} {newStart oldStart : Nat} {segments : List Segment}
    (h : e ∈ editsFrom newStart oldStart segments) : oldStart ≤ e.oldStart := by
  obtain ⟨before, _, _, _, _, _, _, he, _⟩ := mem_editsFrom h
  omega

theorem editsFrom_ordered (segments : List Segment) (newStart oldStart : Nat) :
    (editsFrom newStart oldStart segments).Pairwise (fun d e => d.oldStop ≤ e.oldStart) := by
  induction segments generalizing newStart oldStart with
  | nil => exact .nil
  | cons s segments ih =>
    cases s with
    | copied text => exact ih _ _
    | replaced old new => exact .cons (fun e he => le_oldStart_of_mem he) (ih _ _)

/-- Where an offset goes of which the given edit, if any, is the last to start before it. -/
def throughLast (last : Option Edit) (offset : Nat) : Nat :=
  match last with
  | none => offset
  | some e =>
    if e.newStop ≤ offset then (offset - e.newStop + e.oldStop) % wordSize
    else if offset = e.newStart then e.oldStart
    else e.oldStop

theorem throughLayer_append {s t : List Edit} {offset : Nat}
    (hs : ∀ e ∈ s, e.newStart ≤ offset) (ht : ∀ e ∈ t, offset < e.newStart) :
    throughLayer (s ++ t) offset = throughLast s.getLast? offset := by
  have hcount : bisect (fun e => decide (e.newStart ≤ offset)) (s ++ t) = s.length :=
    bisect_append (fun e he => decide_eq_true (hs e he))
      (fun e he => decide_eq_false (Nat.not_le.mpr (ht e he)))
  rw [throughLayer, hcount]
  cases s using List.reverseRecOn with
  | nil => rfl
  | append_singleton s e => simp [throughLast]

/-- The edits of segments, cut at an offset. The last edit before the cut, or the one
that came before the segments, decides where the offset goes. -/
theorem editsFrom_cut (segments : List Segment) (newStart oldStart offset : Nat)
    (last : Option Edit)
    (hlast : ∀ k, oldStart + k < wordSize → throughLast last (newStart + k) = oldStart + k)
    (hsize : oldStart + width (textBefore segments) +
      (offset - width (textAfter segments)) < wordSize) :
    ∃ s t, editsFrom newStart oldStart segments = s ++ t ∧
      (∀ e ∈ s, e.newStart ≤ newStart + offset) ∧ (∀ e ∈ t, newStart + offset < e.newStart) ∧
      throughLast (s.getLast?.or last) (newStart + offset) =
        oldStart + Segment.back segments offset := by
  induction segments generalizing newStart oldStart offset last with
  | nil =>
    simp only [textBefore, textAfter, List.flatMap_nil, width_nil] at hsize
    exact ⟨[], [], rfl, by simp, by simp, hlast offset (by omega)⟩
  | cons x segments ih =>
    simp only [textBefore_cons, textAfter_cons, width_append] at hsize
    cases x with
    | copied text =>
      simp only [Segment.old_copied, Segment.new_copied] at hsize
      rw [Segment.back, editsFrom]
      split
      · next hlt =>
        refine ⟨[], _, rfl, by simp, fun e he => ?_, hlast offset (by omega)⟩
        have := le_newStart_of_mem he
        omega
      · next hge =>
        have hoff : newStart + width text + (offset - width text) = newStart + offset := by omega
        obtain ⟨s, t, he, hs, ht, hthrough⟩ := ih (newStart + width text) (oldStart + width text)
          (offset - width text) last
          (fun k hk => by
            have := hlast (width text + k) (by omega)
            simpa only [Nat.add_assoc] using this)
          (by omega)
        rw [hoff] at hs ht hthrough
        exact ⟨s, t, he, hs, ht, by rw [hthrough, Nat.add_assoc]⟩
    | replaced old new =>
      simp only [Segment.old_replaced, Segment.new_replaced] at hsize
      rw [Segment.back, editsFrom]
      split
      · next hle =>
        have hoff : newStart + width new + (offset - width new) = newStart + offset := by omega
        obtain ⟨s, t, he, hs, ht, hthrough⟩ := ih (newStart + width new) (oldStart + width old)
          (offset - width new)
          (some ⟨newStart, newStart + width new, oldStart, oldStart + width old⟩)
          (fun k hk => by
            have hk' : newStart + width new ≤ newStart + width new + k := by omega
            simp only [throughLast, hk', if_true, Nat.add_sub_cancel_left]
            rw [Nat.add_comm, Nat.mod_eq_of_lt hk])
          (by omega)
        rw [hoff] at hs ht hthrough
        refine ⟨_ :: s, t, congrArg _ he, ?_, ht, ?_⟩
        · intro e hmem
          rcases List.mem_cons.mp hmem with rfl | hmem
          · exact Nat.le_add_right _ _
          · exact hs e hmem
        · rw [List.getLast?_cons, ← Nat.add_assoc, ← hthrough]
          cases s.getLast? <;> rfl
      · next hgt =>
        refine ⟨[⟨newStart, newStart + width new, oldStart, oldStart + width old⟩], _, rfl, by simp,
          fun e he => ?_, ?_⟩
        · have := le_newStart_of_mem he
          omega
        · have hstop : ¬ newStart + width new ≤ newStart + offset := by omega
          simp only [List.getLast?_singleton, Option.some_or, throughLast, hstop, if_false]
          by_cases hz : offset = 0
          · simp [hz]
          · simp [hz]

/-- As long as no sum leaves the 64 bits of an offset, a layer leads back as its segments
do. -/
theorem throughLayer_editsOf {segments : List Segment} {offset : Nat}
    (hsize : width (textBefore segments) + (offset - width (textAfter segments)) < wordSize) :
    throughLayer (editsOf segments) offset = Segment.back segments offset := by
  obtain ⟨s, t, he, hs, ht, hthrough⟩ := editsFrom_cut segments 0 0 offset none
    (fun k _ => rfl) (by omega)
  rw [Nat.zero_add] at hs ht hthrough
  rw [editsOf, he, throughLayer_append hs ht]
  simpa using hthrough

end CodePattern
