import CodePattern.Proofs.WayBack
import Mathlib.Data.List.TakeWhile

/-! Offset maps between texts of octets, of which each comes about from the one before it
by a layer of edits. Offsets keep their order on the way back, octets that all layers copy
lead to where they came from, and what lies beyond the last text leads to the end of the
first. -/

namespace CodePattern

/-- Edits that make a new text of an old one, both from the given positions on. What lies
between the edits is copied. -/
inductive Script : Nat → Nat → List UInt8 → List UInt8 → List Edit → Prop
  | copied (newStart oldStart : Nat) (text : List UInt8) : Script newStart oldStart text text []
  | edit {newStart oldStart : Nat} {e : Edit} (gap old new : List UInt8)
      {oldRest newRest : List UInt8} {edits : List Edit}
      (hnewStart : e.newStart = newStart + gap.length)
      (hnewStop : e.newStop = e.newStart + new.length)
      (holdStart : e.oldStart = oldStart + gap.length)
      (holdStop : e.oldStop = e.oldStart + old.length)
      (h : Script e.newStop e.oldStop oldRest newRest edits) :
      Script newStart oldStart (gap ++ (old ++ oldRest)) (gap ++ (new ++ newRest)) (e :: edits)

/-- The octet at `i` of the new text is the one at `j` of the old text, and no edit
covers it. -/
def Copied (newStart oldStart : Nat) : List Edit → Nat → Nat → Prop
  | [], i, j => newStart ≤ i ∧ j = oldStart + (i - newStart)
  | e :: edits, i, j =>
    newStart ≤ i ∧ i < e.newStart ∧ j = oldStart + (i - newStart) ∨
      Copied e.newStop e.oldStop edits i j

def lastBefore (edits : List Edit) (offset : Nat) : Option Edit :=
  (edits.takeWhile (·.newStart ≤ offset)).getLast?

/-- The sum that the edit before an offset asks for, if any, does not leave the 64 bits of
an offset. -/
def Fits (edits : List Edit) (offset : Nat) : Prop :=
  ∀ e ∈ lastBefore edits offset, e.newStop ≤ offset → offset - e.newStop + e.oldStop < wordSize

instance (edits : List Edit) (offset : Nat) : Decidable (Fits edits offset) :=
  inferInstanceAs (Decidable (∀ e ∈ lastBefore edits offset, _ → _))

/-- Where an offset goes if no sum is too large. -/
def wayBack (newStart oldStart : Nat) : List Edit → Nat → Nat
  | [], offset => oldStart + (offset - newStart)
  | e :: edits, offset =>
    if offset < e.newStart then oldStart + (offset - newStart)
    else if e.newStop ≤ offset then wayBack e.newStop e.oldStop edits offset
    else if offset = e.newStart then e.oldStart
    else e.oldStop

theorem wayBack_cases (newStart oldStart : Nat) (e : Edit) (edits : List Edit) (offset : Nat) :
    offset < e.newStart ∧
        wayBack newStart oldStart (e :: edits) offset = oldStart + (offset - newStart) ∨
      e.newStart ≤ offset ∧ e.newStop ≤ offset ∧
        wayBack newStart oldStart (e :: edits) offset =
          wayBack e.newStop e.oldStop edits offset ∨
      offset = e.newStart ∧ offset < e.newStop ∧
        wayBack newStart oldStart (e :: edits) offset = e.oldStart ∨
      e.newStart < offset ∧ offset < e.newStop ∧
        wayBack newStart oldStart (e :: edits) offset = e.oldStop := by
  rw [wayBack]
  split
  · omega
  · split
    · omega
    · split <;> omega

theorem lastBefore_cons_of_lt {e : Edit} {edits : List Edit} {offset : Nat}
    (h : offset < e.newStart) : lastBefore (e :: edits) offset = none := by
  simp [lastBefore, h]

theorem lastBefore_cons_of_le {e : Edit} {edits : List Edit} {offset : Nat}
    (h : e.newStart ≤ offset) :
    lastBefore (e :: edits) offset = (lastBefore edits offset).or (some e) := by
  rw [lastBefore, lastBefore, List.takeWhile_cons_of_pos (by simpa using h), List.getLast?_cons]
  cases (edits.takeWhile (·.newStart ≤ offset)).getLast? <;> rfl

theorem lt_newStart_of_mem_dropWhile {edits : List Edit} {offset : Nat}
    (h : edits.Pairwise (fun d e => d.newStart ≤ e.newStart)) :
    ∀ e ∈ edits.dropWhile (·.newStart ≤ offset), offset < e.newStart := by
  induction edits with
  | nil => simp
  | cons d edits ih =>
    obtain ⟨hd, hrest⟩ := List.pairwise_cons.mp h
    by_cases hle : d.newStart ≤ offset
    · rw [List.dropWhile_cons_of_pos (by simpa using hle)]
      exact ih hrest
    · rw [List.dropWhile_cons_of_neg (by simpa using hle)]
      intro e he
      rcases List.mem_cons.mp he with rfl | he
      · omega
      · have := hd e he
        omega

namespace Script

variable {newStart oldStart : Nat} {old new : List UInt8} {edits : List Edit}

theorem newStart_le (h : Script newStart oldStart old new edits) :
    ∀ e ∈ edits, newStart ≤ e.newStart := by
  induction h with
  | copied => simp
  | edit _ _ _ hnewStart hnewStop _ _ _ ih =>
    intro d hd
    rcases List.mem_cons.mp hd with rfl | hd
    · omega
    · have := ih d hd
      omega

theorem sorted (h : Script newStart oldStart old new edits) :
    edits.Pairwise (fun d e => d.newStart ≤ e.newStart) := by
  induction h with
  | copied => exact .nil
  | edit _ _ _ _ hnewStop _ _ h ih =>
    refine .cons (fun d hd => ?_) ih
    have := h.newStart_le d hd
    omega

theorem lastBefore_eq_none {offset : Nat} (h : Script newStart oldStart old new edits)
    (hlt : offset < newStart) : lastBefore edits offset = none := by
  cases edits with
  | nil => rfl
  | cons e edits =>
    have := h.newStart_le e List.mem_cons_self
    exact lastBefore_cons_of_lt (by omega)

theorem throughLayer_eq (h : Script newStart oldStart old new edits) (offset : Nat) :
    throughLayer edits offset = throughLast (lastBefore edits offset) offset := by
  have hbefore : ∀ e ∈ edits.takeWhile (·.newStart ≤ offset), e.newStart ≤ offset :=
    fun e he => by simpa using List.mem_takeWhile_imp he
  rw [lastBefore, ← throughLayer_append hbefore (lt_newStart_of_mem_dropWhile h.sorted),
    List.takeWhile_append_dropWhile]

/-- The last edit before an offset, or one that came before all edits, decides where the
offset goes. -/
theorem throughLast_eq_wayBack {offset : Nat} {last : Option Edit}
    (h : Script newStart oldStart old new edits)
    (hlast : (∀ e ∈ last, e.newStop ≤ offset → offset - e.newStop + e.oldStop < wordSize) →
      throughLast last offset = oldStart + (offset - newStart))
    (hfits : ∀ e ∈ (lastBefore edits offset).or last, e.newStop ≤ offset →
      offset - e.newStop + e.oldStop < wordSize) :
    throughLast ((lastBefore edits offset).or last) offset =
      wayBack newStart oldStart edits offset := by
  induction h generalizing last with
  | copied => exact hlast hfits
  | edit _ _ _ _ _ _ _ h ih =>
    rw [wayBack]
    split
    · next hlt =>
      rw [lastBefore_cons_of_lt hlt] at hfits ⊢
      exact hlast hfits
    · next hge =>
      rw [lastBefore_cons_of_le (by omega), Option.or_assoc, Option.some_or] at hfits ⊢
      split
      · next hle =>
        refine ih (fun hsum => ?_) hfits
        have hsum := hsum _ rfl hle
        simp only [throughLast, hle, if_true]
        rw [Nat.mod_eq_of_lt hsum, Nat.add_comm]
      · next hlt =>
        rw [h.lastBefore_eq_none (by omega), Option.none_or]
        simp only [throughLast, if_neg hlt]

theorem throughLayer_eq_wayBack {offset : Nat} (h : Script 0 0 old new edits)
    (hfits : Fits edits offset) : throughLayer edits offset = wayBack 0 0 edits offset := by
  have hthrough : throughLast ((lastBefore edits offset).or none) offset =
      wayBack 0 0 edits offset :=
    h.throughLast_eq_wayBack (fun _ => by simp [throughLast]) (by simpa [Fits] using hfits)
  rw [h.throughLayer_eq, ← hthrough, Option.or_none]

theorem le_wayBack (h : Script newStart oldStart old new edits) (offset : Nat) :
    oldStart ≤ wayBack newStart oldStart edits offset := by
  induction h with
  | copied => exact Nat.le_add_right _ _
  | @edit newStart oldStart e _ _ _ _ _ edits _ _ _ _ _ ih =>
    have hcases := wayBack_cases newStart oldStart e edits offset
    omega

theorem wayBack_mono (h : Script newStart oldStart old new edits) {x y : Nat} (hle : x ≤ y) :
    wayBack newStart oldStart edits x ≤ wayBack newStart oldStart edits y := by
  induction h with
  | copied =>
    simp only [wayBack]
    omega
  | @edit newStart oldStart e _ _ _ _ _ edits _ _ _ _ h ih =>
    -- Beyond an edit, nothing leads back to before its end.
    have hrest := h.le_wayBack y
    have hx := wayBack_cases newStart oldStart e edits x
    have hy := wayBack_cases newStart oldStart e edits y
    omega

theorem wayBack_end {offset : Nat} (h : Script newStart oldStart old new edits)
    (hle : newStart + new.length ≤ offset) : wayBack newStart oldStart edits offset =
      oldStart + old.length + (offset - (newStart + new.length)) := by
  induction h with
  | copied =>
    simp only [wayBack]
    omega
  | edit _ _ _ _ _ _ _ _ ih =>
    simp only [List.length_append] at hle ⊢
    rw [wayBack, if_neg (by omega), if_pos (by omega), ih (by omega)]
    omega

end Script

section Copied

variable {newStart oldStart i j : Nat} {old new : List UInt8} {edits : List Edit}

theorem Copied.newStart_le (hs : Script newStart oldStart old new edits)
    (h : Copied newStart oldStart edits i j) : newStart ≤ i := by
  induction hs with
  | copied => exact h.1
  | edit _ _ _ _ _ _ _ _ ih =>
    rcases h with h | h
    · exact h.1
    · have := ih h
      omega

theorem wayBack_copied (hs : Script newStart oldStart old new edits)
    (h : Copied newStart oldStart edits i j) : wayBack newStart oldStart edits i = j := by
  induction hs with
  | copied => exact h.2.symm
  | edit _ _ _ _ _ _ _ hs ih =>
    rw [wayBack]
    rcases h with ⟨-, hlt, rfl⟩ | h
    · rw [if_pos hlt]
    · have := h.newStart_le hs
      rw [if_neg (by omega), if_pos this, ih h]

theorem octet_copied (hs : Script newStart oldStart old new edits)
    (h : Copied newStart oldStart edits i j) :
    oldStart ≤ j ∧ new[i - newStart]? = old[j - oldStart]? := by
  induction hs with
  | copied =>
    obtain ⟨-, rfl⟩ := h
    exact ⟨Nat.le_add_right _ _, by rw [Nat.add_sub_cancel_left]⟩
  | edit gap old new hnewStart hnewStop holdStart holdStop hs ih =>
    rcases h with ⟨hle, hlt, rfl⟩ | h
    · rw [Nat.add_sub_cancel_left, List.getElem?_append_left (by omega),
        List.getElem?_append_left (by omega)]
      exact ⟨Nat.le_add_right _ _, rfl⟩
    · have hi := h.newStart_le hs
      obtain ⟨hj, hoctet⟩ := ih h
      refine ⟨by omega, ?_⟩
      rw [List.getElem?_append_right (by omega), List.getElem?_append_right (by omega),
        List.getElem?_append_right (by omega), List.getElem?_append_right (by omega)]
      rw [hnewStop, hnewStart, holdStop, holdStart] at hoctet
      simpa only [Nat.sub_sub, Nat.add_assoc] using hoctet

end Copied

/-- The last text comes about from the first one by layers of edits, the first layer being
the first in the list. -/
inductive Chain : List UInt8 → List (List Edit) → List UInt8 → Prop
  | nil (text : List UInt8) : Chain text [] text
  | cons {old mid new : List UInt8} {edits : List Edit} {layers : List (List Edit)}
      (h : Script 0 0 old mid edits) (hrest : Chain mid layers new) :
      Chain old (edits :: layers) new

def CopiedThrough : List (List Edit) → Nat → Nat → Prop
  | [], i, j => i = j
  | edits :: layers, i, j => ∃ k, CopiedThrough layers i k ∧ Copied 0 0 edits k j

/-- On the way back through the layers, no sum leaves the 64 bits of an offset. -/
def FitsAll : List (List Edit) → Nat → Prop
  | [], _ => True
  | edits :: layers, offset => FitsAll layers offset ∧ Fits edits (layers.foldr throughLayer offset)

instance decidableFitsAll : (layers : List (List Edit)) → (offset : Nat) →
    Decidable (FitsAll layers offset)
  | [], _ => .isTrue trivial
  | edits :: layers, offset =>
    have := decidableFitsAll layers offset
    inferInstanceAs (Decidable (_ ∧ Fits edits (layers.foldr throughLayer offset)))

namespace Chain

variable {old new : List UInt8} {layers : List (List Edit)}

theorem back_mono (h : Chain old layers new) {x y : Nat} (hx : FitsAll layers x)
    (hy : FitsAll layers y) (hle : x ≤ y) :
    layers.foldr throughLayer x ≤ layers.foldr throughLayer y := by
  induction h with
  | nil => exact hle
  | cons h _ ih =>
    rw [List.foldr_cons, List.foldr_cons, h.throughLayer_eq_wayBack hx.2,
      h.throughLayer_eq_wayBack hy.2]
    exact h.wayBack_mono (ih hx.1 hy.1)

theorem back_end (h : Chain old layers new) {offset : Nat} (hfits : FitsAll layers offset)
    (hle : new.length ≤ offset) : old.length ≤ layers.foldr throughLayer offset := by
  induction h with
  | nil => exact hle
  | cons h _ ih =>
    have hmid := ih hfits.1 hle
    rw [List.foldr_cons, h.throughLayer_eq_wayBack hfits.2, h.wayBack_end (by omega)]
    omega

theorem back_copied (h : Chain old layers new) {i j : Nat} (hfits : FitsAll layers i)
    (hcopied : CopiedThrough layers i j) :
    layers.foldr throughLayer i = j ∧ new[i]? = old[j]? := by
  induction h generalizing j with
  | nil => exact ⟨hcopied, congrArg _ hcopied⟩
  | cons h _ ih =>
    obtain ⟨k, hk, hj⟩ := hcopied
    obtain ⟨hback, hoctet⟩ := ih hfits.1 hk
    have hfit := hfits.2
    rw [hback] at hfit
    rw [List.foldr_cons, hback, h.throughLayer_eq_wayBack hfit]
    exact ⟨wayBack_copied h hj, hoctet.trans (octet_copied h hj).2⟩

end Chain

namespace OffsetMap

theorem back_push (m : OffsetMap) (edits : List Edit) (offset : Nat) :
    (m.push edits).layers.foldr throughLayer offset =
      m.layers.foldr throughLayer (throughLayer edits offset) := by
  cases edits with
  | nil => rfl
  | cons e edits => simp [push]

theorem locate_foldl_push (m : OffsetMap) (layers : List (List Edit)) (offset : Nat) :
    (layers.foldl push m).locate offset =
      min (m.layers.foldr throughLayer (layers.foldr throughLayer (offset - m.opening)))
        m.limit := by
  induction layers generalizing m with
  | nil => rfl
  | cons edits layers ih =>
    have hsame : (m.push edits).opening = m.opening ∧ (m.push edits).limit = m.limit := by
      cases edits <;> exact ⟨rfl, rfl⟩
    rw [List.foldl_cons, ih, back_push, hsame.1, hsame.2, List.foldr_cons]

/-- An offset map over layers of edits, as far as no sum leaves the 64 bits of an offset. -/
theorem locate_chain {old new : List UInt8} {layers : List (List Edit)} (h : Chain old layers new)
    (opening : Nat) :
    let m := layers.foldl push ((identity old.length).withOpening opening)
    let fits := fun offset => FitsAll layers (offset - opening)
    (∀ x y, fits x → fits y → x ≤ y → m.locate x ≤ m.locate y) ∧
      (∀ x, m.locate x ≤ old.length) ∧
      (∀ x ≤ opening, m.locate x = m.locate opening) ∧
      (∀ x, fits x → opening + new.length ≤ x → m.locate x = old.length) ∧
      ∀ i j octet, fits (opening + i) → new[i]? = some octet → CopiedThrough layers i j →
        m.locate (opening + i) = j ∧ old[j]? = some octet := by
  intro m fits
  have hlocate : ∀ x, m.locate x = min (layers.foldr throughLayer (x - opening)) old.length :=
    fun x => locate_foldl_push _ layers x
  refine ⟨fun x y hx hy hle => ?_, fun x => ?_, fun x hle => ?_, fun x hx hle => ?_,
    fun i j octet hi hnew hcopied => ?_⟩
  · have := h.back_mono hx hy (Nat.sub_le_sub_right hle opening)
    rw [hlocate, hlocate]
    omega
  · rw [hlocate]
    exact Nat.min_le_right _ _
  · rw [hlocate, hlocate, Nat.sub_eq_zero_of_le hle, Nat.sub_self]
  · have := h.back_end hx (by omega)
    rw [hlocate]
    omega
  · simp only [fits, Nat.add_sub_cancel_left] at hi
    obtain ⟨hback, hoctet⟩ := h.back_copied hi hcopied
    have hold : old[j]? = some octet := by rw [← hoctet, hnew]
    obtain ⟨hlt, -⟩ := List.getElem?_eq_some_iff.mp hold
    refine ⟨?_, hold⟩
    rw [hlocate, Nat.add_sub_cancel_left, hback]
    omega

/-- The text `  $X;` loses its indentation, and then a placeholder replaces the variable. -/
theorem locate_chain_variable :
    let old : List UInt8 := [32, 32, 36, 88, 59]
    let new : List UInt8 := [95, 95, 109, 118, 95, 88, 59]
    let layers : List (List Edit) := [[⟨0, 0, 0, 2⟩], [⟨0, 6, 0, 2⟩]]
    let m := layers.foldl push ((identity 5).withOpening 6)
    Chain old layers new ∧ (∀ x ≤ 6, m.locate x = 2) ∧ (∀ x ≤ 12, m.locate x ≤ 4) ∧
      m.locate 12 = 4 ∧ old[4]? = some 59 ∧ m.locate 13 = 5 := by
  intro old new layers m
  have hchain : Chain old layers new :=
    .cons (.edit [] [32, 32] [] rfl rfl rfl rfl (.copied 0 2 _))
      (.cons (.edit [] [36, 88] [95, 95, 109, 118, 95, 88] rfl rfl rfl rfl (.copied 6 2 _))
        (.nil _))
  have hfits : ∀ x ≤ 12, FitsAll layers (x - 6) := by decide
  obtain ⟨hmono, -, hopening, hend, hcopied⟩ := locate_chain hchain 6
  obtain ⟨hlocate, hoctet⟩ := hcopied 6 4 59 (by decide) rfl
    ⟨2, ⟨6, rfl, .inr ⟨by decide, rfl⟩⟩, .inr ⟨by decide, rfl⟩⟩
  refine ⟨hchain, fun x hx => hopening x hx, fun x hx => ?_, hlocate, hoctet,
    hend 13 (by decide) (by decide)⟩
  rw [← hlocate]
  exact hmono x 12 (hfits x hx) (hfits 12 (Nat.le_refl _)) hx

end OffsetMap

end CodePattern
