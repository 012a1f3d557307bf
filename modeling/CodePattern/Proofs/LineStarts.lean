import CodePattern.Proofs.AsciiOctets
import CodePattern.Span
import Mathlib.Data.List.Induction

/-! Where lines start. The octets tell the line starts of a text as well as its characters do, and
they also tell which of the starts lie before an offset within a character. -/

namespace CodePattern

/-- Where lines start behind the line feeds among octets. -/
def startsAfter : Nat → List UInt8 → List Nat
  | _, [] => []
  | offset, b :: bs =>
    if b = lineFeed then (offset + 1) :: startsAfter (offset + 1) bs
    else startsAfter (offset + 1) bs

section Starts

variable {offset n : Nat} {bs : List UInt8}

theorem startsAfter_append (offset : Nat) (s t : List UInt8) :
    startsAfter offset (s ++ t) = startsAfter offset s ++ startsAfter (offset + s.length) t := by
  induction s generalizing offset with
  | nil => simp [startsAfter]
  | cons b s ih =>
    have hlength : offset + (s.length + 1) = offset + 1 + s.length := by omega
    by_cases hb : b = lineFeed <;> simp [startsAfter, hb, ih, hlength]

theorem length_startsAfter (offset : Nat) (bs : List UInt8) :
    (startsAfter offset bs).length = bs.count lineFeed := by
  induction bs generalizing offset with
  | nil => rfl
  | cons b bs ih => by_cases hb : b = lineFeed <;> simp [startsAfter, hb, ih]

theorem startsAfter_eq_nil (h : lineFeed ∉ bs) : startsAfter offset bs = [] := by
  rw [← List.length_eq_zero_iff, length_startsAfter, List.count_eq_zero_of_not_mem h]

theorem mem_startsAfter (h : n ∈ startsAfter offset bs) :
    offset < n ∧ n ≤ offset + bs.length := by
  induction bs generalizing offset with
  | nil => simp [startsAfter] at h
  | cons b bs ih =>
    have hrest : n = offset + 1 ∨ n ∈ startsAfter (offset + 1) bs := by
      by_cases hb : b = lineFeed
      · simpa [startsAfter, hb] using h
      · exact .inr (by simpa [startsAfter, hb] using h)
    rw [List.length_cons]
    rcases hrest with rfl | hrest
    · omega
    · have := ih hrest
      omega

/-- The last start lies behind the last line feed. -/
theorem getLastD_startsAfter (bs : List UInt8) :
    let start := (startsAfter 0 bs).getLastD 0
    (start = 0 ∨ ∃ i, start = i + 1 ∧ bs[i]? = some lineFeed) ∧
      ∀ i, start ≤ i → bs[i]? ≠ some lineFeed := by
  induction bs using List.reverseRecOn with
  | nil => simp [startsAfter]
  | append_singleton bs b ih =>
    rw [startsAfter_append]
    by_cases hb : b = lineFeed
    · subst hb
      refine ⟨.inr ⟨bs.length, by simp [startsAfter], by simp⟩, fun i hi => ?_⟩
      have hlength : (bs ++ [lineFeed]).length ≤ i := by simpa [startsAfter] using hi
      simp [List.getElem?_eq_none hlength]
    · obtain ⟨hafter, hfree⟩ := ih
      simp only [startsAfter, hb, if_false, List.append_nil]
      refine ⟨hafter.imp id ?_, fun i hi => ?_⟩
      · rintro ⟨i, hstart, hi⟩
        exact ⟨i, hstart, by rw [List.getElem?_append_left (List.getElem?_eq_some_iff.mp hi).1, hi]⟩
      · by_cases hlt : i < bs.length
        · rw [List.getElem?_append_left hlt]
          exact hfree i hi
        · rw [List.getElem?_append_right (by omega), List.getElem?_singleton]
          split <;> simp [hb]

end Starts

theorem lineStartsFrom_eq (offset : Nat) (text : List Char) :
    lineStartsFrom offset text = startsAfter offset (octets text) := by
  induction text generalizing offset with
  | nil => rfl
  | cons c text ih =>
    rw [octets_cons, startsAfter_append, lineStartsFrom]
    have hlength : (octetsOf c).length = c.utf8Size := String.length_utf8EncodeChar c
    by_cases hc : c = '\n'
    · subst hc
      rw [if_pos rfl, ih]
      rfl
    · have hfree : lineFeed ∉ octetsOf c :=
        fun h => hc ((eq_octet_iff (x := '\n') (by decide) h).mp rfl)
      rw [if_neg hc, ih, startsAfter_eq_nil hfree, List.nil_append, hlength]

theorem lineStartsFrom_append (offset : Nat) (s t : List Char) :
    lineStartsFrom offset (s ++ t) =
      lineStartsFrom offset s ++ lineStartsFrom (offset + width s) t := by
  simp only [lineStartsFrom_eq, octets_append, startsAfter_append, length_octets]

theorem length_lineStartsFrom (offset : Nat) (s : List Char) :
    (lineStartsFrom offset s).length = s.count '\n' := by
  rw [lineStartsFrom_eq, length_startsAfter]
  exact count_octets (x := '\n') (by decide) s

/-- The starts behind the line feeds before an offset come first, and the others lie behind the
offset. -/
theorem exists_starts_eq (text : List Char) (offset : Nat) :
    ∃ later, (LineTable.ofText text).laterStarts =
        startsAfter 0 ((octets text).take offset) ++ later ∧
      (∀ n ∈ startsAfter 0 ((octets text).take offset), n ≤ offset) ∧
      ∀ n ∈ later, offset < n := by
  refine ⟨startsAfter ((octets text).take offset).length ((octets text).drop offset), ?_,
    fun n hn => ?_, fun n hn => ?_⟩
  · have hsplit := startsAfter_append 0 ((octets text).take offset) ((octets text).drop offset)
    rw [List.take_append_drop, Nat.zero_add] at hsplit
    exact (lineStartsFrom_eq 0 text).trans hsplit
  · have hle := (mem_startsAfter hn).2
    have htake := List.length_take_le offset (octets text)
    omega
  · have hlt := mem_startsAfter hn
    rw [List.length_take, List.length_drop] at hlt
    omega

theorem LineTable.startsUpTo_eq (text : List Char) (offset : Nat) :
    (LineTable.ofText text).startsUpTo offset = 0 :: startsAfter 0 ((octets text).take offset) := by
  obtain ⟨later, hsplit, hbefore, hbehind⟩ := exists_starts_eq text offset
  have hlater : later.takeWhile (· ≤ offset) = [] := by
    cases later with
    | nil => rfl
    | cons n later =>
      have hn := hbehind n List.mem_cons_self
      exact List.takeWhile_cons_of_neg (by simpa using hn)
  rw [LineTable.startsUpTo, hsplit, List.takeWhile_append_of_pos (by simpa using hbefore), hlater,
    List.append_nil]

end CodePattern
