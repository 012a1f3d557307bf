import CodePattern.Metavariable
import CodePattern.Text.Octets
import CodePattern.Text.Width

/-! A character below 128 is one octet and any other is a sequence of octets from 128 on, so the
octets of a text tell where such a character stands and how far a word or a line goes. -/

namespace CodePattern

/-- The octet of a character below 128. -/
def octet (c : Char) : UInt8 := c.toNat.toUInt8

def IsAscii (c : Char) : Prop := c.toNat < 0x80

instance : DecidablePred IsAscii := fun c => inferInstanceAs (Decidable (c.toNat < 0x80))

section Octets

variable {c x : Char} {cs : List Char}

theorem octetsOf_ascii (h : IsAscii c) : octetsOf c = [octet c] := by
  have hsmall : c.val.toNat ≤ 0x7F := Nat.lt_succ_iff.mp h
  rw [octetsOf, String.utf8EncodeChar, if_pos hsmall]
  rfl

theorem toNat_octet (h : IsAscii c) : (octet c).toNat = c.toNat :=
  UInt8.toNat_ofNat_of_lt' (Nat.lt_trans h (by decide))

/-- Every octet of a longer sequence is at least 128. -/
theorem high_of_mem_octetsOf (h : ¬ IsAscii c) : ∀ b ∈ octetsOf c, 0x80 ≤ b.toNat := by
  have hhigh : ∀ n k low, 0 < k → 0x80 ≤ low → low + k ≤ 0x100 →
      0x80 ≤ (UInt8.ofNat (n % k + low)).toNat := by
    intro n k low hk hlow hle
    have hmod := Nat.mod_lt n hk
    rw [UInt8.toNat_ofNat_of_lt' (show n % k + low < 0x100 by omega)]
    omega
  have hlarge : ¬ c.val.toNat ≤ 0x7F := fun hle => h (Nat.lt_succ_iff.mpr hle)
  rw [octetsOf, String.utf8EncodeChar, if_neg hlarge]
  split
  · simp only [List.forall_mem_cons, List.not_mem_nil, false_imp_iff, implies_true, and_true]
    and_intros <;> exact hhigh _ _ _ (by decide) (by decide) (by decide)
  · split <;> simp only [List.forall_mem_cons, List.not_mem_nil, false_imp_iff, implies_true,
      and_true] <;> and_intros <;> exact hhigh _ _ _ (by decide) (by decide) (by decide)

theorem octetsOf_ne_nil (c : Char) : octetsOf c ≠ [] := by
  have hlength := String.length_utf8EncodeChar c
  have hpos := c.utf8Size_pos
  rw [octetsOf]
  exact List.ne_nil_of_length_pos (by omega)

theorem octets_cons (c : Char) (cs : List Char) : octets (c :: cs) = octetsOf c ++ octets cs := rfl

theorem octets_append (s t : List Char) : octets (s ++ t) = octets s ++ octets t :=
  List.flatMap_append

theorem length_octets (cs : List Char) : (octets cs).length = width cs := by
  induction cs with
  | nil => rfl
  | cons c cs ih => rw [octets_cons, List.length_append, ih, octetsOf, String.length_utf8EncodeChar,
      width_cons]

theorem octets_ascii_cons (h : IsAscii c) (cs : List Char) :
    octets (c :: cs) = octet c :: octets cs := by
  rw [octets_cons, octetsOf_ascii h]
  rfl

theorem width_ascii (h : ∀ c ∈ cs, IsAscii c) : width cs = cs.length := by
  induction cs with
  | nil => rfl
  | cons c cs ih =>
    have hc : octets (c :: cs) = octet c :: octets cs :=
      octets_ascii_cons (h c List.mem_cons_self) cs
    rw [← length_octets, hc, List.length_cons, length_octets,
      ih fun x hx => h x (List.mem_cons_of_mem _ hx), List.length_cons]

theorem octet_inj (hc : IsAscii c) (hx : IsAscii x) : octet c = octet x ↔ c = x := by
  rw [← UInt8.toNat_inj, toNat_octet hc, toNat_octet hx, Char.toNat_inj]

/-- Only in an ASCII character does its octet stand. -/
theorem eq_octet_iff {b : UInt8} (hx : IsAscii x) (hb : b ∈ octetsOf c) : b = octet x ↔ c = x := by
  by_cases hc : IsAscii c
  · rw [octetsOf_ascii hc, List.mem_singleton] at hb
    rw [hb, octet_inj hc hx]
  · refine ⟨fun he => ?_, fun he => absurd (he ▸ hx) hc⟩
    have hhigh := high_of_mem_octetsOf hc b hb
    rw [he, toNat_octet hx] at hhigh
    exact absurd hx (Nat.not_lt.mpr hhigh)

theorem exists_octet_cons (c : Char) (cs : List Char) : ∃ b after, octets (c :: cs) = b :: after ∧
    b ∈ octetsOf c ∧ (IsAscii c → after = octets cs) := by
  obtain ⟨b, after, hb⟩ := List.exists_cons_of_ne_nil (octetsOf_ne_nil c)
  refine ⟨b, after ++ octets cs, by rw [octets_cons, hb, List.cons_append], by simp [hb],
    fun hc => ?_⟩
  rw [octetsOf_ascii hc] at hb
  rw [← (List.cons.inj hb).2, List.nil_append]

theorem head?_octets (hx : IsAscii x) (cs : List Char) :
    (octets cs).head? = some (octet x) ↔ [x] <+: cs := by
  cases cs with
  | nil => simp [octets]
  | cons c cs =>
    obtain ⟨b, after, hb, hmem, -⟩ := exists_octet_cons c cs
    rw [hb, List.head?_cons, Option.some.injEq, eq_octet_iff hx hmem, List.cons_prefix_cons]
    simp [eq_comm]

theorem count_octets (hx : IsAscii x) (cs : List Char) :
    (octets cs).count (octet x) = cs.count x := by
  induction cs with
  | nil => rfl
  | cons c cs ih =>
    rw [octets_cons, List.count_append, ih]
    by_cases hc : c = x
    · rw [hc, octetsOf_ascii hx, List.count_singleton_self, List.count_cons_self, Nat.add_comm]
    · have hnone : octet x ∉ octetsOf c := fun h => hc ((eq_octet_iff hx h).mp rfl)
      rw [List.count_eq_zero_of_not_mem hnone, List.count_cons_of_ne hc, Nat.zero_add]

theorem count_take_octets (hx : IsAscii x) (n : Nat) (cs : List Char) :
    ((octets cs).take n).count (octet x) = n ↔ List.replicate n x <+: cs := by
  induction n generalizing cs with
  | zero => simp
  | succ n ih =>
    cases cs with
    | nil => simp [octets]
    | cons c cs =>
      obtain ⟨b, after, hb, hmem, hafter⟩ := exists_octet_cons c cs
      rw [hb, List.take_succ_cons, List.count_cons, List.replicate_succ, List.cons_prefix_cons]
      by_cases hc : c = x
      · subst hc
        rw [(eq_octet_iff hx hmem).mpr rfl, hafter hx]
        simp [ih]
      · have hne : b ≠ octet x := fun he => hc ((eq_octet_iff hx hmem).mp he)
        have hle : (after.take n).count (octet x) ≤ n :=
          Nat.le_trans List.count_le_length (List.length_take_le n after)
        simp only [beq_iff_eq, hne, if_false, Nat.add_zero, Ne.symm hc, false_and, iff_false]
        omega

theorem length_takeWhile_octets {p : UInt8 → Bool} {p' : Char → Bool}
    (h : ∀ c, ∀ b ∈ octetsOf c, p b = p' c) (cs : List Char) :
    ((octets cs).takeWhile p).length = width (cs.takeWhile p') := by
  induction cs with
  | nil => rfl
  | cons c cs ih =>
    rw [octets_cons]
    cases hc : p' c with
    | true =>
      rw [List.takeWhile_append_of_pos (fun b hb => (h c b hb).trans hc), List.length_append, ih,
        List.takeWhile_cons_of_pos hc, width_cons, octetsOf, String.length_utf8EncodeChar]
    | false =>
      obtain ⟨b, after, hb⟩ := List.exists_cons_of_ne_nil (octetsOf_ne_nil c)
      have hfirst := h c b (by simp [hb])
      rw [hb, List.cons_append, List.takeWhile_cons_of_neg (by simp [hfirst, hc]),
        List.takeWhile_cons_of_neg (by simp [hc])]
      rfl

theorem drop_octets (before rest : List Char) :
    (octets (before ++ rest)).drop (width before) = octets rest := by
  rw [octets_append, ← length_octets, List.drop_left]

end Octets

/-- ASCII letters, digits and the underscore. -/
def isWordOctet (b : UInt8) : Bool :=
  (0x30 ≤ b && b ≤ 0x39) || (0x41 ≤ b && b ≤ 0x5A) || (0x61 ≤ b && b ≤ 0x7A) || b == 0x5F

theorem isWordOctet_octet {c : Char} (h : IsAscii c) : isWordOctet (octet c) = isWordChar c := by
  have hall : ∀ n < 0x80, isWordOctet n.toUInt8 = isWordChar (Char.ofNat n) := by decide
  have hc := hall c.toNat h
  rwa [Char.ofNat_toNat] at hc

theorem isAscii_of_le {c d : Char} (h : c.val ≤ d.val) (hd : IsAscii d) : IsAscii c :=
  Nat.lt_of_le_of_lt (UInt32.le_iff_toNat_le.mp h) hd

theorem isAscii_of_isWordChar {c : Char} (h : isWordChar c = true) : IsAscii c := by
  have hcases : (((c.isUpper || c.isLower) || c.isDigit) || c == '_') = true := h
  rw [Bool.or_eq_true, Bool.or_eq_true, Bool.or_eq_true] at hcases
  rcases hcases with ((hupper | hlower) | hdigit) | hscore
  · have hle : c.val ≤ 'Z'.val := (of_decide_eq_true hupper).2
    exact isAscii_of_le hle (by decide)
  · have hle : c.val ≤ 'z'.val := of_decide_eq_true (Bool.and_eq_true_iff.mp hlower).2
    exact isAscii_of_le hle (by decide)
  · have hle : c.val ≤ '9'.val := of_decide_eq_true (Bool.and_eq_true_iff.mp hdigit).2
    exact isAscii_of_le hle (by decide)
  · obtain rfl := beq_iff_eq.mp hscore
    decide

theorem isWordOctet_high {b : UInt8} (h : 0x80 ≤ b.toNat) : isWordOctet b = false := by
  simp only [isWordOctet, Bool.or_eq_false_iff, Bool.and_eq_false_iff, decide_eq_false_iff_not,
    UInt8.le_iff_toNat_le, beq_eq_false_iff_ne]
  refine ⟨⟨⟨.inr ?_, .inr ?_⟩, .inr ?_⟩, ?_⟩
  · exact fun hle => absurd (Nat.le_trans h hle) (by decide)
  · exact fun hle => absurd (Nat.le_trans h hle) (by decide)
  · exact fun hle => absurd (Nat.le_trans h hle) (by decide)
  · rintro rfl
    exact absurd h (by decide)

theorem isWordOctet_eq {b : UInt8} {c : Char} (hb : b ∈ octetsOf c) :
    isWordOctet b = isWordChar c := by
  by_cases hascii : IsAscii c
  · rw [octetsOf_ascii hascii, List.mem_singleton] at hb
    rw [hb, isWordOctet_octet hascii]
  · rw [isWordOctet_high (high_of_mem_octetsOf hascii b hb), eq_comm, Bool.eq_false_iff]
    exact fun hword => hascii (isAscii_of_isWordChar hword)

theorem length_takeWhile_word (cs : List Char) :
    ((octets cs).takeWhile isWordOctet).length = width (word cs) :=
  length_takeWhile_octets (fun _ _ hb => isWordOctet_eq hb) cs

theorem length_takeWhile_line (cs : List Char) :
    ((octets cs).takeWhile (· != lineFeed)).length = width (cs.takeWhile (· != '\n')) := by
  refine length_takeWhile_octets (fun c b hb => ?_) cs
  rw [show lineFeed = octet '\n' from rfl, Bool.eq_iff_iff, bne_iff_ne, bne_iff_ne, ne_eq, ne_eq,
    eq_octet_iff (by decide) hb]

end CodePattern
