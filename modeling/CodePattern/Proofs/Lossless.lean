import CodePattern.Proofs.AsciiOctets
import Mathlib.Algebra.Ring.Nat
import Mathlib.Data.List.Basic
import Mathlib.Data.List.Induction

/-! Plain text in what octets are read as. Octets that are not UTF-8 become replacement
characters, and no part of a longer sequence reads as plain text, so a text ends in a
plain word exactly when its octets end in those of the word. -/

namespace CodePattern

/-- A character of one octet, other than NUL. -/
def IsPlain (c : Char) : Prop := c.toNat ≠ 0 ∧ c.toNat < 0x80

instance : DecidablePred IsPlain := fun c => inferInstanceAs (Decidable (c.toNat ≠ 0 ∧ _))

theorem forall_isPlain {s : List Char} (h : s.all (fun c => decide (IsPlain c)) = true) :
    ∀ c ∈ s, IsPlain c := by
  simpa using h

/-- A sequence that has begun owes octets that are not plain, and whatever they are it
comes to a number too large for a plain character. -/
structure Pending.Sound (p : Pending) : Prop where
  owed_pos : 0 < p.owed
  le_low : 0x80 ≤ p.low
  le_number : 0x80 ≤ (p.bits * 64 + (p.low - 0x80)) * 64 ^ (p.owed - 1)

theorem lead_plain {octet : Nat} (h : octet < 0x80) : lead octet = ([Char.ofNat octet], none) := by
  rw [lead, if_pos h]

theorem lead_cases {octet : Nat} (h : ¬ octet < 0x80) : lead octet = ([replacement], none) ∨
    ∃ p : Pending, lead octet = ([], some p) ∧ p.Sound := by
  generalize hlead : lead octet = begun
  rw [lead, if_neg h] at hlead
  split_ifs at hlead
  all_goals subst hlead
  any_goals exact .inl rfl
  all_goals refine .inr ⟨_, rfl, ?_, ?_, ?_⟩
  all_goals simp only [Nat.reducePow, Nat.reduceSub, Nat.reduceMul, Nat.reduceAdd,
    Nat.reduceLeDiff, Nat.lt_add_one, Nat.zero_lt_succ]
  all_goals omega

theorem sound_lead {octet : Nat} {p : Pending} (h : (lead octet).2 = some p) : p.Sound := by
  by_cases hplain : octet < 0x80
  · rw [lead_plain hplain] at h
    cases h
  · rcases lead_cases hplain with hlead | ⟨q, hlead, hsound⟩
    · rw [hlead] at h
      cases h
    · rw [hlead] at h
      obtain rfl := Option.some.inj h
      exact hsound

theorem Pending.Sound.next {p : Pending} (h : p.Sound) {octet : Nat} (hlow : p.low ≤ octet)
    (howed : ¬ p.owed ≤ 1) :
    Pending.Sound ⟨p.owed - 1, 0x80, 0xBF, p.bits * 64 + (octet - 0x80)⟩ := by
  obtain ⟨n, hn⟩ : ∃ n, p.owed = n + 2 := ⟨p.owed - 2, by omega⟩
  have hbits : p.bits * 64 + (p.low - 0x80) ≤ p.bits * 64 + (octet - 0x80) := by omega
  have hnumber : 0x80 ≤ (p.bits * 64 + (p.low - 0x80)) * 64 ^ (n + 1) := by
    simpa [hn] using h.le_number
  constructor
  · show 0 < p.owed - 1
    omega
  · exact Nat.le_refl _
  · show 0x80 ≤ ((p.bits * 64 + (octet - 0x80)) * 64 + (0x80 - 0x80)) * 64 ^ (p.owed - 1 - 1)
    calc 0x80 ≤ (p.bits * 64 + (p.low - 0x80)) * 64 ^ (n + 1) := hnumber
      _ ≤ (p.bits * 64 + (octet - 0x80)) * 64 ^ (n + 1) := Nat.mul_le_mul_right _ hbits
      _ = ((p.bits * 64 + (octet - 0x80)) * 64 + (0x80 - 0x80)) * 64 ^ (p.owed - 1 - 1) := by
        rw [hn, Nat.pow_succ, Nat.sub_self, Nat.add_zero, Nat.mul_assoc, Nat.mul_comm (64 ^ n)]
        rfl

/-- What has been read of some octets, before a sequence is found to end too early. -/
def readOctets (bs : List UInt8) : List Char × Option Pending := bs.foldl decodeNext ([], none)

theorem readOctets_concat (bs : List UInt8) (b : UInt8) :
    readOctets (bs ++ [b]) = decodeNext (readOctets bs) b := by
  rw [readOctets, List.foldl_append]
  rfl

theorem decodeLossy_eq (bs : List UInt8) :
    decodeLossy bs = (readOctets bs).1.reverse ++
      ((readOctets bs).2.map fun _ => replacement).toList := by
  rw [decodeLossy, readOctets]
  split <;> next h => simp [h]

theorem sound_readOctets {bs : List UInt8} {p : Pending} (h : (readOctets bs).2 = some p) :
    p.Sound := by
  induction bs using List.reverseRecOn generalizing p with
  | nil => cases h
  | append_singleton bs b ih =>
    rw [readOctets_concat, decodeNext] at h
    cases hq : (readOctets bs).2 with
    | none =>
      rw [hq] at h
      exact sound_lead h
    | some q =>
      have hsound := ih hq
      simp only [hq, decodeOctet] at h
      split_ifs at h with hin howed
      · obtain rfl := Option.some.inj h
        exact hsound.next hin.1 howed
      · exact sound_lead h

/-- A plain octet is read as the character it stands for, whatever comes before it. -/
theorem decodeLossy_concat {bs : List UInt8} {b : UInt8} (hb : b.toNat < 0x80) :
    decodeLossy (bs ++ [b]) = decodeLossy bs ++ [Char.ofNat b.toNat] := by
  rw [decodeLossy_eq, decodeLossy_eq, readOctets_concat, decodeNext]
  cases hp : (readOctets bs).2 with
  | none => simp [decodeOctet, lead_plain hb]
  | some p =>
    have hlow := (sound_readOctets hp).le_low
    have hout : ¬ (p.low ≤ b.toNat ∧ b.toNat ≤ p.high) := by omega
    simp [decodeOctet, hout, lead_plain hb]

theorem toNat_ofNat_cases (n : Nat) : (Char.ofNat n).toNat = n ∨ (Char.ofNat n).toNat = 0 := by
  rw [Char.ofNat]
  by_cases h : n.isValidChar
  · rw [dif_pos h]
    exact .inl rfl
  · rw [dif_neg h]
    exact .inr rfl

theorem not_isPlain_ofNat {n : Nat} (h : 0x80 ≤ n) : ¬ IsPlain (Char.ofNat n) := by
  intro hplain
  rcases toNat_ofNat_cases n with hn | hn
  · have := hplain.2
    omega
  · exact hplain.1 hn

theorem not_isPlain_replacement : ¬ IsPlain replacement := not_isPlain_ofNat (by decide)

theorem lead_high {octet : Nat} (h : ¬ octet < 0x80) :
    (∀ c ∈ (lead octet).1, ¬ IsPlain c) ∧ ((lead octet).2 = none → (lead octet).1 ≠ []) := by
  rcases lead_cases h with hlead | ⟨p, hlead, -⟩
  · rw [hlead]
    simp [not_isPlain_replacement]
  · rw [hlead]
    simp

theorem decodeOctet_high {q : Option Pending} {octet : Nat} (hq : ∀ r, q = some r → r.Sound)
    (h : ¬ octet < 0x80) : (∀ c ∈ (decodeOctet q octet).1, ¬ IsPlain c) ∧
      ((decodeOctet q octet).2 = none → (decodeOctet q octet).1 ≠ []) := by
  cases q with
  | none => exact lead_high h
  | some p =>
    have hsound := hq p rfl
    rw [decodeOctet]
    split_ifs with hin howed
    · have hlast : p.owed - 1 = 0 := by omega
      have hnumber : 0x80 ≤ p.bits * 64 + (p.low - 0x80) := by
        simpa [hlast] using hsound.le_number
      have hchar : ¬ IsPlain (Char.ofNat (p.bits * 64 + (octet - 0x80))) :=
        not_isPlain_ofNat (by omega)
      simp [hchar]
    · simp
    · obtain ⟨hchars, -⟩ := lead_high h
      simpa [not_isPlain_replacement] using hchars

/-- After an octet that is not plain, the text does not end in a plain character. -/
theorem exists_concat_of_high {b : UInt8} (bs : List UInt8) (hb : ¬ b.toNat < 0x80) :
    ∃ cs c, decodeLossy (bs ++ [b]) = cs ++ [c] ∧ ¬ IsPlain c := by
  obtain ⟨hchars, hsome⟩ := decodeOctet_high (q := (readOctets bs).2)
    (fun _ hr => sound_readOctets hr) hb
  rw [decodeLossy_eq, readOctets_concat, decodeNext]
  cases hnext : (decodeOctet (readOctets bs).2 b.toNat).2 with
  | some p =>
    exact ⟨(readOctets bs).1.reverse ++ (decodeOctet (readOctets bs).2 b.toNat).1, replacement,
      by simp, not_isPlain_replacement⟩
  | none =>
    obtain ⟨cs, c, hcs⟩ := (List.eq_nil_or_concat'
      (decodeOctet (readOctets bs).2 b.toNat).1).resolve_left (hsome hnext)
    refine ⟨(readOctets bs).1.reverse ++ cs, c, by simp [hcs], hchars c ?_⟩
    simp [hcs]

theorem octetsOf_plain {c : Char} (h : IsPlain c) : octetsOf c = [c.toNat.toUInt8] :=
  octetsOf_ascii h.2

theorem octets_concat (s : List Char) {c : Char} (h : IsPlain c) :
    octets (s ++ [c]) = octets s ++ [c.toNat.toUInt8] := by
  simp [octets, octetsOf_plain h]

theorem decodeLossy_ne_nil {bs : List UInt8} (h : bs ≠ []) : decodeLossy bs ≠ [] := by
  obtain ⟨bs, b, rfl⟩ := (List.eq_nil_or_concat' bs).resolve_left h
  by_cases hb : b.toNat < 0x80
  · simp [decodeLossy_concat hb]
  · obtain ⟨cs, c, hcs, -⟩ := exists_concat_of_high bs hb
    simp [hcs]

/-- A text that ends in a plain character comes from octets that end in it. -/
theorem exists_concat_of_plain {bs : List UInt8} {cs : List Char} {c : Char}
    (h : decodeLossy bs = cs ++ [c]) (hc : IsPlain c) :
    ∃ bs', bs = bs' ++ [c.toNat.toUInt8] ∧ decodeLossy bs' = cs := by
  have hne : bs ≠ [] := by
    rintro rfl
    cases cs <;> cases h
  obtain ⟨bs, b, rfl⟩ := (List.eq_nil_or_concat' bs).resolve_left hne
  by_cases hb : b.toNat < 0x80
  · rw [decodeLossy_concat hb] at h
    obtain ⟨hcs, hlast⟩ := List.append_inj' h rfl
    obtain rfl : Char.ofNat b.toNat = c := by simpa using hlast
    refine ⟨bs, ?_, hcs⟩
    rcases toNat_ofNat_cases b.toNat with hn | hn
    · simp [hn]
    · exact absurd hn hc.1
  · obtain ⟨cs', c', hcs, hhigh⟩ := exists_concat_of_high bs hb
    rw [hcs] at h
    obtain ⟨-, hlast⟩ := List.append_inj' h rfl
    obtain rfl : c' = c := by simpa using hlast
    exact absurd hc hhigh

theorem decodeLossy_append (bs : List UInt8) {s : List Char} (hs : ∀ c ∈ s, IsPlain c) :
    decodeLossy (bs ++ octets s) = decodeLossy bs ++ s := by
  induction s using List.reverseRecOn with
  | nil => simp [octets]
  | append_singleton s c ih =>
    have hc : IsPlain c := hs c (by simp)
    have hoctet : c.toNat.toUInt8.toNat = c.toNat :=
      UInt8.toNat_ofNat_of_lt' (Nat.lt_trans hc.2 (by decide))
    rw [octets_concat s hc, ← List.append_assoc,
      decodeLossy_concat (by rw [hoctet]; exact hc.2), hoctet, Char.ofNat_toNat,
      ih fun d hd => hs d (by simp [hd]), List.append_assoc]

theorem suffix_decodeLossy_iff {bs : List UInt8} {s : List Char} (hs : ∀ c ∈ s, IsPlain c) :
    s <:+ decodeLossy bs ↔ octets s <:+ bs := by
  constructor
  · rintro ⟨cs, h⟩
    induction s using List.reverseRecOn generalizing bs with
    | nil => simp [octets]
    | append_singleton s c ih =>
      rw [← List.append_assoc] at h
      have hc : IsPlain c := hs c (by simp)
      obtain ⟨bs, rfl, hbs⟩ := exists_concat_of_plain h.symm hc
      rw [octets_concat s hc]
      obtain ⟨before, rfl⟩ := ih (fun d hd => hs d (by simp [hd])) hbs.symm
      exact ⟨before, by simp⟩
  · rintro ⟨before, rfl⟩
    exact ⟨decodeLossy before, (decodeLossy_append before hs).symm⟩

theorem decodeLossy_eq_iff {bs : List UInt8} {s : List Char} (hs : ∀ c ∈ s, IsPlain c) :
    decodeLossy bs = s ↔ bs = octets s := by
  constructor
  · intro h
    obtain ⟨before, rfl⟩ := (suffix_decodeLossy_iff hs).mp ⟨[], h.symm⟩
    rw [decodeLossy_append before hs] at h
    have hnil : before = [] := by
      by_contra hne
      exact decodeLossy_ne_nil hne (by simpa using h)
    rw [hnil, List.nil_append]
  · rintro rfl
    simpa [decodeLossy] using decodeLossy_append [] hs

end CodePattern
