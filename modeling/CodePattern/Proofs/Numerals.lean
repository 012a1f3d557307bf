import CodePattern.Text.Numeral

/-! Decimal numerals and their values. A text is read exactly if it is a numeral with a value below
the bound. The reader compares with the bound after every digit, which is as good as one comparison
at the end: the digits that follow never make a value smaller, so a value that once was too large
cannot come back. -/

namespace CodePattern

/-- At least one decimal digit, with one plus sign in front or none, and the value of the digits. -/
inductive Numeral : List Char → Nat → Prop
  | plain {digits : List Char} (hne : digits ≠ []) (hdigits : ∀ c ∈ digits, c.isDigit = true) :
    Numeral digits (Nat.ofDigitChars 10 digits 0)
  | signed {digits : List Char} (hne : digits ≠ []) (hdigits : ∀ c ∈ digits, c.isDigit = true) :
    Numeral ('+' :: digits) (Nat.ofDigitChars 10 digits 0)

namespace Numeral

variable {cs : List Char} {n m : Nat}

theorem first (h : Numeral cs n) : ∀ c ∈ cs.head?, c = '+' ∨ c.isDigit = true := by
  cases h with
  | plain hne hdigits => exact fun c hc => .inr (hdigits c (List.mem_of_mem_head? hc))
  | signed hne hdigits => exact fun c hc => .inl (Option.some.inj hc).symm

theorem unique (h : Numeral cs n) (h' : Numeral cs m) : n = m := by
  have hplus : ¬ '+'.isDigit = true := by decide
  cases h with
  | plain hne hdigits =>
    cases h' with
    | plain => rfl
    | signed => exact absurd (hdigits '+' List.mem_cons_self) hplus
  | signed hne hdigits =>
    cases h' with
    | plain hsome hplain => exact absurd (hplain '+' List.mem_cons_self) hplus
    | signed => rfl

end Numeral

theorem digit?_eq_some_iff {c : Char} {d : Nat} :
    digit? c = some d ↔ c.isDigit = true ∧ c.toNat - '0'.toNat = d := by
  have hrange : c.isDigit = true ↔ '0' ≤ c ∧ c ≤ '9' := by
    rw [Char.isDigit, Bool.and_eq_true, decide_eq_true_eq, decide_eq_true_eq]
    rfl
  simp [digit?, hrange]

theorem digit?_eq_none_iff {c : Char} : digit? c = none ↔ ¬ c.isDigit = true := by
  constructor
  · intro hnone hdigit
    have hsome := digit?_eq_some_iff.mpr ⟨hdigit, rfl⟩
    rw [hnone] at hsome
    cases hsome
  · intro hother
    refine Option.eq_none_iff_forall_ne_some.mpr fun d hd => ?_
    exact hother (digit?_eq_some_iff.mp hd).1

theorem le_ofDigitChars (digits : List Char) (value : Nat) :
    value ≤ Nat.ofDigitChars 10 digits value := by
  rw [Nat.ofDigitChars_eq_ofDigitChars_zero]
  calc value ≤ 10 ^ digits.length * value := Nat.le_mul_of_pos_left value (Nat.pow_pos (by decide))
    _ ≤ 10 ^ digits.length * value + Nat.ofDigitChars 10 digits 0 := Nat.le_add_right _ _

theorem readDigits_eq_ok_iff {bound value n : Nat} {cs : List Char} (hvalue : value < bound) :
    readDigits bound value cs = .ok n ↔
      (∀ c ∈ cs, c.isDigit = true) ∧ Nat.ofDigitChars 10 cs value = n ∧ n < bound := by
  fun_induction readDigits bound value cs with
  | case1 value =>
    simp only [List.not_mem_nil, false_implies, implies_true, true_and, Nat.ofDigitChars_nil,
      Except.ok.injEq]
    exact ⟨fun h => ⟨h, h ▸ hvalue⟩, fun h => h.1⟩
  | case2 value c cs hstray =>
    refine iff_of_false (by simp) fun h => ?_
    exact digit?_eq_none_iff.mp hstray (h.1 c List.mem_cons_self)
  | case3 value c cs d hd hfits ih =>
    obtain ⟨hdigit, rfl⟩ := digit?_eq_some_iff.mp hd
    rw [ih hfits, List.forall_mem_cons, Nat.ofDigitChars_cons, Nat.mul_comm 10]
    simp only [hdigit, true_and]
  | case4 value c cs d hd hover =>
    -- The value of all the digits is no smaller than the one that did not fit.
    obtain ⟨hdigit, rfl⟩ := digit?_eq_some_iff.mp hd
    refine iff_of_false (by simp) fun ⟨_, hn, hlt⟩ => hover ?_
    rw [Nat.ofDigitChars_cons, Nat.mul_comm 10] at hn
    exact Nat.lt_of_le_of_lt (hn ▸ le_ofDigitChars cs _) hlt

theorem readNumeral_plain {bound : Nat} {cs : List Char} (hne : cs ≠ [])
    (hsign : ∀ digits, cs ≠ '+' :: digits) : readNumeral bound cs = readDigits bound 0 cs := by
  obtain ⟨c, cs, rfl⟩ := List.exists_cons_of_ne_nil hne
  have hc : c ≠ '+' := fun hc => hsign cs (hc ▸ rfl)
  simp [readNumeral, hc]

theorem readNumeral_signed {bound : Nat} {digits : List Char} (hne : digits ≠ []) :
    readNumeral bound ('+' :: digits) = readDigits bound 0 digits := by
  obtain ⟨c, cs, rfl⟩ := List.exists_cons_of_ne_nil hne
  rfl

theorem readNumeral_eq_ok_iff {bound n : Nat} {cs : List Char} (hbound : 0 < bound) :
    readNumeral bound cs = .ok n ↔ Numeral cs n ∧ n < bound := by
  constructor
  · intro h
    have hne : cs ≠ [] := by
      rintro rfl
      cases h
    by_cases hsign : ∃ digits, cs = '+' :: digits
    · obtain ⟨digits, rfl⟩ := hsign
      have hdigits_ne : digits ≠ [] := by
        rintro rfl
        cases h
      rw [readNumeral_signed hdigits_ne, readDigits_eq_ok_iff hbound] at h
      obtain ⟨hdigits, rfl, hlt⟩ := h
      exact ⟨.signed hdigits_ne hdigits, hlt⟩
    · rw [readNumeral_plain hne (not_exists.mp hsign), readDigits_eq_ok_iff hbound] at h
      obtain ⟨hdigits, rfl, hlt⟩ := h
      exact ⟨.plain hne hdigits, hlt⟩
  · rintro ⟨hnumeral, hlt⟩
    cases hnumeral with
    | plain hne hdigits =>
      have hsign : ∀ digits, cs ≠ '+' :: digits := by
        rintro digits rfl
        exact absurd (hdigits '+' List.mem_cons_self) (by decide)
      rw [readNumeral_plain hne hsign]
      exact (readDigits_eq_ok_iff hbound).mpr ⟨hdigits, rfl, hlt⟩
    | signed hne hdigits =>
      rw [readNumeral_signed hne]
      exact (readDigits_eq_ok_iff hbound).mpr ⟨hdigits, rfl, hlt⟩

end CodePattern
