import CodePattern.Json.Reader
import CodePattern.Json.Text

/-! The text of a number tells the number. Its whole part, its fraction and its exponent are read
one after the other, each up to where the next one begins, and what follows the number is left. -/

namespace CodePattern

namespace Json

/-- No digit comes next. -/
def EndsDigits (rest : List Char) : Prop := ∀ c ∈ rest.head?, c.isDigit = false

/-- Nothing comes next that would go on with a number. -/
def Unextended (rest : List Char) : Prop :=
  ∀ c ∈ rest.head?, c.isDigit = false ∧ c ≠ '.' ∧ c ≠ 'e' ∧ c ≠ 'E'

variable {rest : List Char}

theorem Unextended.endsDigits (h : Unextended rest) : EndsDigits rest := fun c hc => (h c hc).1

theorem readDigits_append {digits : List Char} (hdigits : ∀ c ∈ digits, c.isDigit = true)
    (hne : digits ≠ []) (h : EndsDigits rest) :
    readDigits (digits ++ rest) = some (digits, rest) := by
  have hrest : rest.takeWhile Char.isDigit = [] ∧ rest.dropWhile Char.isDigit = rest := by
    cases rest with
    | nil => exact ⟨rfl, rfl⟩
    | cons c rest => simp [h c rfl]
  have htake : (digits ++ rest).takeWhile Char.isDigit = digits := by
    rw [List.takeWhile_append_of_pos hdigits, hrest.1, List.append_nil]
  have hdrop : (digits ++ rest).dropWhile Char.isDigit = rest := by
    rw [List.dropWhile_append_of_pos hdigits, hrest.2]
  rw [readDigits, htake, hdrop]
  simp [hne]

theorem isDigit_of_mem_digits {n : Nat} : ∀ c ∈ Nat.toDigits 10 n, c.isDigit = true :=
  fun _ hc => Nat.isDigit_of_mem_toDigits (by decide) (by decide) hc

theorem readDigits_toDigits (n : Nat) (h : EndsDigits rest) :
    readDigits (Nat.toDigits 10 n ++ rest) = some (Nat.toDigits 10 n, rest) :=
  readDigits_append isDigit_of_mem_digits Nat.toDigits_ne_nil h

theorem digitsValue_toDigits (n : Nat) : digitsValue (Nat.toDigits 10 n) = n := by
  have hsum : digitsValue (Nat.toDigits 10 n) = Nat.ofDigitChars 10 (Nat.toDigits 10 n) 0 := by
    simp only [digitsValue, Nat.ofDigitChars, Nat.mul_comm 10]
  rw [hsum, Nat.ofDigitChars_ten_toDigits]

theorem exists_digits (n : Nat) :
    ∃ c cs, Nat.toDigits 10 n = c :: cs ∧ c.isDigit = true := by
  obtain ⟨c, cs, hcs⟩ := List.exists_cons_of_ne_nil (Nat.toDigits_ne_nil (n := n) (b := 10))
  exact ⟨c, cs, hcs, isDigit_of_mem_digits c (hcs ▸ List.mem_cons_self)⟩

/-- Only zero begins with a zero. -/
theorem head?_toDigits {n : Nat} (hn : 0 < n) : (Nat.toDigits 10 n).head? ≠ some '0' := by
  induction n using Nat.strongRecOn with
  | ind n ih =>
    rw [Nat.toDigits_eq_if (by decide)]
    split
    · intro h
      have hzero := Nat.digitChar_eq_zero.mp (Option.some.inj h)
      omega
    · obtain ⟨c, cs, hcs, -⟩ := exists_digits (n / 10)
      have hhead := ih (n / 10) (by omega) (by omega)
      rw [hcs] at hhead ⊢
      exact hhead

theorem readWhole_toDigits (n : Nat) (h : EndsDigits rest) :
    readWhole (Nat.toDigits 10 n ++ rest) = some (n, rest) := by
  rw [readWhole, readDigits_toDigits n h]
  split
  · next c cs _ heq =>
    have hdigits : Nat.toDigits 10 n = '0' :: c :: cs := congrArg Prod.fst (Option.some.inj heq)
    cases n with
    | zero => cases hdigits
    | succ n => exact absurd (by rw [hdigits]; rfl) (head?_toDigits n.succ_pos)
  · next digits rest' _ heq =>
    cases heq
    rw [digitsValue_toDigits]
  · next heq => cases heq

theorem isDigit_digitChars (digits : List (Fin 10)) :
    ∀ c ∈ digitChars digits, c.isDigit = true := by
  have hall : ∀ d : Fin 10, (Nat.digitChar d.val).isDigit = true := by decide
  simp [digitChars, hall]

theorem map_digitOf (digits : List (Fin 10)) : (digitChars digits).map digitOf = digits := by
  have hall : ∀ d : Fin 10, digitOf (Nat.digitChar d.val) = d := by decide
  simp [digitChars, Function.comp_def, hall]

theorem readFraction_text (digits : List (Fin 10))
    (h : ∀ c ∈ rest.head?, c.isDigit = false ∧ c ≠ '.') :
    readFraction (fractionText digits ++ rest) = some (digits, rest) := by
  cases digits with
  | nil =>
    rw [fractionText, List.nil_append, readFraction.eq_2 rest]
    rintro tail rfl
    exact (h '.' rfl).2 rfl
  | cons d digits =>
    have hread := readDigits_append (isDigit_digitChars (d :: digits)) (by simp [digitChars])
      fun c hc => (h c hc).1
    rw [fractionText, List.cons_append, readFraction, hread]
    · simp only [Option.map_some, map_digitOf]
    · exact List.cons_ne_nil d digits

theorem readPower_decimal (e : Int) (h : EndsDigits rest) :
    readPower (decimal e ++ rest) = some (e, rest) := by
  cases e with
  | ofNat n =>
    obtain ⟨c, cs, hcs, hdigit⟩ := exists_digits n
    have hread := readDigits_toDigits n h
    have hsign : ∀ sign tail, sign.isDigit = false → c :: (cs ++ rest) ≠ sign :: tail := by
      rintro sign tail hsign ⟨⟩
      exact Bool.false_ne_true (hsign.symm.trans hdigit)
    rw [decimal]
    rw [hcs, List.cons_append] at hread ⊢
    rw [readPower.eq_3 _ (hsign '-' · rfl) (hsign '+' · rfl), hread, ← hcs]
    simp only [Option.map_some, digitsValue_toDigits]
    rfl
  | negSucc n =>
    rw [decimal, List.cons_append, readPower, readDigits_toDigits (n + 1) h]
    simp only [Option.map_some, digitsValue_toDigits]
    rfl

theorem readExponent_text (e : Option Int) (h : Unextended rest) :
    readExponent (exponentText e ++ rest) = some (e, rest) := by
  cases e with
  | none =>
    rw [exponentText, List.nil_append, readExponent.eq_3]
    · rintro tail rfl
      exact (h 'e' rfl).2.2.1 rfl
    · rintro tail rfl
      exact (h 'E' rfl).2.2.2 rfl
  | some e =>
    rw [exponentText, List.cons_append, readExponent, readPower_decimal e h.endsDigits]
    rfl

theorem readNumeric_text (negative : Bool) (whole : Nat) (fraction : List (Fin 10))
    (exponent : Option Int) (h : Unextended rest) :
    readNumeric negative (Nat.toDigits 10 whole ++
        (fractionText fraction ++ (exponentText exponent ++ rest))) =
      some (number negative whole fraction exponent, rest) := by
  have hexponent : ∀ c ∈ (exponentText exponent ++ rest).head?, c.isDigit = false ∧ c ≠ '.' := by
    cases exponent with
    | none => exact fun c hc => ⟨(h c hc).1, (h c hc).2.1⟩
    | some e => rintro c ⟨⟩; exact ⟨rfl, by decide⟩
  have hfraction : EndsDigits (fractionText fraction ++ (exponentText exponent ++ rest)) := by
    cases fraction with
    | nil => exact fun c hc => (hexponent c hc).1
    | cons d digits => rintro c ⟨⟩; rfl
  simp only [readNumeric, readWhole_toDigits whole hfraction, readFraction_text fraction hexponent,
    readExponent_text exponent h, Option.bind_eq_bind, Option.bind_some]
  rfl

theorem number_parts (x : Fractional) :
    number x.negative x.whole x.fraction x.exponent = .frac x := dif_pos x.proper

/-- The number is an integer with no more parts than its digits. -/
theorem readNumeric_digits (negative : Bool) (n : Nat) (h : Unextended rest) :
    readNumeric negative (Nat.toDigits 10 n ++ rest) = some (number negative n [] none, rest) :=
  readNumeric_text negative n [] none h

end Json

end CodePattern
