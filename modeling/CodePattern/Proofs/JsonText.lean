import CodePattern.Proofs.NumberText
import Mathlib.Data.List.Basic

/-! The text of a JSON value tells the value. Whatever text follows, reading takes the text of the
value and leaves the rest, unless the value has more levels than are allowed. So every value is read
back from its text up to the limit, and none beyond it. -/

namespace CodePattern

namespace Json

theorem unit?_control : ∀ n < 0x20,
    unit? '0' '0' (hexDigit (n / 16)) (hexDigit (n % 16)) = some n := by decide

theorem readString_short {e c : Char} (he : unescape? e = some c) (hu : e ≠ 'u')
    (rest : List Char) : readString ('\\' :: e :: rest) =
      (readString rest).map (fun (cs, tail) => (c :: cs, tail)) := by
  rw [readString.eq_4 e rest fun _ _ _ _ _ h _ => hu h, he]
  cases readString rest <;> rfl

theorem readString_control {c : Char} (h : c.toNat < 0x20) (rest : List Char) :
    readString ('\\' :: 'u' :: '0' :: '0' :: hexDigit (c.toNat / 16) ::
      hexDigit (c.toNat % 16) :: rest) =
        (readString rest).map (fun (cs, tail) => (c :: cs, tail)) := by
  have hhigh : isHighSurrogate c.toNat = false := by simp [isHighSurrogate]; omega
  have hlow : isLowSurrogate c.toNat = false := by simp [isLowSurrogate]; omega
  simp only [readString, unit?_control c.toNat h, Option.bind_eq_bind, Option.bind_some, hhigh,
    hlow, Bool.false_eq_true, if_false, Char.ofNat_toNat]
  cases readString rest <;> rfl

theorem readString_plain {c : Char} (hquote : c ≠ '"') (hslash : c ≠ '\\')
    (hcontrol : ¬ c.toNat < 0x20) (rest : List Char) :
    readString (c :: rest) = (readString rest).map (fun (cs, tail) => (c :: cs, tail)) := by
  rw [readString.eq_5 c rest hquote (fun _ _ _ _ _ h _ => hslash h) (fun _ _ h _ => hslash h),
    if_neg hcontrol]
  cases readString rest <;> rfl

/-- An escaped character is read as the character. -/
theorem readString_escape (c : Char) (rest : List Char) : readString (escape c ++ rest) =
    (readString rest).map (fun (cs, tail) => (c :: cs, tail)) := by
  rw [escape]
  split_ifs with hquote hslash h3 h4 h5 h6 h7 hcontrol
  case neg => exact readString_plain hquote hslash hcontrol rest
  any_goals
    subst c
    exact readString_short rfl (by decide) rest
  exact readString_control hcontrol rest

theorem readString_quoted (cs rest : List Char) :
    readString (cs.flatMap escape ++ '"' :: rest) = some (cs, rest) := by
  induction cs with
  | nil => rfl
  | cons c cs ih => rw [List.flatMap_cons, List.append_assoc, readString_escape, ih]; rfl

theorem isSpace_eq_false {c : Char} (h : c.isDigit = true) : isSpace c = false := by
  rw [isSpace, Bool.or_eq_false_iff, Bool.or_eq_false_iff, Bool.or_eq_false_iff]
  refine ⟨⟨⟨?_, ?_⟩, ?_⟩, ?_⟩
  all_goals
    refine beq_false_of_ne ?_
    rintro rfl
    revert h
    decide

theorem skipSpace_cons {c : Char} (h : isSpace c = false) (cs : List Char) :
    skipSpace (c :: cs) = c :: cs := by simp [skipSpace, h]

section Numbers

variable {rest : List Char} (fuel levels : Nat)

/-- What begins with a digit is read as a number. -/
theorem readValue_digit {c : Char} (h : c.isDigit = true) (cs : List Char) :
    readValue (fuel + 1) levels (c :: cs) = readNumeric false (c :: cs) := by
  rw [readValue, skipSpace_cons (isSpace_eq_false h)]
  split <;> simp_all

theorem readValue_minus (cs : List Char) :
    readValue (fuel + 1) levels ('-' :: cs) = readNumeric true cs := rfl

theorem readValue_digits (n : Nat) (more : List Char) :
    readValue (fuel + 1) levels (Nat.toDigits 10 n ++ more) =
      readNumeric false (Nat.toDigits 10 n ++ more) := by
  obtain ⟨c, cs, hcs, hdigit⟩ := exists_digits n
  rw [hcs, List.cons_append, readValue_digit fuel levels hdigit]

theorem readValue_decimal (n : Int) (h : Unextended rest) :
    readValue (fuel + 1) levels (decimal n ++ rest) = some (.num n, rest) := by
  cases n with
  | ofNat n => rw [decimal, readValue_digits, readNumeric_digits false n h]; rfl
  | negSucc n =>
    rw [decimal, List.cons_append, readValue_minus, readNumeric_digits true (n + 1) h]
    rfl

theorem readValue_fractional (x : Fractional) (h : Unextended rest) :
    readValue (fuel + 1) levels (fractional x ++ rest) = some (.frac x, rest) := by
  have hread := readNumeric_text x.negative x.whole x.fraction x.exponent h
  rw [number_parts] at hread
  rw [fractional]
  simp only [List.append_assoc]
  cases hsign : x.negative <;> rw [hsign] at hread
  · exact (readValue_digits fuel levels x.whole _).trans hread
  · exact hread

end Numbers

/-- No text of a value begins with a blank or with the end of an array. -/
theorem exists_text (v : Json) : ∃ c cs, text v = c :: cs ∧ isSpace c = false ∧ c ≠ ']' := by
  have hdigits : ∀ n more, ∃ c cs, Nat.toDigits 10 n ++ more = c :: cs ∧ isSpace c = false ∧
      c ≠ ']' := by
    intro n more
    obtain ⟨c, cs, hcs, hdigit⟩ := exists_digits n
    exact ⟨c, cs ++ more, by rw [hcs, List.cons_append], isSpace_eq_false hdigit,
      by rintro rfl; cases hdigit⟩
  match v with
  | .null => exact ⟨_, _, rfl, rfl, by decide⟩
  | .bool true => exact ⟨_, _, rfl, rfl, by decide⟩
  | .bool false => exact ⟨_, _, rfl, rfl, by decide⟩
  | .num (.ofNat n) =>
    have h := hdigits n []
    rwa [List.append_nil] at h
  | .num (.negSucc n) => exact ⟨_, _, rfl, rfl, by decide⟩
  | .frac ⟨false, n, _, _, _⟩ => exact hdigits n _
  | .frac ⟨true, n, _, _, _⟩ => exact ⟨_, _, rfl, rfl, by decide⟩
  | .str s => exact ⟨_, _, rfl, rfl, by decide⟩
  | .arr [] => exact ⟨_, _, rfl, rfl, by decide⟩
  | .arr (v :: vs) => exact ⟨_, _, rfl, rfl, by decide⟩
  | .obj [] => exact ⟨_, _, rfl, rfl, by decide⟩
  | .obj ((k, v) :: ms) => exact ⟨_, _, rfl, rfl, by decide⟩

section Containers

variable (fuel levels : Nat)

theorem readValue_array {c : Char} (hspace : isSpace c = false) (hend : c ≠ ']')
    (cs : List Char) : readValue (fuel + 1) (levels + 1) ('[' :: c :: cs) = (do
      let (v, rest) ← readValue fuel levels (c :: cs)
      let (vs, tail) ← readItems fuel levels rest
      return (.arr (v :: vs), tail)) := by
  rw [readValue, skipSpace_cons rfl]
  simp only [skipSpace_cons hspace]
  split
  · next h => exact absurd (List.cons.inj h).1 hend
  · rfl

theorem readValue_object (k : String) (cs : List Char) :
    readValue (fuel + 1) (levels + 1) ('\x7b' :: (quoted k ++ cs)) = (do
      let (m, rest) ← readMember fuel levels (quoted k ++ cs)
      let (ms, tail) ← readMembers fuel levels rest
      return (.obj (m :: ms), tail)) := rfl

theorem readItems_comma (cs : List Char) : readItems (fuel + 1) levels (',' :: cs) = (do
    let (v, rest) ← readValue fuel levels cs
    let (vs, tail) ← readItems fuel levels rest
    return (v :: vs, tail)) := rfl

theorem readMembers_comma (cs : List Char) : readMembers (fuel + 1) levels (',' :: cs) = (do
    let (m, rest) ← readMember fuel levels cs
    let (ms, tail) ← readMembers fuel levels rest
    return (m :: ms, tail)) := rfl

end Containers

theorem unextended_itemsText (vs : List Json) (rest : List Char) :
    Unextended (itemsText vs ++ rest) := by
  cases vs <;> (rintro c ⟨⟩; decide)

theorem unextended_membersText (ms : List (String × Json)) (rest : List Char) :
    Unextended (membersText ms ++ rest) := by
  rcases ms with - | ⟨⟨k, v⟩, ms⟩ <;> (rintro c ⟨⟩; decide)

/-- What is read if the levels allowed suffice. -/
def allow {α : Type} (depth levels : Nat) (a : α) : Option α :=
  if depth ≤ levels then some a else none

section Levels

variable {α β γ : Type} {depth depth' levels : Nat} {a : α} {b : β}

theorem allow_of_le (h : depth ≤ levels) : allow depth levels a = some a := if_pos h

theorem allow_of_lt (h : levels < depth) : allow depth levels a = none :=
  if_neg (Nat.not_le.mpr h)

theorem allow_inside : allow (1 + depth) (levels + 1) a = allow depth levels a := by
  by_cases h : depth ≤ levels
  · rw [allow_of_le h, allow_of_le (by omega)]
  · rw [allow_of_lt (by omega), allow_of_lt (by omega)]

theorem bind_some_allow (f : α → β) :
    ((allow depth levels a).bind fun x => some (f x)) = allow depth levels (f a) := by
  by_cases h : depth ≤ levels
  · rw [allow_of_le h, allow_of_le h, Option.bind_some]
  · rw [allow_of_lt (by omega), allow_of_lt (by omega), Option.bind_none]

/-- Two parts that are read one after the other need the levels of the deeper one. -/
theorem bind_allow {rest tail : List Char} {next : List Char → Option (β × List Char)}
    (hnext : next rest = allow depth' levels (b, tail)) (together : α → β → γ) :
    (do
      let (x, rest) ← allow depth levels (a, rest)
      let (y, tail) ← next rest
      return (together x y, tail)) =
      allow (max depth depth') levels (together a b, tail) := by
  by_cases h : depth ≤ levels
  · rw [allow_of_le h, Option.bind_eq_bind, Option.bind_some]
    simp only [hnext]
    by_cases h' : depth' ≤ levels
    · rw [allow_of_le h', allow_of_le (Nat.max_le.mpr ⟨h, h'⟩)]
      rfl
    · rw [allow_of_lt (by omega), allow_of_lt (by omega)]
      rfl
  · rw [allow_of_lt (by omega), allow_of_lt (by omega)]
    rfl

end Levels

theorem readMember_text {v : Json} {fuel levels depth : Nat} {cs rest : List Char} (k : String)
    (hv : readValue fuel levels cs = allow depth levels (v, rest)) :
    readMember (fuel + 1) levels (quoted k ++ ':' :: cs) = allow depth levels ((k, v), rest) := by
  have hname : readString (k.toList.flatMap escape ++ ['"'] ++ ':' :: cs) =
      some (k.toList, ':' :: cs) := by
    rw [List.append_assoc]
    exact readString_quoted k.toList (':' :: cs)
  rw [quoted, List.cons_append, readMember, skipSpace_cons rfl]
  have hcolon : skipSpace (':' :: cs) = ':' :: cs := skipSpace_cons rfl cs
  simp only [hname, Option.bind_eq_bind, Option.bind_some, hcolon, hv, String.ofList_toList]
  exact bind_some_allow fun x : Json × List Char => ((k, x.1), x.2)

mutual
/-- A value is read from its text, if more steps are allowed than the text is long and as many
levels as the value has. -/
theorem readValue_text : (v : Json) → (fuel levels : Nat) → (rest : List Char) →
    (text v).length < fuel → Unextended rest →
      readValue fuel levels (text v ++ rest) = allow v.nesting levels (v, rest)
  | .null, fuel + 1, levels, rest, _, _ => rfl
  | .bool true, fuel + 1, levels, rest, _, _ => rfl
  | .bool false, fuel + 1, levels, rest, _, _ => rfl
  | .num n, fuel + 1, levels, rest, _, h => readValue_decimal fuel levels n h
  | .frac x, fuel + 1, levels, rest, _, h => readValue_fractional fuel levels x h
  | .str s, fuel + 1, levels, rest, _, _ => by
    have hread := readString_quoted s.toList rest
    simp [text, quoted, readValue, skipSpace, isSpace, hread, nesting, allow]
  | .arr [], fuel + 1, 0, rest, _, _ => rfl
  | .arr (v :: vs), fuel + 1, 0, rest, _, _ => by rw [nesting, allow_of_lt (by omega)]; rfl
  | .arr [], fuel + 1, levels + 1, rest, _, _ => by rw [nesting, allow_inside]; rfl
  | .arr (v :: vs), fuel + 1, levels + 1, rest, hfuel, _ => by
    rw [text, List.length_cons, List.length_append] at hfuel
    have hv := readValue_text v fuel levels (itemsText vs ++ rest) (by omega)
      (unextended_itemsText vs rest)
    have hvs := readItems_text vs fuel levels rest (by omega)
    obtain ⟨c, cs, hcs, hspace, hend⟩ := exists_text v
    rw [hcs, List.cons_append] at hv
    rw [text, hcs, List.cons_append, List.cons_append, List.cons_append, List.append_assoc,
      readValue_array fuel levels hspace hend, hv, nesting, allow_inside]
    exact bind_allow hvs fun v vs => arr (v :: vs)
  | .obj [], fuel + 1, 0, rest, _, _ => rfl
  | .obj ((k, v) :: ms), fuel + 1, 0, rest, _, _ => by rw [nesting, allow_of_lt (by omega)]; rfl
  | .obj [], fuel + 1, levels + 1, rest, _, _ => by rw [nesting, allow_inside]; rfl
  -- A member takes a step of its own before its value does.
  | .obj ((k, v) :: ms), fuel + 2, levels + 1, rest, hfuel, _ => by
    simp only [text, List.length_cons, List.length_append] at hfuel
    have hv := readMember_text k (readValue_text v fuel levels (membersText ms ++ rest) (by omega)
      (unextended_membersText ms rest))
    have hms := readMembers_text ms (fuel + 1) levels rest (by omega)
    rw [text, List.cons_append, List.append_assoc, List.cons_append, List.append_assoc,
      readValue_object, hv, nesting, allow_inside]
    exact bind_allow hms fun m ms => obj (m :: ms)

theorem readItems_text : (vs : List Json) → (fuel levels : Nat) → (rest : List Char) →
    (itemsText vs).length < fuel →
      readItems fuel levels (itemsText vs ++ rest) = allow (nestingItems vs) levels (vs, rest)
  | [], fuel + 1, levels, rest, _ => rfl
  | v :: vs, fuel + 1, levels, rest, hfuel => by
    rw [itemsText, List.length_cons, List.length_append] at hfuel
    have hv := readValue_text v fuel levels (itemsText vs ++ rest) (by omega)
      (unextended_itemsText vs rest)
    have hvs := readItems_text vs fuel levels rest (by omega)
    rw [itemsText, List.cons_append, List.append_assoc, readItems_comma, hv]
    exact bind_allow hvs List.cons

theorem readMembers_text : (ms : List (String × Json)) → (fuel levels : Nat) →
    (rest : List Char) → (membersText ms).length < fuel →
      readMembers fuel levels (membersText ms ++ rest) = allow (nestingMembers ms) levels (ms, rest)
  | [], fuel + 1, levels, rest, _ => rfl
  | (k, v) :: ms, fuel + 2, levels, rest, hfuel => by
    simp only [membersText, List.length_cons, List.length_append] at hfuel
    have hv := readMember_text k (readValue_text v fuel levels (membersText ms ++ rest) (by omega)
      (unextended_membersText ms rest))
    have hms := readMembers_text ms (fuel + 1) levels rest (by omega)
    rw [membersText, List.cons_append, List.append_assoc, List.cons_append, List.append_assoc,
      readMembers_comma, hv]
    exact bind_allow hms List.cons
end

/-- A value is read back from its text if it has no more levels than are allowed, and only then. -/
theorem readWithin?_text (v : Json) (levels : Nat) :
    readWithin? levels v.text = allow v.nesting levels v := by
  have hread := readValue_text v (2 * v.text.length + 1) levels [] (by omega) (by simp [Unextended])
  rw [List.append_nil] at hread
  rw [readWithin?, hread]
  by_cases h : v.nesting ≤ levels
  · rw [allow_of_le h, allow_of_le h]
    rfl
  · rw [allow_of_lt (by omega), allow_of_lt (by omega)]

theorem read?_text {v : Json} (h : v.nesting ≤ nestingLimit) : read? v.text = some v := by
  rw [read?, readWithin?_text, allow_of_le h]

theorem nestingMembers_append (ms ns : List (String × Json)) :
    nestingMembers (ms ++ ns) = max (nestingMembers ms) (nestingMembers ns) := by
  induction ms with
  | nil => exact (Nat.zero_max _).symm
  | cons m ms ih => rw [List.cons_append, nestingMembers, nestingMembers, ih, Nat.max_assoc]

end Json

end CodePattern
