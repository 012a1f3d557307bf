import CodePattern.Json

/-! Reading JSON text. Blanks between tokens are skipped, and a pair of escaped surrogates is one
character. A number has no zeros in front, a string holds no control characters as they are, and
arrays and objects may be nested up to a limit only. -/

namespace CodePattern

namespace Json

def isSpace (c : Char) : Bool := c == ' ' || c == '\t' || c == '\n' || c == '\r'

def skipSpace (cs : List Char) : List Char := cs.dropWhile isSpace

def hexValue? (c : Char) : Option Nat :=
  if '0' ≤ c ∧ c ≤ '9' then some (c.toNat - '0'.toNat)
  else if 'a' ≤ c ∧ c ≤ 'f' then some (c.toNat - 'a'.toNat + 10)
  else if 'A' ≤ c ∧ c ≤ 'F' then some (c.toNat - 'A'.toNat + 10)
  else none

def unit? (a b c d : Char) : Option Nat := do
  let a ← hexValue? a
  let b ← hexValue? b
  let c ← hexValue? c
  let d ← hexValue? d
  return ((a * 16 + b) * 16 + c) * 16 + d

def unescape? : Char → Option Char
  | '"' => some '"'
  | '\\' => some '\\'
  | '/' => some '/'
  | 'b' => some '\x08'
  | 'f' => some '\x0c'
  | 'n' => some '\n'
  | 'r' => some '\r'
  | 't' => some '\t'
  | _ => none

def isHighSurrogate (n : Nat) : Bool := 0xD800 ≤ n && n < 0xDC00

def isLowSurrogate (n : Nat) : Bool := 0xDC00 ≤ n && n < 0xE000

/-- The rest of a string after its opening quote, and the text after the string. -/
def readString : List Char → Option (List Char × List Char)
  | [] => none
  | '"' :: rest => some ([], rest)
  | '\\' :: 'u' :: a :: b :: c :: d :: rest => do
    let n ← unit? a b c d
    if isHighSurrogate n then
      match rest with
      | '\\' :: 'u' :: e :: f :: g :: h :: rest =>
        let m ← unit? e f g h
        if isLowSurrogate m then
          let (cs, tail) ← readString rest
          return (Char.ofNat (0x10000 + (n - 0xD800) * 0x400 + (m - 0xDC00)) :: cs, tail)
        else none
      | _ => none
    else if isLowSurrogate n then none
    else
      let (cs, tail) ← readString rest
      return (Char.ofNat n :: cs, tail)
  | '\\' :: e :: rest => do
    let c ← unescape? e
    let (cs, tail) ← readString rest
    return (c :: cs, tail)
  | c :: rest =>
    if c.toNat < 0x20 then none
    else do
      let (cs, tail) ← readString rest
      return (c :: cs, tail)

def digitsValue (digits : List Char) : Nat :=
  digits.foldl (fun n c => n * 10 + (c.toNat - '0'.toNat)) 0

/-- The digits at the beginning of a text, at least one, and what follows them. -/
def readDigits (cs : List Char) : Option (List Char × List Char) :=
  let digits := cs.takeWhile Char.isDigit
  if digits.isEmpty then none else some (digits, cs.dropWhile Char.isDigit)

/-- The whole part of a number. Only a zero alone begins with a zero. -/
def readWhole (cs : List Char) : Option (Nat × List Char) :=
  match readDigits cs with
  | some ('0' :: _ :: _, _) => none
  | some (digits, rest) => some (digitsValue digits, rest)
  | none => none

def digitOf (c : Char) : Fin 10 := Fin.ofNat 10 (c.toNat - '0'.toNat)

/-- The digits after a point, none without a point. -/
def readFraction : List Char → Option (List (Fin 10) × List Char)
  | '.' :: rest => (readDigits rest).map fun (digits, tail) => (digits.map digitOf, tail)
  | rest => some ([], rest)

/-- A power of ten, with or without a sign. -/
def readPower : List Char → Option (Int × List Char)
  | '-' :: rest => (readDigits rest).map fun (digits, tail) => (-digitsValue digits, tail)
  | '+' :: rest => (readDigits rest).map fun (digits, tail) => (digitsValue digits, tail)
  | rest => (readDigits rest).map fun (digits, tail) => (digitsValue digits, tail)

def readExponent : List Char → Option (Option Int × List Char)
  | 'e' :: rest => (readPower rest).map fun (e, tail) => (some e, tail)
  | 'E' :: rest => (readPower rest).map fun (e, tail) => (some e, tail)
  | rest => some (none, rest)

/-- A number after its sign. -/
def readNumeric (negative : Bool) (cs : List Char) : Option (Json × List Char) := do
  let (whole, rest) ← readWhole cs
  let (fraction, rest) ← readFraction rest
  let (exponent, tail) ← readExponent rest
  return (number negative whole fraction exponent, tail)

def expect? (keyword cs : List Char) : Option (List Char) :=
  if keyword.isPrefixOf cs then some (cs.drop keyword.length) else none

mutual
/-- Reads one value, each nested value taking one of the steps and each array or object one of the
levels allowed. -/
def readValue : Nat → Nat → List Char → Option (Json × List Char)
  | 0, _, _ => none
  | fuel + 1, levels, cs =>
    match skipSpace cs with
    | 'n' :: rest => (expect? "ull".toList rest).map (.null, ·)
    | 't' :: rest => (expect? "rue".toList rest).map (.bool true, ·)
    | 'f' :: rest => (expect? "alse".toList rest).map (.bool false, ·)
    | '"' :: rest => (readString rest).map fun (s, tail) => (.str (String.ofList s), tail)
    | '-' :: rest => readNumeric true rest
    | '[' :: rest =>
      match levels with
      | 0 => none
      | levels + 1 =>
        match skipSpace rest with
        | ']' :: tail => some (.arr [], tail)
        | rest => do
          let (v, rest) ← readValue fuel levels rest
          let (vs, tail) ← readItems fuel levels rest
          return (.arr (v :: vs), tail)
    | '\x7b' :: rest =>
      match levels with
      | 0 => none
      | levels + 1 =>
        match skipSpace rest with
        | '\x7d' :: tail => some (.obj [], tail)
        | rest => do
          let (m, rest) ← readMember fuel levels rest
          let (ms, tail) ← readMembers fuel levels rest
          return (.obj (m :: ms), tail)
    | rest => readNumeric false rest
termination_by structural fuel => fuel

def readItems : Nat → Nat → List Char → Option (List Json × List Char)
  | 0, _, _ => none
  | fuel + 1, levels, cs =>
    match skipSpace cs with
    | ']' :: tail => some ([], tail)
    | ',' :: rest => do
      let (v, rest) ← readValue fuel levels rest
      let (vs, tail) ← readItems fuel levels rest
      return (v :: vs, tail)
    | _ => none

def readMember : Nat → Nat → List Char → Option ((String × Json) × List Char)
  | 0, _, _ => none
  | fuel + 1, levels, cs =>
    match skipSpace cs with
    | '"' :: rest => do
      let (name, rest) ← readString rest
      match skipSpace rest with
      | ':' :: rest =>
        let (v, tail) ← readValue fuel levels rest
        return ((String.ofList name, v), tail)
      | _ => none
    | _ => none

def readMembers : Nat → Nat → List Char → Option (List (String × Json) × List Char)
  | 0, _, _ => none
  | fuel + 1, levels, cs =>
    match skipSpace cs with
    | '\x7d' :: tail => some ([], tail)
    | ',' :: rest => do
      let (m, rest) ← readMember fuel levels rest
      let (ms, tail) ← readMembers fuel levels rest
      return (m :: ms, tail)
    | _ => none
end

/-- Reads a text with at most so many arrays and objects inside each other. -/
def readWithin? (levels : Nat) (cs : List Char) : Option Json :=
  match readValue (2 * cs.length + 1) levels cs with
  | some (v, tail) => if (skipSpace tail).isEmpty then some v else none
  | none => none

/-- Readers go no deeper, so that no text exhausts their stack. -/
def nestingLimit : Nat := 127

def read? (cs : List Char) : Option Json := readWithin? nestingLimit cs

end Json

end CodePattern
