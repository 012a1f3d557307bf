import CodePattern.Json

/-! The compact text of a JSON value, without blanks. A string escapes quotes,
backslashes and the control characters below the space, and nothing else. -/

namespace CodePattern

namespace Json

def hexDigit (n : Nat) : Char :=
  if n < 10 then Char.ofNat ('0'.toNat + n) else Char.ofNat ('a'.toNat + (n - 10))

def escape (c : Char) : List Char :=
  if c = '"' then ['\\', '"']
  else if c = '\\' then ['\\', '\\']
  else if c = '\x08' then ['\\', 'b']
  else if c = '\x0c' then ['\\', 'f']
  else if c = '\n' then ['\\', 'n']
  else if c = '\r' then ['\\', 'r']
  else if c = '\t' then ['\\', 't']
  else if c.toNat < 0x20 then
    ['\\', 'u', '0', '0', hexDigit (c.toNat / 16), hexDigit (c.toNat % 16)]
  else [c]

def quoted (s : String) : List Char := '"' :: (s.toList.flatMap escape ++ ['"'])

def decimal : Int → List Char
  | .ofNat n => Nat.toDigits 10 n
  | .negSucc n => '-' :: Nat.toDigits 10 (n + 1)

def digitChars (digits : List (Fin 10)) : List Char := digits.map (Nat.digitChar ·.val)

def fractionText : List (Fin 10) → List Char
  | [] => []
  | digits => '.' :: digitChars digits

def exponentText : Option Int → List Char
  | some e => 'e' :: decimal e
  | none => []

def fractional (x : Fractional) : List Char :=
  (if x.negative then ['-'] else []) ++
    (Nat.toDigits 10 x.whole ++ (fractionText x.fraction ++ exponentText x.exponent))

mutual
def text : Json → List Char
  | .null => "null".toList
  | .bool true => "true".toList
  | .bool false => "false".toList
  | .num n => decimal n
  | .frac x => fractional x
  | .str s => quoted s
  | .arr [] => ['[', ']']
  | .arr (v :: vs) => '[' :: (text v ++ itemsText vs)
  | .obj [] => ['\x7b', '\x7d']
  | .obj ((k, v) :: ms) => '\x7b' :: (quoted k ++ ':' :: (text v ++ membersText ms))

def itemsText : List Json → List Char
  | [] => [']']
  | v :: vs => ',' :: (text v ++ itemsText vs)

def membersText : List (String × Json) → List Char
  | [] => ['\x7d']
  | (k, v) :: ms => ',' :: (quoted k ++ ':' :: (text v ++ membersText ms))
end

def render (v : Json) : String := String.ofList v.text

end Json

end CodePattern
