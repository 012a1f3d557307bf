import CodePattern.Json.Text
import CodePattern.Text.Hidden

/-! What a JSON value must look like to be read as data, and the faults of values that
do not. A record is given as an object or as an array of its fields in order. Its
fields are read in the order in which they are given, so the first faulty one decides
the fault, and only then are missing fields looked for. -/

namespace CodePattern

namespace Json

inductive Fault where
  | wrongType (found : Json) (expected : String)
  | wrongValue (found : String) (expected : String)
  | wrongLength (length : Nat) (expected : String)
  | unknownVariant (name : String) (variants : List String)
  | missingField (name : String)
  | duplicateField (name : String)
  deriving Repr

def inBackticks (s : String) : String := "`" ++ s ++ "`"

def shownChar (c : Char) : List Char :=
  if c = '"' then ['\\', '"']
  else if c = '\\' then ['\\', '\\']
  else if c = '\n' then ['\\', 'n']
  else if c = '\r' then ['\\', 'r']
  else if c = '\t' then ['\\', 't']
  else if c = '\x00' then ['\\', '0']
  else if isHidden c then ['\\', 'u', '\x7b'] ++ Nat.toDigits 16 c.toNat ++ ['\x7d']
  else [c]

def shown : Json → String
  | .null => "null"
  | .bool b => "boolean " ++ inBackticks (if b then "true" else "false")
  | .num n => "integer " ++ inBackticks (toString n)
  | .frac x => "floating point " ++ inBackticks (String.ofList (fractional x))
  | .str s => "string \"" ++ String.ofList (s.toList.flatMap shownChar) ++ "\""
  | .arr _ => "sequence"
  | .obj _ => "map"

def alternatives : List String → String
  | [] => "there are no variants"
  | [a] => "expected " ++ inBackticks a
  | [a, b] => "expected " ++ inBackticks a ++ " or " ++ inBackticks b
  | names => "expected one of " ++ ", ".intercalate (names.map inBackticks)

def Fault.message : Fault → String
  | .wrongType found expected => s!"invalid type: {found.shown}, expected {expected}"
  | .wrongValue found expected => s!"invalid value: {found}, expected {expected}"
  | .wrongLength length expected => s!"invalid length {length}, expected {expected}"
  | .unknownVariant name variants =>
    "unknown variant " ++ inBackticks name ++ ", " ++ alternatives variants
  | .missingField name => "missing field " ++ inBackticks name
  | .duplicateField name => "duplicate field " ++ inBackticks name

abbrev Reads (α : Type) := Json → Except Fault α

def readText : Reads String
  | .str s => .ok s
  | v => .error (.wrongType v "a string")

def readBool : Reads Bool
  | .bool b => .ok b
  | v => .error (.wrongType v "a boolean")

def readNumber (expected : String) (bound : Option Nat) : Reads Nat
  | .num (.ofNat n) =>
    if bound.all (n < ·) then .ok n
    else .error (.wrongValue ("integer " ++ inBackticks (toString n)) expected)
  | .num n => .error (.wrongValue ("integer " ++ inBackticks (toString n)) expected)
  | v => .error (.wrongType v expected)

def readOffset : Reads Nat := readNumber "usize" none

def readLong : Reads Nat := readNumber "u64" none

def readWord (v : Json) : Except Fault UInt32 :=
  (readNumber "u32" (some UInt32.size) v).map Nat.toUInt32

def readOptional {α : Type} (read : Reads α) : Reads (Option α)
  | .null => .ok none
  | v => (read v).map some

/-- One of several names. It may be the only key of an object whose value is null. -/
def readVariant {α : Type} (variants : List (String × α)) : Reads α
  | .str s => select s
  | .obj [(s, v)] => do
    let a ← select s
    match v with
    | .null => return a
    | v => throw (.wrongType v "unit")
  | .obj _ => .error (.wrongValue "map" "map with a single key")
  | v => .error (.wrongType v "string or map")
where
  select (s : String) : Except Fault α :=
    match variants.find? (·.1 == s) with
    | some (_, a) => .ok a
    | none => .error (.unknownVariant s (variants.map (·.1)))

/-- A field's name, and a check that a value can be read as the field. -/
structure Field where
  name : String
  check : Json → Except Fault Unit

def Field.of {α : Type} (name : String) (read : Reads α) : Field :=
  ⟨name, fun v => (read v).map fun _ => ()⟩

def checkMembers (fields : List Field) :
    List String → List (String × Json) → Except Fault Unit
  | _, [] => .ok ()
  | seen, (key, v) :: rest =>
    match fields.find? (·.name == key) with
    | none => checkMembers fields seen rest
    | some f =>
      if seen.contains key then .error (.duplicateField key)
      else
        match f.check v with
        | .error e => .error e
        | .ok () => checkMembers fields (key :: seen) rest

def elements (n : Nat) : String := if n = 1 then "1 element" else s!"{n} elements"

/-- The members of a record of type `name`, each of which can be read. -/
def readRecord (name : String) (fields : List Field) : Reads (List (String × Json))
  | .obj members => (checkMembers fields [] members).map fun _ => members
  | .arr items => do
    let members := (fields.map (·.name)).zip items
    checkMembers fields [] members
    if items.length < fields.length then
      throw (.wrongLength items.length ("struct " ++ name ++ " with " ++ elements fields.length))
    if fields.length < items.length then
      throw (.wrongLength items.length "fewer elements in array")
    return members
  | v => .error (.wrongType v s!"struct {name}")

def required {α : Type} (members : List (String × Json)) (name : String) (read : Reads α) :
    Except Fault α :=
  match member? name members with
  | some v => read v
  | none => .error (.missingField name)

def optional {α : Type} (members : List (String × Json)) (name : String) (read : Reads α) :
    Except Fault (Option α) :=
  match member? name members with
  | some v => readOptional read v
  | none => .ok none

end Json

end CodePattern
