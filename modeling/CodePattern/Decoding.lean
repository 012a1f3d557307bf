import CodePattern.Encoding
import CodePattern.Json.Shape

/-! Reading the JSON forms of data back. Members that a record does not know are
ignored, and an optional member may be absent or null. -/

namespace CodePattern

open Json (Fault Field Reads readBool readLong readOffset readOptional readRecord readText
  readVariant readWord required optional)

def Language.read : Reads Language :=
  readVariant (Language.all.map fun l => (l.name, l))

def Package.read : Reads Package := readVariant [("php", .php), ("python", .python)]

def PatternKind.read : Reads PatternKind :=
  readVariant [("expr", .expr), ("stmt", .stmt), ("stmts", .stmts)]

def Span.fields : List Field :=
  [.of "startByte" readOffset, .of "endByte" readOffset, .of "startLine" readWord,
    .of "startCol" readWord, .of "endLine" readWord, .of "endCol" readWord]

def Span.read (v : Json) : Except Fault Span := do
  let ms ← readRecord "Span" Span.fields v
  return {
    startByte := ← required ms "startByte" readOffset
    endByte := ← required ms "endByte" readOffset
    startLine := ← required ms "startLine" readWord
    startCol := ← required ms "startCol" readWord
    endLine := ← required ms "endLine" readWord
    endCol := ← required ms "endCol" readWord }

inductive MetaTag where
  | metavariable
  | ellipsisMetavariable
  | ellipsis
  deriving DecidableEq, Repr

namespace MetaTag

def variants : List (String × MetaTag) :=
  [("metavariable", .metavariable), ("ellipsis_metavariable", .ellipsisMetavariable),
    ("ellipsis", .ellipsis)]

def read : Reads MetaTag
  | .str s =>
    match variants.find? (·.1 == s) with
    | some (_, tag) => .ok tag
    | none => .error (.unknownVariant s (variants.map (·.1)))
  | v => .error (.wrongType v "variant identifier")

def find : Option MetaTag → List (String × Json) → Except Fault (Option MetaTag)
  | tag, [] => .ok tag
  | tag, (key, v) :: rest =>
    if key = "type" then
      if tag.isSome then .error (.duplicateField "type")
      else
        match read v with
        | .ok t => find (some t) rest
        | .error e => .error e
    else find tag rest

end MetaTag

def Meta.readName (members : List (String × Json)) : Except Fault String := do
  let others := members.filter (·.1 ≠ "type")
  Json.checkMembers [.of "name" readText] [] others
  required others "name" readText

/-- The name of a metavariable given as an array after its tag. -/
def Meta.readNameItem (variant : String) : List Json → Except Fault String
  | [] => .error (.wrongLength 0 s!"struct variant Meta::{variant} with 1 element")
  | [v] => readText v
  | v :: vs => do
    let _ ← readText v
    throw (.wrongLength (vs.length + 1) "1 element in sequence")

def Meta.read : Reads Meta
  | .obj members => do
    match ← MetaTag.find none members with
    | none => throw (.missingField "type")
    | some .metavariable => return .metavariable (← readName members)
    | some .ellipsisMetavariable => return .ellipsisMetavariable (← readName members)
    | some .ellipsis => return .ellipsis
  | .arr [] => .error (.missingField "type")
  | .arr (tag :: items) => do
    match ← MetaTag.read tag with
    | .metavariable => return .metavariable (← readNameItem "Metavariable" items)
    | .ellipsisMetavariable =>
      return .ellipsisMetavariable (← readNameItem "EllipsisMetavariable" items)
    | .ellipsis =>
      if items.isEmpty then return .ellipsis
      else throw (.wrongLength items.length "0 elements in sequence")
  | v => .error (.wrongType v "internally tagged enum Meta")

def AstNode.fields : List Field :=
  [.of "kind" readText, .of "named" readBool, .of "field" (readOptional readText),
    .of "span" Span.read, .of "text" (readOptional readText),
    .of "meta" (readOptional Meta.read), .of "error" readBool]

def AstNode.read (v : Json) : Except Fault AstNode := do
  let ms ← readRecord "AstNode" AstNode.fields v
  return {
    kind := ← required ms "kind" readText
    named := ← required ms "named" readBool
    field := ← optional ms "field" readText
    span := ← required ms "span" Span.read
    text := ← optional ms "text" readText
    pattern := ← optional ms "meta" Meta.read
    error := ← required ms "error" readBool }

def SyntaxError.read (v : Json) : Except Fault SyntaxError := do
  let ms ← readRecord "SyntaxError" [.of "message" readText, .of "span" Span.read] v
  return {
    message := ← required ms "message" readText
    span := ← required ms "span" Span.read }

def ParseStats.read (v : Json) : Except Fault ParseStats := do
  let ms ← readRecord "ParseStats" [.of "totalLines" readWord, .of "errorLines" readWord] v
  return {
    totalLines := ← required ms "totalLines" readWord
    errorLines := ← required ms "errorLines" readWord }

def ParserConfig.read (v : Json) : Except Fault ParserConfig := do
  let ms ← readRecord "ParserConfig"
    [.of "max_target_bytes" readLong, .of "parse_timeout_micros" readLong] v
  return {
    maxTargetBytes := ← required ms "max_target_bytes" readLong
    parseTimeoutMicros := ← required ms "parse_timeout_micros" readLong }

end CodePattern
