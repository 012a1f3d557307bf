import CodePattern.Encoding
import CodePattern.Handle
import CodePattern.Json.Text

/-! The parser as part of another program, which names languages by their numbers and
takes results as JSON text. Every error says which operation failed. -/

namespace CodePattern

inductive EmbeddingError where
  | load (error : PackageError)
  | unknownId (id : Nat)
  | pattern (error : RequestError)
  | target (error : RequestError)
  deriving DecidableEq, Repr

def EmbeddingError.message : EmbeddingError → String
  | .load error => "ParserFactory failed: " ++ error.message
  | .unknownId id => (LanguageError.unknownId id).message
  | .pattern error => "parsePattern failed: " ++ error.explain
  | .target error => "parseTarget failed: " ++ error.explain

namespace Embedding

def defaultPackage : Package := .python

def load (grammarOf : Family → Grammar) (name : Option String) : Except EmbeddingError Handle :=
  let package :=
    match name with
    | some name => Package.parse name
    | none => .ok defaultPackage
  match package with
  | .ok p => .ok ⟨p, .default, grammarOf p.family⟩
  | .error e => .error (.load e)

def languageOf (id : Nat) : Except EmbeddingError Language :=
  match Language.ofId? id with
  | some lang => .ok lang
  | none => .error (.unknownId id)

def parsePattern (h : Handle) (strict : Bool) (text : String) (id : Option Nat) :
    Except EmbeddingError String := do
  let parsed ←
    match id with
    | some id => do
      let lang ← languageOf id
      pure (h.parsePatternAs lang strict text)
    | none => pure (h.parsePattern strict text)
  match parsed with
  | .ok pattern => .ok pattern.toJson.render
  | .error e => .error (.pattern e)

def parseTarget (h : Handle) (t : FileTree) (path : Path) (id : Option Nat) :
    Except EmbeddingError String := do
  let parsed ←
    match id with
    | some id => do
      let lang ← languageOf id
      pure (h.parseTargetAs t lang path)
    | none => pure (h.parseTarget t path)
  match parsed with
  | .ok target => .ok target.toJson.render
  | .error e => .error (.target e)

end Embedding

end CodePattern
