import CodePattern.Encoding
import CodePattern.Handle
import CodePattern.Json.Text

/-! The command line. After the command come flags and positional words in any order,
and two dashes end the flags. A flag takes the next word as its value whatever it
looks like, and of several values the last one counts. -/

namespace CodePattern

inductive Command where
  | langs
  | pattern (strict : Bool) (text : String)
  | target (path : Path)
  | scan (root : Path)
  deriving DecidableEq, Repr

structure Arguments where
  package : Package
  lang : Option Language
  config : ParserConfig
  command : Command
  deriving DecidableEq, Repr

inductive Flag where
  | package
  | lang
  | root
  | maxBytes
  | timeoutMicros
  deriving DecidableEq, Repr

def Flag.word : Flag → String
  | .package => "--package"
  | .lang => "--lang"
  | .root => "--root"
  | .maxBytes => "--max-bytes"
  | .timeoutMicros => "--timeout-us"

inductive ArgumentError where
  | noCommand
  | missingValue (flag : Flag)
  | invalidValue (flag : Flag) (value : String) (fault : NumeralFault)
  | package (error : PackageError)
  | language (error : LanguageError)
  | unknownFlag (flag : String)
  | missingPackage
  | unknownCommand (command : String)
  | missingText
  | missingPath
  deriving DecidableEq, Repr

def usage : String :=
  "Usage: langpack langs|pattern|target|scan --package <php|python> [--strict] [--lang L] " ++
    "[--root DIR] [--max-bytes N] [--timeout-us N] [TEXT|PATH]"

namespace ArgumentError

def message : ArgumentError → String
  | .noCommand => usage
  | .missingValue flag => s!"Missing value after {flag.word}"
  | .invalidValue flag value _ => s!"Invalid value for {flag.word}: {value}"
  | .package error => error.message
  | .language error => error.message
  | .unknownFlag flag => s!"Unknown flag: {flag}"
  | .missingPackage => "Missing --package\n" ++ usage
  | .unknownCommand command => s!"Unknown command: {command}\n" ++ usage
  | .missingText => "Missing pattern text"
  | .missingPath => "Missing target path"

def cause? : ArgumentError → Option String
  | .invalidValue _ _ fault => some fault.message
  | _ => none

end ArgumentError

structure Settings where
  package : Option Package
  lang : Option Language
  strict : Bool
  root : Option String
  config : ParserConfig
  positionals : List String
  deriving DecidableEq, Repr

namespace Settings

def initially : Settings := ⟨none, none, false, none, .default, []⟩

def readLong (flag : Flag) (value : String) : Except ArgumentError Nat :=
  match readNumeral UInt64.size value.toList with
  | .ok n => .ok n
  | .error fault => .error (.invalidValue flag value fault)

def set (s : Settings) : Flag → String → Except ArgumentError Settings
  | .package, value =>
    match Package.parse value with
    | .ok p => .ok { s with package := some p }
    | .error e => .error (.package e)
  | .lang, value =>
    match Language.parse value with
    | .ok l => .ok { s with lang := some l }
    | .error e => .error (.language e)
  | .root, value => .ok { s with root := some value }
  | .maxBytes, value => do
    let n ← readLong .maxBytes value
    return { s with config := { s.config with maxTargetBytes := n } }
  | .timeoutMicros, value => do
    let n ← readLong .timeoutMicros value
    return { s with config := { s.config with parseTimeoutMicros := n } }

end Settings

/-- What a word is when no flag before it takes it as a value. -/
inductive Word where
  | flag (flag : Flag)
  | strict
  | separator
  | unknown
  | positional
  deriving DecidableEq, Repr

def wordOf (word : String) : Word :=
  if word = "--package" then .flag .package
  else if word = "--lang" then .flag .lang
  else if word = "--root" then .flag .root
  else if word = "--strict" then .strict
  else if word = "--max-bytes" then .flag .maxBytes
  else if word = "--timeout-us" then .flag .timeoutMicros
  else if word = "--" then .separator
  else if ['-', '-'].isPrefixOf word.toList then .unknown
  else .positional

def readWords (s : Settings) : List String → Except ArgumentError Settings
  | [] => .ok s
  | word :: rest =>
    match wordOf word with
    | .flag flag =>
      match rest with
      | [] => .error (.missingValue flag)
      | value :: rest =>
        match s.set flag value with
        | .ok s => readWords s rest
        | .error e => .error e
    | .strict => readWords { s with strict := true } rest
    | .separator => .ok { s with positionals := s.positionals ++ rest }
    | .unknown => .error (.unknownFlag word)
    | .positional => readWords { s with positionals := s.positionals ++ [word] } rest

/-- The command that a word and the settings make, a scan beginning at `home` unless a
root is given. -/
def commandOf (home : Path) (s : Settings) : String → Except ArgumentError Command
  | "langs" => .ok .langs
  | "pattern" =>
    if s.positionals.isEmpty then .error .missingText
    else .ok (.pattern s.strict (" ".intercalate s.positionals))
  | "target" =>
    match s.positionals with
    | [] => .error .missingPath
    | path :: _ => .ok (.target path)
  | "scan" => .ok (.scan ((s.root.map Path.ofText).getD home))
  | word => .error (.unknownCommand word)

def readArguments (home : Path) : List String → Except ArgumentError Arguments
  | [] => .error .noCommand
  | word :: rest => do
    let s ← readWords .initially rest
    match s.package with
    | none => throw .missingPackage
    | some package => return ⟨package, s.lang, s.config, ← commandOf home s word⟩

structure Outcome where
  code : UInt32
  stdout : String
  stderr : String
  deriving DecidableEq, Repr

namespace Outcome

def success (v : Json) : Outcome := ⟨0, v.render ++ "\n", ""⟩

def failure (message : String) (cause : Option String) : Outcome :=
  let behind :=
    match cause with
    | some c => "\nCaused by:\n    " ++ c ++ "\n"
    | none => ""
  ⟨1, "", "Error: " ++ message ++ "\n" ++ behind⟩

end Outcome

namespace Command

def answer (h : Handle) (t : FileTree) (lang : Option Language) :
    Command → Except RequestError Json
  | .langs => .ok (.nats h.languageIds)
  | .pattern strict text =>
    match lang with
    | some l => (h.parsePatternAs l strict text).map Pattern.toJson
    | none => (h.parsePattern strict text).map Pattern.toJson
  | .target path =>
    match lang with
    | some l => (h.parseTargetAs t l path).map Target.toJson
    | none => (h.parseTarget t path).map Target.toJson
  | .scan root => (h.parseDirectory t root).map fun targets => .arr (targets.map Target.toJson)

end Command

def FileTree.homePath (t : FileTree) : Path := ⟨slash :: [slash].intercalate t.home⟩

/-- Runs the program on its arguments, the grammar of a family given by `grammarOf`. -/
def runProgram (grammarOf : Family → Grammar) (t : FileTree) (words : List String) : Outcome :=
  match readArguments t.homePath words with
  | .error e => .failure e.message e.cause?
  | .ok arguments =>
    let h : Handle :=
      ⟨arguments.package, arguments.config, grammarOf arguments.package.family⟩
    match arguments.command.answer h t arguments.lang with
    | .ok v => .success v
    | .error e => .failure e.message e.cause?

end CodePattern
