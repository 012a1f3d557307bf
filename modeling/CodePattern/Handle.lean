import CodePattern.Config
import CodePattern.Pattern
import CodePattern.Scan
import CodePattern.Target
import CodePattern.Text.Lossy

/-! A parser handle serves the languages of one package. It parses patterns, files and
whole directories, and refuses languages that the package does not provide. -/

namespace CodePattern

structure Handle where
  package : Package
  config : ParserConfig
  grammar : Grammar

inductive RequestError where
  | unprovided (lang : Language) (package : Package)
  | pattern (error : PatternError)
  | inaccessible (path : String) (fault : AccessFault)
  | notRegular (path : String)
  | tooLarge (path : String) (size limit : Nat)
  | unreadable (path : String) (fault : AccessFault)
  | undetected (path : String)
  | unparsed (path : String) (failure : ParseFailure)
  | notDirectory (path : String)
  deriving DecidableEq, Repr

namespace RequestError

def message : RequestError → String
  | .unprovided lang package =>
    s!"language {lang.name} ({lang.id}) is not provided by the {package.name} package"
  | .pattern error => error.message
  | .inaccessible path _ => s!"cannot access {path}"
  | .notRegular path => s!"{path} is not a regular file"
  | .tooLarge path size limit => s!"{path} is {size} bytes, over the {limit} byte limit"
  | .unreadable path _ => s!"cannot read {path}"
  | .undetected path => s!"cannot determine the language of {path}"
  | .unparsed path _ => s!"failed to parse {path}"
  | .notDirectory path => s!"{path} is not a directory"

/-- What lies behind an error, if its message does not tell all. -/
def cause? : RequestError → Option String
  | .inaccessible _ fault | .unreadable _ fault => some fault.message
  | .unparsed _ failure => some failure.message
  | _ => none

def explain (e : RequestError) : String :=
  match e.cause? with
  | some cause => e.message ++ ": " ++ cause
  | none => e.message

end RequestError

/-- The content of a file of at most the size allowed. Octets that are not UTF-8 are
replaced. -/
def readTarget (t : FileTree) (config : ParserConfig) (path : Path) :
    Except RequestError (List Char) :=
  match t.lookup path with
  | .error fault => .error (.inaccessible path.shown fault)
  | .ok trail =>
    match trail.node with
    | .regular size content =>
      if config.maxTargetBytes < size then
        .error (.tooLarge path.shown size config.maxTargetBytes)
      else
        match content with
        | .error fault => .error (.unreadable path.shown fault)
        | .ok content => .ok (decodeLossy content.data.toList)
    | _ => .error (.notRegular path.shown)

namespace Handle

def languages (h : Handle) : List Language := h.package.languages

def languageIds (h : Handle) : List Nat := h.languages.map Language.id

def ensureProvides (h : Handle) (lang : Language) : Except RequestError Unit :=
  if h.package.provides lang then .ok () else .error (.unprovided lang h.package)

def parsePatternAs (h : Handle) (lang : Language) (strict : Bool) (text : String) :
    Except RequestError Pattern := do
  h.ensureProvides lang
  match Pattern.parse h.grammar lang strict text with
  | .ok pattern => .ok pattern
  | .error e => .error (.pattern e)

def parsePattern (h : Handle) (strict : Bool) (text : String) : Except RequestError Pattern :=
  h.parsePatternAs h.package.defaultLanguage strict text

def parseContent (h : Handle) (lang : Language) (path : Path) (content : List Char) :
    Except RequestError Target :=
  match Target.parse h.grammar lang path content with
  | .ok target => .ok target
  | .error failure => .error (.unparsed path.shown failure)

def parseTarget (h : Handle) (t : FileTree) (path : Path) : Except RequestError Target := do
  let content ← readTarget t h.config path
  match Language.detect path content with
  | none => throw (.undetected path.shown)
  | some lang =>
    h.ensureProvides lang
    h.parseContent lang path content

def parseTargetAs (h : Handle) (t : FileTree) (lang : Language) (path : Path) :
    Except RequestError Target := do
  h.ensureProvides lang
  let content ← readTarget t h.config path
  h.parseContent lang path content

def targetAt? (h : Handle) (t : FileTree) (path : Path) : Option Target :=
  match readTarget t h.config path with
  | .error _ => none
  | .ok content =>
    match (Language.detect path content).filter h.package.provides with
    | none => none
    | some lang => (Target.parse h.grammar lang path content).toOption

def parseFiles (h : Handle) (t : FileTree) (paths : List Path) : List Target :=
  paths.filterMap (h.targetAt? t)

/-- Parses every file that the package recognises among what a walk of a directory
found. -/
def parseFound (h : Handle) (t : FileTree) (root : Path) (found : List Found) :
    Except RequestError (List Target) :=
  if t.isDirectory root then .ok (h.parseFiles t (Scan.select h.package root found))
  else .error (.notDirectory root.shown)

def parseDirectory (h : Handle) (t : FileTree) (root : Path) :
    Except RequestError (List Target) :=
  h.parseFound t root (t.walk root)

/-- A line that shows the package and the limits of a handle. -/
def summary (h : Handle) : String :=
  let package :=
    match h.package with
    | .php => "Php"
    | .python => "Python"
  "ParserHandle \x7b package: " ++ package ++
    ", config: ParserConfig \x7b max_target_bytes: " ++ toString h.config.maxTargetBytes ++
    ", parse_timeout_micros: " ++ toString h.config.parseTimeoutMicros ++ " \x7d \x7d"

end Handle

end CodePattern
