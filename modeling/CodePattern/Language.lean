import CodePattern.Text.Blank
import CodePattern.Text.Line
import CodePattern.Text.Numeral
import CodePattern.Path

/-! Languages, the grammar families that parse them and the packages that bundle
them. A language is named by one of its names or by its number, and a file reveals
its language by its extension and by the interpreter line it starts with. -/

namespace CodePattern

inductive Family where
  | php
  | python
  deriving DecidableEq, Repr

/-- A language or dialect. `python` leaves the major version open. -/
inductive Language where
  | php
  | python2
  | python3
  | python
  deriving DecidableEq, Repr

inductive LanguageError where
  | unknownName (name : String)
  | unknownId (id : Nat)
  deriving DecidableEq, Repr

def LanguageError.message : LanguageError → String
  | .unknownName name => s!"unknown language: {name}"
  | .unknownId id => s!"unknown language id: {id}"

def Family.name : Family → String
  | .php => "php"
  | .python => "python"

namespace Language

def all : List Language := [.php, .python2, .python3, .python]

def id : Language → Nat
  | .php => 21
  | .python2 => 22
  | .python3 => 23
  | .python => 24

def ofId? (n : Nat) : Option Language := all.find? (·.id == n)

def name : Language → String
  | .php => "php"
  | .python2 => "python2"
  | .python3 => "python3"
  | .python => "python"

def family : Language → Family
  | .php => .php
  | .python2 => .python
  | .python3 => .python
  | .python => .python

def ofName? : String → Option Language
  | "php" => some .php
  | "python" => some .python
  | "py" => some .python
  | "python2" => some .python2
  | "py2" => some .python2
  | "python3" => some .python3
  | "py3" => some .python3
  | _ => none

/-- Reads a name or a number of 32 bits, without regard to case and to white space
around it. A numeral that does not fit is taken for a name. -/
def parse (text : String) : Except LanguageError Language :=
  let key := lowerAscii (trim text.toList)
  match readNumeral UInt32.size key with
  | .ok n =>
    match ofId? n with
    | some lang => .ok lang
    | none => .error (.unknownId n)
  | .error _ =>
    match ofName? (String.ofList key) with
    | some lang => .ok lang
    | none => .error (.unknownName (String.ofList key))

def ofExtension? (extension : String) : Option Language :=
  let key := String.ofList (lowerAscii extension.toList)
  if ["php", "phtml", "php3", "php4", "php5", "php7", "php8", "phps"].contains key then some .php
  else if ["py", "pyi", "pyw"].contains key then some .python
  else none

def occurs (word : List Char) : List Char → Bool
  | [] => word.isEmpty
  | c :: cs => word.isPrefixOf (c :: cs) || occurs word cs

/-- The Python dialect that the interpreter line of a file asks for. -/
def ofInterpreterLine? (content : List Char) : Option Language :=
  match firstLine? content with
  | some ('#' :: '!' :: interpreter) =>
    if occurs "python2".toList interpreter then some .python2
    else if occurs "python3".toList interpreter then some .python3
    else if occurs "python".toList interpreter then some .python
    else none
  | _ => none

/-- The language of a file. The extension decides, except that the interpreter line
chooses the dialect of Python and speaks for files without a known extension. -/
def detect (path : Path) (content : List Char) : Option Language :=
  match path.extensionText?.bind ofExtension?, ofInterpreterLine? content with
  | some .python, some dialect => some dialect
  | some lang, _ => some lang
  | none, dialect => dialect

end Language

inductive Package where
  | php
  | python
  deriving DecidableEq, Repr

inductive PackageError where
  | unknown (name : String)
  deriving DecidableEq, Repr

def PackageError.message : PackageError → String
  | .unknown name => s!"unknown package: {name}"

namespace Package

def name : Package → String
  | .php => "php"
  | .python => "python"

def family : Package → Family
  | .php => .php
  | .python => .python

def defaultLanguage : Package → Language
  | .php => .php
  | .python => .python

def languages (p : Package) : List Language :=
  p.defaultLanguage ::
    match p with
    | .php => []
    | .python => [.python2, .python3]

def provides (p : Package) (lang : Language) : Bool := p.languages.contains lang

def parse (text : String) : Except PackageError Package :=
  let key := String.ofList (lowerAscii (trim text.toList))
  match key with
  | "php" => .ok .php
  | "python" => .ok .python
  | "py" => .ok .python
  | _ => .error (.unknown key)

end Package

end CodePattern
