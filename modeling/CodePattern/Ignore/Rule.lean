import CodePattern.Ignore.Glob
import CodePattern.Text.Blank

/-! Ignore files. Each line is a rule, and the last rule that matches a path decides
whether it is ignored or kept. -/

namespace CodePattern

inductive Verdict where
  | ignored
  | kept
  deriving DecidableEq, Repr

structure Rule where
  verdict : Verdict
  directoryOnly : Bool
  pattern : List Glob.Token

namespace Rule

/-- White space at the end of a line does not count, unless a backslash stands before a
last space. -/
def stripEnd (line : List Char) : List Char :=
  if ['\\', ' '].isSuffixOf line then line else trimEnd line

/-- The pattern that a line's text stands for. Without a slash it applies at every
depth, and two stars at its end stand for something inside. -/
def patternOf (anchored : Bool) (text : List Char) : List Char :=
  let pattern :=
    if anchored || text.contains '/' || text == ['*', '*'] then text else "**/".toList ++ text
  if "/**".toList.isSuffixOf pattern then pattern ++ "/*".toList else pattern

/-- Drops a slash at the end, which restricts a rule to directories, and a backslash
before it. -/
def splitDirectory (text : List Char) : Bool × List Char :=
  match text.reverse with
  | '/' :: '\\' :: rest => (true, rest.reverse)
  | '/' :: rest => (true, rest.reverse)
  | _ => (false, text)

def build (verdict : Verdict) (anchored : Bool) (text : List Char) : Option Rule :=
  let (directoryOnly, text) := splitDirectory text
  (Glob.parse? (patternOf anchored text)).map fun pattern =>
    ⟨verdict, directoryOnly, pattern⟩

def unanchor (verdict : Verdict) : List Char → Option Rule
  | '/' :: text => build verdict true text
  | text => build verdict false text

/-- The rule of a line. Comments, blank lines and lines that are no pattern have
none. -/
def ofLine? (line : List Char) : Option Rule :=
  if line.head? = some '#' then none
  else
    match stripEnd line with
    | [] => none
    | '\\' :: '!' :: text => build .ignored false ('!' :: text)
    | '\\' :: '#' :: text => build .ignored false ('#' :: text)
    | '!' :: text => unanchor .kept text
    | text => unanchor .ignored text

def applies (r : Rule) (path : List UInt8) (isDirectory : Bool) : Bool :=
  (isDirectory || !r.directoryOnly) && Glob.isMatch r.pattern path

def byteOrderMark : Char := Char.ofNat 0xFEFF

/-- The rules of a file, none at all if one of them has a pattern that goes too deep. A
byte order mark in front of the first line does not count. -/
def ofFile (content : List UInt8) : List Rule :=
  match decodedLines content with
  | [] => []
  | l :: ls =>
    let rules := (l.dropWhile (· = byteOrderMark) :: ls).filterMap ofLine?
    if rules.any fun r => Glob.isTooDeep r.pattern then [] else rules

def verdict? (rules : List Rule) (path : List UInt8) (isDirectory : Bool) : Option Verdict :=
  (rules.reverse.find? (·.applies path isDirectory)).map (·.verdict)

end Rule

end CodePattern
