import CodePattern.Conversion
import CodePattern.Indentation

/-! Parsing of code patterns. A pattern is tried as it is written and without its
common indentation, each within every wrapping that the grammar offers. The first
candidate without errors is taken. If there is none, a strict parse fails and a
lenient one takes the earliest candidate with the fewest errors. -/

namespace CodePattern

inductive PatternKind where
  | expr
  | stmt
  | stmts
  deriving DecidableEq, Repr

def PatternKind.name : PatternKind → String
  | .expr => "expr"
  | .stmt => "stmt"
  | .stmts => "stmts"

structure Pattern where
  lang : Language
  kind : PatternKind
  strict : Bool
  ast : Ast
  metavariables : List String
  errors : List SyntaxError

inductive PatternError where
  | empty (lang : Language)
  | unparsed (failure : ParseFailure)
  | noCandidate
  | invalid (lang : Language) (error : SyntaxError)
  | noCode (lang : Language)
  deriving DecidableEq, Repr

def PatternError.message : PatternError → String
  | .empty lang => s!"empty {lang.name} pattern"
  | .unparsed failure => failure.message
  | .noCandidate => "no pattern candidate was parsed"
  | .invalid lang e =>
    s!"invalid {lang.name} pattern at {e.span.startLine}:{e.span.startCol}: {e.message}"
  | .noCode lang => s!"{lang.name} pattern contains no parsable code"

/-- A program that a pattern may stand for, and the way back to the pattern's text. -/
structure Candidate where
  parsed : List Char
  map : OffsetMap
  deriving DecidableEq, Repr

/-- The program that a wrapping makes of the body, which is a base of the text with
placeholders in it. -/
def Candidate.wrap (text : List Char) (base body : Revision) (w : Wrapping) : Candidate :=
  ⟨w.apply body.text,
    (((OffsetMap.identity (width text)).withOpening (width w.opening.toList)).push
      base.edits).push body.edits⟩

namespace Pattern

/-- The text as it is written and, if it is indented as a whole, without its
indentation. -/
def bases (text : List Char) : List Revision :=
  ⟨text, []⟩ :: (Indentation.remove? text).toList

def candidatesOf (g : Grammar) (text : List Char) (base : Revision) : List Candidate :=
  let body := Placeholder.insert g.family base.text
  (g.wrappings body.text).map (.wrap text base body)

def candidates (g : Grammar) (text : List Char) : List Candidate :=
  (bases text).flatMap (candidatesOf g text)

/-- Parses a candidate. What the dialect rejects comes after the errors of the
grammar. -/
def attempt (g : Grammar) (lang : Language) (text : List Char) (c : Candidate) :
    Except ParseFailure Converted :=
  match g.parse c.parsed with
  | .error failure => .error failure
  | .ok tree =>
    let converted := (Conversion.of g.family .pattern c.parsed text c.map).run tree
    .ok { converted with errors := converted.errors ++ g.dialectErrors lang converted.ast }

def better (best : Option Converted) (next : Converted) : Converted :=
  match best with
  | some b => if next.errors.length < b.errors.length then next else b
  | none => next

/-- The outcome of the first candidate that has no errors or cannot be parsed, or else
the best outcome of all. -/
def settle (attempt : Candidate → Except ParseFailure Converted) :
    Option Converted → List Candidate → Except ParseFailure (Option Converted)
  | best, [] => .ok best
  | best, c :: cs =>
    match attempt c with
    | .error failure => .error failure
    | .ok converted =>
      if converted.errors.isEmpty then .ok (some converted)
      else settle attempt (some (better best converted)) cs

def metavariablesOf (nodes : List AstNode) : List String :=
  (nodes.filterMap (fun n => n.pattern.bind Meta.name?)).foldl
    (fun names name => if names.contains name then names else names ++ [name]) []

/-- Kind and tree of a pattern whose statements have these numbers. A single expression
statement gives its expression. -/
def classify (ast : Ast) (topLevel : List Nat) : PatternKind × Ast :=
  match topLevel with
  | [only] =>
    match ast.children only with
    | [expr] =>
      if (ast.get? only).any (·.kind = "expression_statement") then (.expr, ast.subtree expr)
      else (.stmt, ast.subtree only)
    | _ => (.stmt, ast.subtree only)
  | _ => (.stmts, ast)

/-- Makes a pattern of a parsed candidate that holds at least one statement without
error. -/
def finish (g : Grammar) (lang : Language) (strict : Bool) (converted : Converted) :
    Except PatternError Pattern :=
  if (g.statements converted.ast).any (fun s => !s.label.node.error) then
    let (kind, ast) := classify converted.ast (g.topLevel converted.ast)
    .ok ⟨lang, kind, strict, ast, metavariablesOf ast.nodes, converted.errors⟩
  else .error (.noCode lang)

/-- Makes a pattern of the outcome that the candidates were settled on. A strict parse
fails with its first error. -/
def conclude (g : Grammar) (lang : Language) (strict : Bool) :
    Option Converted → Except PatternError Pattern
  | none => .error .noCandidate
  | some converted =>
    match strict, converted.errors with
    | true, e :: _ => .error (.invalid lang e)
    | _, _ => finish g lang strict converted

def parse (g : Grammar) (lang : Language) (strict : Bool) (text : String) :
    Except PatternError Pattern :=
  let cs := text.toList
  if allBlank cs then .error (.empty lang)
  else
    match settle (attempt g lang cs) none (candidates g cs) with
    | .error failure => .error (.unparsed failure)
    | .ok best => conclude g lang strict best

end Pattern

end CodePattern
