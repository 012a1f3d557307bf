import CodePattern.Conversion

/-! Parsing of whole files. Syntax errors are recorded and never make it fail. -/

namespace CodePattern

structure ParseStats where
  totalLines : UInt32
  errorLines : UInt32
  deriving DecidableEq, Repr

structure Target where
  lang : Language
  path : String
  ast : Ast
  errors : List SyntaxError
  stats : ParseStats

namespace ParseStats

def linesOf (span : Span) : List Nat :=
  List.range' span.startLine.toNat (span.endLine.toNat + 1 - span.startLine.toNat)

def countNew (counted : Option Nat × Nat) (n : Nat) : Option Nat × Nat :=
  if counted.1 = some n then counted else (some n, counted.2 + 1)

def countDistinct (numbers : List Nat) : Nat :=
  ((numbers.mergeSort (· ≤ ·)).foldl countNew (none, 0)).2

def ofErrors (totalLines : UInt32) (errors : List SyntaxError) : ParseStats :=
  ⟨totalLines, (countDistinct (errors.flatMap fun e => linesOf e.span)).toUInt32⟩

end ParseStats

namespace Target

def parse (g : Grammar) (lang : Language) (path : Path) (content : List Char) :
    Except ParseFailure Target :=
  match g.parse content with
  | .error failure => .error failure
  | .ok tree =>
    let map := OffsetMap.identity (width content)
    let converted := (Conversion.of g.family .target content content map).run tree
    let errors := converted.errors ++ g.dialectErrors lang converted.ast
    let totalLines := (lines content).length.toUInt32
    .ok ⟨lang, path.shown, converted.ast, errors, .ofErrors totalLines errors⟩

end Target

end CodePattern
