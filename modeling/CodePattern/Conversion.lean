import CodePattern.Grammar
import CodePattern.OffsetMap
import CodePattern.Placeholder
import CodePattern.Text.Lead

/-! A grammar's tree becomes a tree over the caller's text. Punctuation and keywords
are left out, placeholders become metavariables again and lose what is below them, and
the topmost faults are recorded as errors. -/

namespace CodePattern

inductive Mode where
  | pattern
  | target
  deriving DecidableEq, Repr

/-- What a conversion knows: the parsed text, the caller's text and how offsets lead
from one to the other. -/
structure Conversion where
  family : Family
  mode : Mode
  parsed : List Char
  text : List Char
  map : OffsetMap
  lines : LineTable

/-- A node that stays, with the metavariable it stands for. A leaf is such a node, or
one without children in the grammar's tree. -/
structure Kept where
  node : GrammarNode
  pattern : Option Meta
  leaf : Bool
  deriving DecidableEq, Repr

structure Converted where
  ast : Ast
  errors : List SyntaxError

def pythonIdentifier? (text : List Char) : Option Meta :=
  match afterLead? Placeholder.ellipsisMetavariableMark text with
  | some name => some (.ellipsisMetavariable ("$..." ++ String.ofList name))
  | none =>
    (afterLead? Placeholder.metavariableMark text).map
      (fun name => .metavariable ("$" ++ String.ofList name))

def phpVariable? (text : List Char) : Option Meta :=
  match afterLead? ('$' :: Placeholder.ellipsisMetavariableMark) text with
  | some name => some (.ellipsisMetavariable ("$..." ++ String.ofList name))
  | none => if isPhpMetavariable text then some (.metavariable (String.ofList text)) else none

def snippetLength : Nat := 40

namespace Conversion

def of (family : Family) (mode : Mode) (parsed text : List Char) (map : OffsetMap) :
    Conversion :=
  ⟨family, mode, parsed, text, map, .ofText text⟩

/-- The caller's text below a span, empty if the span cuts a character. -/
def textOf (c : Conversion) (span : Span) : List Char :=
  (slice? c.text span.startByte span.endByte).getD []

def parsedText (c : Conversion) (n : GrammarNode) : List Char :=
  (slice? c.parsed n.start n.stop).getD []

def span (c : Conversion) (n : GrammarNode) : Span :=
  let start := c.map.locate n.start
  c.lines.span start (max (c.map.locate n.stop) start)

/-- The metavariable that a node stands for. Variables interpolated into PHP strings
are part of the string. -/
def pattern? (c : Conversion) (inString : Bool) (n : GrammarNode) : Option Meta :=
  match c.mode with
  | .target => none
  | .pattern =>
    let text := c.parsedText n
    match c.family with
    | .python =>
      if n.kind = "identifier" then pythonIdentifier? text
      else if n.kind = "ellipsis" then some .ellipsis
      else none
    | .php =>
      if n.kind = "variable_name" then if inString then none else phpVariable? text
      else if n.kind = "name" ∧ text = Placeholder.phpEllipsis then some .ellipsis
      else none

mutual
/-- The nodes that stay, `inString` telling whether one above is a PHP string. -/
def keep (c : Conversion) (inString : Bool) : Rose GrammarNode → Option (Rose Kept)
  | .node n cs =>
    if n.informative then
      let pattern := c.pattern? inString n
      let leaf := pattern.isSome || cs.isEmpty
      some (.node ⟨n, pattern, leaf⟩
        (if pattern.isSome then [] else keepAll c (inString || Php.stringKinds.contains n.kind) cs))
    else none

def keepAll (c : Conversion) (inString : Bool) : List (Rose GrammarNode) → List (Rose Kept)
  | [] => []
  | t :: ts =>
    match keep c inString t with
    | some k => k :: keepAll c inString ts
    | none => keepAll c inString ts
end

def astNode (c : Conversion) (k : Kept) : AstNode where
  kind := k.node.kind
  named := k.node.named
  field := k.node.field
  span := c.span k.node
  text := if k.leaf then some (String.ofList (c.textOf (c.span k.node))) else none
  pattern := k.pattern
  error := k.node.faulty

mutual
/-- The faulty nodes with no faulty node above them, in preorder. -/
def topmostFaults : Rose Kept → List GrammarNode
  | .node k cs => if k.node.faulty then [k.node] else topmostFaultsAll cs

def topmostFaultsAll : List (Rose Kept) → List GrammarNode
  | [] => []
  | t :: ts => topmostFaults t ++ topmostFaultsAll ts
end

def quote (text : List Char) : String :=
  let snippet := trim (text.take snippetLength)
  if snippet.isEmpty then "unexpected input" else "unexpected `" ++ String.ofList snippet ++ "`"

def syntaxError (c : Conversion) (n : GrammarNode) : SyntaxError :=
  let span := c.span n
  ⟨if n.missing then "missing " ++ n.kind else quote (c.textOf span), span⟩

def run (c : Conversion) (tree : Rose GrammarNode) : Converted :=
  match c.keep false tree with
  | some kept => ⟨.ofTree (kept.map c.astNode), (topmostFaults kept).map c.syntaxError⟩
  | none => ⟨.empty, []⟩

end Conversion

end CodePattern
