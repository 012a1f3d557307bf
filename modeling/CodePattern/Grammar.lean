import CodePattern.Ast
import CodePattern.Language

/-! A grammar turns a whole program into a tree whose nodes cover octets of the
program. Around it stand the rules that the trees do not show: how to complete a
fragment to a program, which statements are not code, and which constructs a dialect
rejects. -/

namespace CodePattern

/-- A node of a grammar's tree. An erroneous node covers text that fits nowhere, a
missing node stands where text was expected. -/
structure GrammarNode where
  kind : String
  named : Bool
  erroneous : Bool
  missing : Bool
  start : Nat
  stop : Nat
  field : Option String
  deriving DecidableEq, Repr

def GrammarNode.faulty (n : GrammarNode) : Bool := n.erroneous || n.missing

def GrammarNode.informative (n : GrammarNode) : Bool := n.named || n.faulty

structure Wrapping where
  opening : String
  closing : String
  deriving DecidableEq, Repr

def Wrapping.none : Wrapping := ⟨"", ""⟩

def Wrapping.apply (w : Wrapping) (body : List Char) : List Char :=
  w.opening.toList ++ body ++ w.closing.toList

structure SyntaxError where
  message : String
  span : Span
  deriving DecidableEq, Repr

inductive ParseFailure where
  | outOfTime (grammar : Family)
  | refused (reason : String)
  deriving DecidableEq, Repr

def Family.title : Family → String
  | .php => "PHP"
  | .python => "Python"

def ParseFailure.message : ParseFailure → String
  | .outOfTime grammar => s!"{grammar.title} parse timed out or was cancelled"
  | .refused reason => reason

/-- The numbers of the nodes below the root that are not of these kinds. -/
def belowRootExcept (trivia : List String) (ast : Ast) : List Nat :=
  match ast.root? with
  | some root =>
    (ast.children root).filter (fun id => (ast.get? id).any (fun n => !trivia.contains n.kind))
  | none => []

structure Grammar where
  family : Family
  /-- The ways to complete a fragment, in the order in which they are tried. -/
  wrappings : List Char → List Wrapping
  /-- Kinds of top-level nodes that are not code. -/
  trivia : List String
  /-- What a dialect rejects in a tree that the grammar accepts. -/
  dialectErrors : Language → Ast → List SyntaxError
  parse : List Char → Except ParseFailure (Rose GrammarNode)
  /-- The numbers of the statements in the tree of a program. -/
  topLevel : Ast → List Nat := belowRootExcept trivia

def Grammar.statements (g : Grammar) (ast : Ast) : List (Rose Entry) :=
  (g.topLevel ast).filterMap ast.at?

namespace Php

def openTag : Wrapping := ⟨"<?php\n", ""⟩

def openTagTerminated : Wrapping := ⟨"<?php\n", ";"⟩

/-- A fragment with a tag of its own is a program. Any other gets an opening tag, and
unless it ends like a statement a semicolon is tried as well. -/
def wrappings (body : List Char) : List Wrapping :=
  if "<?".toList.isPrefixOf (trimStart body) then [.none]
  else
    match (trimEnd body).getLast? with
    | some ';' => [openTag]
    | some '\x7d' => [openTag]
    | _ => [openTag, openTagTerminated]

def trivia : List String := ["php_tag", "comment", "text_interpolation"]

def stringKinds : List String := ["encapsed_string", "heredoc", "shell_command_expression"]

end Php

namespace Python

def wrappings (_ : List Char) : List Wrapping := [.none]

def trivia : List String := ["comment"]

def onlyInTwo : List String := ["print_statement", "exec_statement"]

def onlyInThree : List String := ["nonlocal_statement", "await"]

/-- The kinds that a dialect rejects, and how the rejection is worded. -/
def rejected : Language → List String × String
  | .python3 => (onlyInTwo, "Python 2 syntax in Python 3 code")
  | .python2 => (onlyInThree, "Python 3 syntax in Python 2 code")
  | .python => ([], "")
  | .php => ([], "")

def dialectErrors (lang : Language) (ast : Ast) : List SyntaxError :=
  let (kinds, wording) := rejected lang
  (ast.findAll (kinds.contains ·.kind)).map
    (fun n => ⟨wording ++ ": " ++ n.kind, n.span⟩)

end Python

def Grammar.ofFamily (family : Family)
    (parse : List Char → Except ParseFailure (Rose GrammarNode)) : Grammar :=
  match family with
  | .php =>
    { family := .php, wrappings := Php.wrappings, trivia := Php.trivia,
      dialectErrors := fun _ _ => [], parse }
  | .python =>
    { family := .python, wrappings := Python.wrappings, trivia := Python.trivia,
      dialectErrors := Python.dialectErrors, parse }

end CodePattern
