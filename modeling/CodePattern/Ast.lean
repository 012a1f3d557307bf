import CodePattern.Metavariable
import CodePattern.Rose
import CodePattern.Span

/-! The trees that parsing produces. Nodes are added one at a time and numbered in that
order from one. The first node without a parent is the root, and later ones stay
beside it with their own trees. -/

namespace CodePattern

structure AstNode where
  kind : String
  named : Bool
  field : Option String
  span : Span
  text : Option String
  pattern : Option Meta
  error : Bool
  deriving DecidableEq, Repr

structure Entry where
  id : Nat
  node : AstNode
  deriving DecidableEq, Repr

/-- How many nodes have been added, and the trees in which they stand. -/
structure Ast where
  size : Nat
  trees : List (Rose Entry)
  deriving Repr

namespace Ast

def empty : Ast := ⟨0, []⟩

def nextId (ast : Ast) : Nat := ast.size + 1

/-- Adds a node as the last child of its parent, or beside the other trees. -/
def add (ast : Ast) (parent : Option Nat) (node : AstNode) : Ast :=
  let leaf : Rose Entry := .node ⟨ast.nextId, node⟩ []
  match parent with
  | none => ⟨ast.size + 1, ast.trees ++ [leaf]⟩
  | some p => ⟨ast.size + 1, Rose.attachAll (·.id == p) leaf ast.trees⟩

def tree? (ast : Ast) : Option (Rose Entry) := ast.trees.head?

def root? (ast : Ast) : Option Nat := ast.tree?.map (·.label.id)

def rootNode? (ast : Ast) : Option AstNode := ast.tree?.map (·.label.node)

def isEmpty (ast : Ast) : Bool := ast.trees.isEmpty

def at? (ast : Ast) (id : Nat) : Option (Rose Entry) :=
  (Rose.subtreesAll ast.trees).find? (·.label.id == id)

def get? (ast : Ast) (id : Nat) : Option AstNode := (ast.at? id).map (·.label.node)

def children (ast : Ast) (id : Nat) : List Nat :=
  match ast.at? id with
  | some t => t.children.map (·.label.id)
  | none => []

def nodes (ast : Ast) : List AstNode :=
  match ast.tree? with
  | some t => t.preorder.map (·.node)
  | none => []

def findAll (ast : Ast) (p : AstNode → Bool) : List AstNode := ast.nodes.filter p

mutual
/-- Numbers the nodes of a tree in preorder, beginning with `first`. -/
def number (first : Nat) : Rose AstNode → Rose Entry
  | .node n cs => .node ⟨first, n⟩ (numberAll (first + 1) cs)

def numberAll (first : Nat) : List (Rose AstNode) → List (Rose Entry)
  | [] => []
  | t :: ts => number first t :: numberAll (first + t.size) ts
end

def ofTree (t : Rose AstNode) : Ast := ⟨t.size, [number 1 t]⟩

def ofTree? : Option (Rose AstNode) → Ast
  | some t => ofTree t
  | none => empty

def plain (t : Rose Entry) : Rose AstNode := t.map (·.node)

def subtree (ast : Ast) (id : Nat) : Ast := ofTree? ((ast.at? id).map plain)

end Ast

end CodePattern
