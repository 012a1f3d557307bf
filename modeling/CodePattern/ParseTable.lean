import CodePattern.Grammar
import CodePattern.Json

/-! Parsers given by a table of texts and their trees. A tree is written as the list of
its nodes in preorder, each with its depth, kind, flags, first and last offset and, if
it has one, its field. A text whose tree is null takes too long to parse. -/

namespace CodePattern

structure ParseTable where
  entries : List (List Char × Option (Rose GrammarNode))

namespace ParseTable

/-- The lowest flag marks named nodes, the next erroneous ones, the third missing
ones. -/
def nodeOfRow? : Json → Option (Nat × GrammarNode)
  | .arr (.num (.ofNat depth) :: .str kind :: .num (.ofNat flags) :: .num (.ofNat start) ::
      .num (.ofNat stop) :: field) => do
    let field ←
      match field with
      | [] => some none
      | [.null] => some none
      | [.str f] => some (some f)
      | _ => none
    return (depth, ⟨kind, flags.testBit 0, flags.testBit 1, flags.testBit 2, start, stop, field⟩)
  | _ => none

def treeOf? : Json → Option (Option (Rose GrammarNode))
  | .null => some none
  | .arr rows => do
    let rows ← rows.mapM nodeOfRow?
    match Rose.ofOutline rows with
    | t :: _ => some (some t)
    | [] => none
  | _ => none

def entryOf? : Json → Option (List Char × Option (Rose GrammarNode))
  | .obj members =>
    match Json.member? "source" members, Json.member? "nodes" members with
    | some (.str source), some nodes => (treeOf? nodes).map (source.toList, ·)
    | _, _ => none
  | _ => none

def ofJson? : Json → Option ParseTable
  | .arr items => (items.mapM entryOf?).map ParseTable.mk
  | _ => none

def parse (table : ParseTable) (family : Family) (source : List Char) :
    Except ParseFailure (Rose GrammarNode) :=
  match table.entries.find? (·.1 == source) with
  | some (_, some tree) => .ok tree
  | some (_, none) => .error (.outOfTime family)
  | none => .error (.refused ("no tree for the text " ++ String.ofList source))

end ParseTable

end CodePattern
