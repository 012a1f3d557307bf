import CodePattern.Config
import CodePattern.Json
import CodePattern.Pattern
import CodePattern.Target

/-! The JSON forms of languages, trees, patterns and targets. Optional members are left
out when there is nothing to tell. -/

namespace CodePattern

def whenTrue (name : String) (b : Bool) : List (String × Json) :=
  if b then [(name, .bool true)] else []

def whenSome (name : String) : Option Json → List (String × Json)
  | some v => [(name, v)]
  | none => []

def Language.toJson (lang : Language) : Json := .str lang.name

def Package.toJson (p : Package) : Json := .str p.name

def PatternKind.toJson (kind : PatternKind) : Json := .str kind.name

def Span.toJson (s : Span) : Json :=
  .obj [("startByte", .nat s.startByte), ("endByte", .nat s.endByte),
    ("startLine", .nat s.startLine.toNat), ("startCol", .nat s.startCol.toNat),
    ("endLine", .nat s.endLine.toNat), ("endCol", .nat s.endCol.toNat)]

def Meta.toJson : Meta → Json
  | .metavariable name => .obj [("type", .str "metavariable"), ("name", .str name)]
  | .ellipsisMetavariable name =>
    .obj [("type", .str "ellipsis_metavariable"), ("name", .str name)]
  | .ellipsis => .obj [("type", .str "ellipsis")]

def AstNode.toJson (n : AstNode) : Json :=
  .obj ([("kind", .str n.kind), ("named", .bool n.named)] ++
    whenSome "field" (n.field.map .str) ++ [("span", n.span.toJson)] ++
    whenSome "text" (n.text.map .str) ++ whenSome "meta" (n.pattern.map Meta.toJson) ++
    whenTrue "error" n.error)

def AstNode.members (n : AstNode) : List (String × Json) :=
  [("kind", .str n.kind)] ++ whenTrue "anonymous" (!n.named) ++
    whenSome "field" (n.field.map .str) ++ [("span", n.span.toJson)] ++
    whenSome "text" (n.text.map .str) ++ whenSome "meta" (n.pattern.map Meta.toJson) ++
    whenTrue "error" n.error

mutual
def nestedJson : Rose AstNode → Json
  | .node n cs =>
    .obj (n.members ++
      whenSome "children" (if cs.isEmpty then none else some (.arr (nestedAll cs))))

def nestedAll : List (Rose AstNode) → List Json
  | [] => []
  | t :: ts => nestedJson t :: nestedAll ts
end

def Ast.toJson (ast : Ast) : Json :=
  match ast.tree? with
  | some t => nestedJson (Ast.plain t)
  | none => .null

def SyntaxError.toJson (e : SyntaxError) : Json :=
  .obj [("message", .str e.message), ("span", e.span.toJson)]

def errorsJson (errors : List SyntaxError) : Json := .arr (errors.map SyntaxError.toJson)

def ParseStats.toJson (s : ParseStats) : Json :=
  .obj [("totalLines", .nat s.totalLines.toNat), ("errorLines", .nat s.errorLines.toNat)]

def ParserConfig.toJson (c : ParserConfig) : Json :=
  .obj [("max_target_bytes", .nat c.maxTargetBytes),
    ("parse_timeout_micros", .nat c.parseTimeoutMicros)]

def Pattern.toJson (p : Pattern) : Json :=
  .obj [("lang", p.lang.toJson), ("kind", p.kind.toJson), ("strict", .bool p.strict),
    ("ast", p.ast.toJson), ("metavariables", .strings p.metavariables),
    ("errors", errorsJson p.errors)]

def Target.toJson (t : Target) : Json :=
  .obj [("lang", t.lang.toJson), ("path", .str t.path), ("ast", t.ast.toJson),
    ("errors", errorsJson t.errors), ("stats", t.stats.toJson)]

end CodePattern
