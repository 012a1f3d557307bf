/-! Names of metavariables. A metavariable stands for a piece of code, an ellipsis
metavariable for a run of pieces and a bare ellipsis for a run without a name. -/

namespace CodePattern

inductive Meta where
  | metavariable (name : String)
  | ellipsisMetavariable (name : String)
  | ellipsis
  deriving DecidableEq, Repr

def Meta.name? : Meta → Option String
  | .metavariable name => some name
  | .ellipsisMetavariable name => some name
  | .ellipsis => none

def isNameStart (c : Char) : Bool := c.isUpper || c == '_'

def isNameRest (c : Char) : Bool := c.isUpper || c.isDigit || c == '_'

def isMetavariableName : List Char → Bool
  | [] => false
  | c :: cs => isNameStart c && cs.all isNameRest

def superglobals : List String :=
  ["GLOBALS", "_SERVER", "_GET", "_POST", "_FILES", "_COOKIE", "_SESSION", "_REQUEST", "_ENV"]

/-- PHP variables double as metavariables, except for the superglobals. -/
def isPhpMetavariable : List Char → Bool
  | '$' :: name => isMetavariableName name && !superglobals.contains (String.ofList name)
  | _ => false

def isWordChar (c : Char) : Bool := c.isAlphanum || c == '_'

def word (cs : List Char) : List Char := cs.takeWhile isWordChar

end CodePattern
