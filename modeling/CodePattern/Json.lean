/-! JSON values. The members of an object keep their order, and a number that is no integer keeps
the form in which it is written. -/

namespace CodePattern

/-- A number with a fraction or an exponent, or a zero with a sign, part by part. -/
structure Fractional where
  negative : Bool
  whole : Nat
  fraction : List (Fin 10)
  exponent : Option Int
  proper : fraction ≠ [] ∨ exponent ≠ none ∨ negative = true ∧ whole = 0
  deriving DecidableEq, Repr

inductive Json where
  | null
  | bool (b : Bool)
  | num (n : Int)
  | frac (x : Fractional)
  | str (s : String)
  | arr (items : List Json)
  | obj (members : List (String × Json))
  deriving Repr, Inhabited

namespace Json

def nat (n : Nat) : Json := .num n

def strings (texts : List String) : Json := .arr (texts.map .str)

def nats (numbers : List Nat) : Json := .arr (numbers.map nat)

/-- The number with these parts, which is an integer if that tells as much. -/
def number (negative : Bool) (whole : Nat) (fraction : List (Fin 10)) (exponent : Option Int) :
    Json :=
  if h : fraction ≠ [] ∨ exponent ≠ none ∨ negative = true ∧ whole = 0 then
    .frac ⟨negative, whole, fraction, exponent, h⟩
  else .num (if negative then -whole else whole)

def member? (name : String) : List (String × Json) → Option Json
  | [] => none
  | (key, value) :: rest => if key = name then some value else member? name rest

mutual
/-- How many arrays and objects stand inside each other at most. -/
def nesting : Json → Nat
  | .arr items => 1 + nestingItems items
  | .obj members => 1 + nestingMembers members
  | _ => 0

def nestingItems : List Json → Nat
  | [] => 0
  | v :: vs => max (nesting v) (nestingItems vs)

def nestingMembers : List (String × Json) → Nat
  | [] => 0
  | (_, v) :: ms => max (nesting v) (nestingMembers ms)
end

end Json

end CodePattern
