import CodePattern.Text.Octets

/-! Glob patterns over the octets of paths. A pattern is a sequence of tokens, some of
which offer a choice between sequences. A match is found by moving the set of positions
reached in the path from one token to the next. -/

namespace CodePattern

namespace Glob

inductive Token where
  | exact (octet : UInt8)
  /-- Any octet but a slash. -/
  | one
  /-- Any run without a slash. -/
  | run
  /-- Nothing, or any run that ends with a slash. -/
  | leading
  /-- A slash, or any run that begins and ends with one. -/
  | between
  /-- A slash and any run after it. -/
  | trailing
  /-- One octet inside or outside of some ranges. -/
  | oneOf (negated : Bool) (ranges : List (UInt8 × UInt8))
  /-- One of several sequences, or nothing if there are none. -/
  | choice (branches : List (List Token))

/-- A path, whether the position at its front has been reached, and for each octet
whether the position after it has been. -/
structure Reach where
  front : Bool
  after : List (UInt8 × Bool)
  deriving DecidableEq, Repr

namespace Reach

def start (path : List UInt8) : Reach := ⟨true, path.map (·, false)⟩

def nowhere (r : Reach) : Reach := ⟨false, r.after.map fun (b, _) => (b, false)⟩

def union (r s : Reach) : Reach :=
  ⟨r.front || s.front, r.after.zipWith (fun (b, m) (_, n) => (b, m || n)) s.after⟩

def atEnd (r : Reach) : Bool := (r.after.getLast?.map (·.2)).getD r.front

/-- Over one octet that satisfies `p`, `before` telling whether the position before the
first one has been reached. -/
def overOne (p : UInt8 → Bool) (before : Bool) : List (UInt8 × Bool) → List (UInt8 × Bool)
  | [] => []
  | (b, reached) :: rest => (b, before && p b) :: overOne p reached rest

def overRun (before : Bool) : List (UInt8 × Bool) → List (UInt8 × Bool)
  | [] => []
  | (b, reached) :: rest =>
    let here := reached || (before && b != slash)
    (b, here) :: overRun here rest

/-- Up to here or past any slash from here on, `seen` telling whether any position so
far has been reached. -/
def overLeading (seen : Bool) : List (UInt8 × Bool) → List (UInt8 × Bool)
  | [] => []
  | (b, reached) :: rest =>
    (b, reached || (seen && b == slash)) :: overLeading (seen || reached) rest

/-- Past a slash, `opened` telling whether one has been passed already. -/
def overBetween (before opened : Bool) : List (UInt8 × Bool) → List (UInt8 × Bool)
  | [] => []
  | (b, reached) :: rest =>
    (b, b == slash && (before || opened)) ::
      overBetween reached (opened || (before && b == slash)) rest

def overTrailing (before opened : Bool) : List (UInt8 × Bool) → List (UInt8 × Bool)
  | [] => []
  | (b, reached) :: rest =>
    let opened := opened || (before && b == slash)
    (b, opened) :: overTrailing reached opened rest

end Reach

def inRanges (ranges : List (UInt8 × UInt8)) (b : UInt8) : Bool :=
  ranges.any fun (low, high) => low ≤ b && b ≤ high

mutual
def Token.advance (r : Reach) : Token → Reach
  | .exact octet => ⟨false, Reach.overOne (· == octet) r.front r.after⟩
  | .one => ⟨false, Reach.overOne (· != slash) r.front r.after⟩
  | .oneOf negated ranges => ⟨false, Reach.overOne (inRanges ranges · != negated) r.front r.after⟩
  | .run => ⟨r.front, Reach.overRun r.front r.after⟩
  | .leading => ⟨r.front, Reach.overLeading r.front r.after⟩
  | .between => ⟨false, Reach.overBetween r.front false r.after⟩
  | .trailing => ⟨false, Reach.overTrailing r.front false r.after⟩
  | .choice [] => r
  | .choice (branch :: branches) => (advanceAll r branch).union (advanceAny r branches)

def advanceAll (r : Reach) : List Token → Reach
  | [] => r
  | t :: ts => advanceAll (t.advance r) ts

def advanceAny (r : Reach) : List (List Token) → Reach
  | [] => r.nowhere
  | branch :: branches => (advanceAll r branch).union (advanceAny r branches)
end

/-- Two stars on their own match every path. -/
def isMatch (pattern : List Token) (path : List UInt8) : Bool :=
  match pattern with
  | [.leading] => true
  | _ => (advanceAll (.start path) pattern).atEnd

def Token.parts : Token → Nat
  | .trailing => 2
  | .choice [] => 0
  | _ => 1

def parts : List Token → Nat
  | [] => 0
  | t :: ts => t.parts + parts ts

mutual
/-- How deep the parts of a token lie within each other. A sequence is one level above
its parts if there are several, and so is a choice, which is a group as well. -/
def Token.depth : Token → Nat
  | .exact _ => 0
  | .one => 1
  | .run => 2
  | .leading => 4
  | .between => 4
  | .trailing => 1
  | .oneOf _ ranges => if 1 < ranges.length then 2 else 1
  | .choice [] => 0
  | .choice (branch :: branches) =>
    (if branches.isEmpty then 1 else 2) +
      max ((if 1 < parts branch then 1 else 0) + depthAll branch) (depthAny branches)

def depthAll : List Token → Nat
  | [] => 0
  | t :: ts => max t.depth (depthAll ts)

def depthAny : List (List Token) → Nat
  | [] => 0
  | branch :: branches =>
    max ((if 1 < parts branch then 1 else 0) + depthAll branch) (depthAny branches)
end

def deepest : Nat := 250

/-- A pattern has a limit to how deep it goes, one level being the pattern itself. -/
def isTooDeep (pattern : List Token) : Bool := deepest < 1 + depthAll pattern

/-- A range between two characters ends with the last octet of the first one and begins
with the first octet of the other. -/
def rangeOctets (low high : Char) : List (UInt8 × UInt8) :=
  let single (bs : List UInt8) := bs.map fun b => (b, b)
  if low = high then single (octetsOf low)
  else
    match (octetsOf low).reverse, octetsOf high with
    | last :: init, first :: rest => single init.reverse ++ [(last, first)] ++ single rest
    | _, _ => []

/-- What a bracket stands for. A bracket that never closes is an ordinary character. -/
inductive Bracket where
  | unclosed
  | wrongRange
  | closed (ranges : List (Char × Char)) (rest : List Char)

/-- The ranges of a bracket, the latest first, `ranging` telling that a dash has begun
another one. A closing bracket or a dash right at the start is an ordinary member. -/
def bracket : Bool → Bool → List (Char × Char) → List Char → Bracket
  | _, _, _, [] => .unclosed
  | first, ranging, ranges, c :: cs =>
    if c = ']' ∧ !first then
      .closed ((if ranging then ('-', '-') :: ranges else ranges).reverse) cs
    else if c = '-' ∧ !first ∧ !ranging then bracket false true ranges cs
    else if ranging then
      match ranges with
      | (low, _) :: more =>
        if c < low then .wrongRange else bracket false false ((low, c) :: more) cs
      | [] => .wrongRange
    else bracket false false ((c, c) :: ranges) cs

/-- An open brace: the tokens before it and its finished branches, the latest first. -/
structure Frame where
  before : List Token
  branches : List (List Token)

/-- The open braces, the innermost first, the tokens since the last brace or comma, the
latest first, and the last character read. -/
structure State where
  frames : List Frame
  tokens : List Token
  previous : Option Char

namespace State

def start : State := ⟨[], [], none⟩

def push (s : State) (c : Char) (tokens : List Token) : State :=
  { s with tokens := tokens.reverse ++ s.tokens, previous := some c }

def inBraces (s : State) : Bool := !s.frames.isEmpty

/-- Puts a token in the place of the last one, unless that crosses slashes already. -/
def replaceLast (s : State) (c : Char) (token : Token) : State :=
  match s.tokens with
  | .leading :: _ => { s with previous := some c }
  | .trailing :: _ => { s with previous := some c }
  | _ :: tokens => { s with tokens := token :: tokens, previous := some c }
  | [] => s.push c [token]

def isNothing : Token → Bool
  | .choice [] => true
  | _ => false

/-- Ends the innermost brace. Branches that stand for nothing do not count. -/
def close (f : Frame) (s : State) : State :=
  let branches := (s.tokens :: f.branches).reverse.map List.reverse
  { s with tokens := .choice (branches.filter (!·.all isNothing)) :: f.before }

/-- Whether two stars may reach across slashes: after a slash, and in braces after what
looks like the beginning of a branch. -/
def mayCross (s : State) : Bool :=
  s.previous == some '/' ||
    (s.inBraces && (s.previous == some ',' || s.previous == some '\x7b'))

/-- Two stars. They reach across slashes only where they stand alone between slashes,
and then take the slash next to them along. -/
def doubleStar (s : State) (rest : List Char) : State × List Char :=
  let plain := (s.push '*' [.run, .run], rest)
  if s.tokens.isEmpty then
    match rest with
    | [] => (s.push '*' [.leading], [])
    | '/' :: tail => (s.push '/' [.leading], tail)
    | _ => plain
  else if s.mayCross then
    match rest with
    | [] => (s.replaceLast '*' .trailing, [])
    | '/' :: tail => (s.replaceLast '/' .between, tail)
    | ',' :: _ => if s.inBraces then (s.replaceLast '*' .trailing, rest) else plain
    | '\x7d' :: _ => if s.inBraces then (s.replaceLast '*' .trailing, rest) else plain
    | _ => plain
  else plain

end State

/-- Parses the rest of a pattern, one step for each character at most. After a bracket
that never closes, every bracket is an ordinary character. -/
def parseFrom : Nat → Bool → State → List Char → Option (List Token)
  | 0, _, _, _ => none
  | _, _, s, [] => if s.inBraces then none else some s.tokens.reverse
  | fuel + 1, literal, s, c :: cs =>
    let ordinary := s.push c ((octetsOf c).map .exact)
    match c with
    | '?' => parseFrom fuel literal (s.push c [.one]) cs
    | '*' =>
      match cs with
      | '*' :: rest =>
        let (s, rest) := s.doubleStar rest
        parseFrom fuel literal s rest
      | _ => parseFrom fuel literal (s.push c [.run]) cs
    | '[' =>
      if literal then parseFrom fuel literal ordinary cs
      else
        let (negated, members) :=
          match cs with
          | '!' :: rest => (true, rest)
          | '^' :: rest => (true, rest)
          | _ => (false, cs)
        match bracket true false [] members with
        | .unclosed => parseFrom fuel true ordinary cs
        | .wrongRange => none
        | .closed ranges rest =>
          let token := Token.oneOf negated (ranges.flatMap fun (low, high) => rangeOctets low high)
          parseFrom fuel literal (s.push ']' [token]) rest
    | '\x7b' => parseFrom fuel literal ⟨⟨s.tokens, []⟩ :: s.frames, [], some c⟩ cs
    | '\x7d' =>
      match s.frames with
      | [] => none
      | f :: frames => parseFrom fuel literal (State.close f ⟨frames, s.tokens, some c⟩) cs
    | ',' =>
      match s.frames with
      | [] => parseFrom fuel literal ordinary cs
      | f :: frames =>
        parseFrom fuel literal
          ⟨{ f with branches := s.tokens :: f.branches } :: frames, [], some c⟩ cs
    | '\\' =>
      match cs with
      | [] => none
      | e :: rest => parseFrom fuel literal (s.push e ((octetsOf e).map .exact)) rest
    | _ => parseFrom fuel literal ordinary cs

/-- The tokens of a pattern. A brace left open, a lone closing brace, a backslash at the
end and a range that runs backwards make it no pattern. -/
def parse? (cs : List Char) : Option (List Token) :=
  parseFrom (cs.length + 1) false State.start cs

end Glob

end CodePattern
