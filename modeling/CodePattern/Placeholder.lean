import CodePattern.Edit
import CodePattern.Language
import CodePattern.Metavariable

/-! Grammars do not know the syntax of patterns, so metavariables and ellipses in code
are replaced by placeholders that are ordinary identifiers. Strings and comments stay
as they are. The scan goes from left to right through regions and takes one step at
each character that no earlier step has covered. -/

namespace CodePattern

namespace Placeholder

def metavariableMark : List Char := "__mv_".toList

def ellipsisMetavariableMark : List Char := "__mvs_".toList

def phpEllipsis : List Char := "__ELLIPSIS__".toList

/-- What surrounds the next character. A quoted region ends with `length` times its
quote. -/
inductive Region where
  | code
  | quoted (quote : Char) (length : Nat)
  | lineComment
  | blockComment
  deriving DecidableEq, Repr

/-- A segment of the scanned text, how many characters it covers beyond the first, and
the region after it. -/
structure Step where
  segment : Segment
  more : Nat
  region : Region
  deriving DecidableEq, Repr

def Step.copy (c : Char) (cs : List Char) (more : Nat) (region : Region) : Step :=
  ⟨.copied (c :: cs.take more), more, region⟩

def Step.replace (c : Char) (cs : List Char) (more : Nat) (new : List Char) : Step :=
  ⟨.replaced (c :: cs.take more) new, more, .code⟩

def startsWith (lead cs : List Char) : Bool := lead.isPrefixOf cs

/-- Three dots before a variable or a name spread it out and are no ellipsis. -/
def isSpread (after : List Char) : Bool :=
  match after with
  | [] => false
  | c :: _ => c == '$' || isWordChar c

def quoteStep (family : Family) (c : Char) (cs : List Char) : Step :=
  if family = .python ∧ startsWith [c, c] cs then .copy c cs 2 (.quoted c 3)
  else .copy c cs 0 (.quoted c 1)

/-- The placeholder of an ellipsis metavariable, which stays a variable in PHP. -/
def ellipsisMetavariable (family : Family) (name : List Char) : List Char :=
  match family with
  | .python => ellipsisMetavariableMark ++ name
  | .php => '$' :: (ellipsisMetavariableMark ++ name)

/-- A dollar sign before three dots. Without a name after the dots it stands alone. -/
def dollarDotsStep (family : Family) (c : Char) (cs : List Char) : Step :=
  let name := word (cs.drop 3)
  if isMetavariableName name then
    .replace c cs (3 + name.length) (ellipsisMetavariable family name)
  else .copy c cs 0 .code

/-- A dollar sign before anything else, together with the identifier after it. -/
def dollarStep (family : Family) (c : Char) (cs : List Char) : Step :=
  let name := word cs
  if family = .python ∧ isMetavariableName name then
    .replace c cs name.length (metavariableMark ++ name)
  else .copy c cs name.length .code

/-- Three dots. Python's grammar knows them. -/
def dotsStep (family : Family) (c : Char) (cs : List Char) : Step :=
  if family = .php ∧ !isSpread (cs.drop 2) then .replace c cs 2 phpEllipsis
  else .copy c cs 2 .code

/-- A step in code where no string or comment begins. -/
def plainStep (family : Family) (c : Char) (cs : List Char) : Step :=
  if c = '$' ∧ startsWith ['.', '.', '.'] cs then dollarDotsStep family c cs
  else if c = '$' then dollarStep family c cs
  else if c = '.' ∧ startsWith ['.', '.'] cs then dotsStep family c cs
  else .copy c cs 0 .code

def codeStep (family : Family) (c : Char) (cs : List Char) : Step :=
  if c = '\x27' ∨ c = '"' then quoteStep family c cs
  else if c = '#' ∧ (family = .python ∨ !startsWith ['['] cs) then .copy c cs 0 .lineComment
  else if c = '/' ∧ family = .php ∧ startsWith ['/'] cs then .copy c cs 1 .lineComment
  else if c = '/' ∧ family = .php ∧ startsWith ['*'] cs then .copy c cs 1 .blockComment
  else plainStep family c cs

def quotedStep (quote : Char) (length : Nat) (c : Char) (cs : List Char) : Step :=
  if c = '\\' then .copy c cs 1 (.quoted quote length)
  else if c = quote ∧ startsWith (List.replicate (length - 1) quote) cs then
    .copy c cs (length - 1) .code
  else .copy c cs 0 (.quoted quote length)

/-- A line comment ends before the line feed, which is code again. -/
def lineCommentStep (c : Char) (cs : List Char) : Step :=
  .copy c cs 0 (if c = '\n' then .code else .lineComment)

def blockCommentStep (c : Char) (cs : List Char) : Step :=
  if c = '*' ∧ startsWith ['/'] cs then .copy c cs 1 .code else .copy c cs 0 .blockComment

def step (family : Family) : Region → Char → List Char → Step
  | .code => codeStep family
  | .quoted quote length => quotedStep quote length
  | .lineComment => lineCommentStep
  | .blockComment => blockCommentStep

/-- The segments of a text whose first `covered` characters belong to an earlier
step. -/
def scan (family : Family) : Nat → Region → List Char → List Segment
  | _, _, [] => []
  | covered + 1, region, _ :: cs => scan family covered region cs
  | 0, region, c :: cs =>
    let s := step family region c cs
    s.segment :: scan family s.more s.region cs

def segments (family : Family) (text : List Char) : List Segment := scan family 0 .code text

def insert (family : Family) (text : List Char) : Revision :=
  .ofSegments (segments family text)

theorem scan_covered (family : Family) (covered : Nat) (region : Region) (cs : List Char) :
    scan family covered region cs = scan family 0 region (cs.drop covered) := by
  induction covered generalizing cs with
  | zero => rfl
  | succ n ih =>
    cases cs with
    | nil => simp [scan]
    | cons c cs => rw [scan, ih]; rfl

theorem step_old (family : Family) (region : Region) (c : Char) (cs : List Char) :
    (step family region c cs).segment.old = c :: cs.take (step family region c cs).more := by
  cases region with
  | code =>
    simp only [step, codeStep, plainStep, quoteStep, dollarDotsStep, dollarStep, dotsStep]
    repeat' split
    all_goals rfl
  | quoted quote length =>
    simp only [step, quotedStep]
    repeat' split
    all_goals rfl
  | lineComment => rfl
  | blockComment =>
    simp only [step, blockCommentStep]
    split <;> rfl

theorem textBefore_scan (family : Family) (covered : Nat) (region : Region) (cs : List Char) :
    textBefore (scan family covered region cs) = cs.drop covered := by
  induction cs generalizing covered region with
  | nil => simp [scan, textBefore]
  | cons c cs ih =>
    cases covered with
    | zero => simp [scan, step_old, ih]
    | succ n => simp [scan, ih]

theorem textBefore_segments (family : Family) (text : List Char) :
    textBefore (segments family text) = text := textBefore_scan family 0 .code text

end Placeholder

end CodePattern
