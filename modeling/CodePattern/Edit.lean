import CodePattern.Text.Width

/-! A changed text is a list of segments, each copied or replaced. The segments give
the text before and the text after the change, and the edits that lead from one to
the other, with positions in octets on both sides. -/

namespace CodePattern

inductive Segment where
  | copied (text : List Char)
  | replaced (old new : List Char)
  deriving DecidableEq, Repr

/-- The octets from `newStart` to `newStop` of the new text stand for the octets from
`oldStart` to `oldStop` of the old one. -/
structure Edit where
  newStart : Nat
  newStop : Nat
  oldStart : Nat
  oldStop : Nat
  deriving DecidableEq, Repr

namespace Segment

def old : Segment → List Char
  | copied text => text
  | replaced old _ => old

def new : Segment → List Char
  | copied text => text
  | replaced _ new => new

@[simp] theorem old_copied (text : List Char) : (copied text).old = text := rfl

@[simp] theorem new_copied (text : List Char) : (copied text).new = text := rfl

@[simp] theorem old_replaced (a b : List Char) : (replaced a b).old = a := rfl

@[simp] theorem new_replaced (a b : List Char) : (replaced a b).new = b := rfl

end Segment

def textBefore (segments : List Segment) : List Char := segments.flatMap Segment.old

def textAfter (segments : List Segment) : List Char := segments.flatMap Segment.new

def editsFrom : Nat → Nat → List Segment → List Edit
  | _, _, [] => []
  | newStart, oldStart, .copied text :: rest =>
    editsFrom (newStart + width text) (oldStart + width text) rest
  | newStart, oldStart, .replaced old new :: rest =>
    let newStop := newStart + width new
    let oldStop := oldStart + width old
    ⟨newStart, newStop, oldStart, oldStop⟩ :: editsFrom newStop oldStop rest

def editsOf (segments : List Segment) : List Edit := editsFrom 0 0 segments

structure Revision where
  text : List Char
  edits : List Edit
  deriving DecidableEq, Repr

def Revision.ofSegments (segments : List Segment) : Revision :=
  ⟨textAfter segments, editsOf segments⟩

@[simp] theorem textBefore_cons (s : Segment) (rest : List Segment) :
    textBefore (s :: rest) = s.old ++ textBefore rest := by simp [textBefore]

@[simp] theorem textAfter_cons (s : Segment) (rest : List Segment) :
    textAfter (s :: rest) = s.new ++ textAfter rest := by simp [textAfter]

theorem editsFrom_append (new old : Nat) (s t : List Segment) :
    editsFrom new old (s ++ t) =
      editsFrom new old s ++
        editsFrom (new + width (textAfter s)) (old + width (textBefore s)) t := by
  induction s generalizing new old with
  | nil => simp [editsFrom, textAfter, textBefore]
  | cons x s ih =>
    cases x with
    | copied text => simp [editsFrom, ih, Nat.add_assoc]
    | replaced a b => simp [editsFrom, ih, Nat.add_assoc]

end CodePattern
