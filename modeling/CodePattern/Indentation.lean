import CodePattern.Edit
import CodePattern.Text.Blank
import CodePattern.Text.Line

/-! The indentation that all lines of a text have in common. Blank lines do not count
when it is measured, and lose no more of it than they have. -/

namespace CodePattern

namespace Indentation

def isIndent (c : Char) : Bool := c == ' ' || c == '\t'

def leading (line : List Char) : Nat := (line.takeWhile isIndent).length

def common? (text : List Char) : Option Nat :=
  (((lines text).filter (fun l => !allBlank l)).map leading).min?

def stripSegments (strip : Nat) (piece : List Char) : List Segment :=
  match min (leading piece) strip with
  | 0 => [.copied piece]
  | n + 1 => [.replaced (piece.take (n + 1)) [], .copied (piece.drop (n + 1))]

def segments (strip : Nat) (text : List Char) : List Segment :=
  (pieces text).flatMap (stripSegments strip)

/-- A text without its common indentation, if it has any. -/
def remove? (text : List Char) : Option Revision :=
  match common? text with
  | none => none
  | some 0 => none
  | some (n + 1) => some (.ofSegments (segments (n + 1) text))

theorem textBefore_segments (strip : Nat) (text : List Char) :
    textBefore (segments strip text) = text := by
  have hpiece : ∀ piece, textBefore (stripSegments strip piece) = piece := by
    intro piece
    rw [stripSegments]
    split <;> simp [textBefore, Segment.old]
  have hpieces : ∀ ps : List (List Char),
      textBefore (ps.flatMap (stripSegments strip)) = ps.flatten := by
    intro ps
    induction ps with
    | nil => rfl
    | cons p ps ih =>
      have hp := hpiece p
      simp only [textBefore] at hp ih ⊢
      simp [hp, ih]
  rw [segments, hpieces, flatten_pieces]

end Indentation

end CodePattern
