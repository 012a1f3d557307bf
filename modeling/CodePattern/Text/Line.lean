/-! A text is cut into pieces after each line feed. A line is a piece without its
line feed and without one carriage return right before it, so a text that ends in
a line feed has no empty last line. -/

namespace CodePattern

/-- The parts of a text, cut after each line feed. Their concatenation is the text. -/
def pieces : List Char → List (List Char)
  | [] => []
  | c :: cs =>
    if c = '\n' then [c] :: pieces cs
    else
      match pieces cs with
      | [] => [[c]]
      | p :: ps => (c :: p) :: ps

def chomp (piece : List Char) : List Char :=
  if piece.getLast? = some '\n' then
    let line := piece.dropLast
    if line.getLast? = some '\r' then line.dropLast else line
  else piece

def lines (text : List Char) : List (List Char) := (pieces text).map chomp

def firstPiece (text : List Char) : List Char :=
  text.takeWhile (· != '\n') ++ (text.dropWhile (· != '\n')).take 1

/-- The first line of a text, found without cutting up the rest. -/
def firstLine? (text : List Char) : Option (List Char) :=
  if text.isEmpty then none else some (chomp (firstPiece text))

theorem flatten_pieces (text : List Char) : (pieces text).flatten = text := by
  induction text with
  | nil => rfl
  | cons c cs ih =>
    rw [pieces]
    split
    · simp [ih]
    · split
      · next h => rw [h] at ih; simpa using ih
      · next p ps h => rw [h] at ih; simpa using ih

end CodePattern
