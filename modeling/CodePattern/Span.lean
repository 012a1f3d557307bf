import CodePattern.Text.Width

/-! Places in a text. An offset counts octets, a line number starts at one and a
column counts the octets since the line began. Lines and columns are kept in 32
bits. -/

namespace CodePattern

structure Span where
  startByte : Nat
  endByte : Nat
  startLine : UInt32
  startCol : UInt32
  endLine : UInt32
  endCol : UInt32
  deriving DecidableEq, Repr, Inhabited

def lineStartsFrom : Nat → List Char → List Nat
  | _, [] => []
  | offset, c :: cs =>
    let next := offset + c.utf8Size
    if c = '\n' then next :: lineStartsFrom next cs else lineStartsFrom next cs

/-- Where each line of a text starts, after the first, which starts at zero. -/
structure LineTable where
  laterStarts : List Nat
  deriving DecidableEq, Repr

namespace LineTable

def ofText (text : List Char) : LineTable := ⟨lineStartsFrom 0 text⟩

def startsUpTo (table : LineTable) (offset : Nat) : List Nat :=
  0 :: table.laterStarts.takeWhile (· ≤ offset)

/-- Line and column of an offset. An offset beyond the text lies on its last line. -/
def position (table : LineTable) (offset : Nat) : UInt32 × UInt32 :=
  let starts := table.startsUpTo offset
  (starts.length.toUInt32, (offset - starts.getLastD 0).toUInt32)

def span (table : LineTable) (startByte endByte : Nat) : Span :=
  let first := table.position startByte
  let last := table.position endByte
  ⟨startByte, endByte, first.1, first.2, last.1, last.2⟩

end LineTable

end CodePattern
