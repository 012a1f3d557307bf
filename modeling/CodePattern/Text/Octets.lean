import CodePattern.Text.Line
import CodePattern.Text.Lossy

/-! Texts as octets of UTF-8, and the lines of a file that are UTF-8. -/

namespace CodePattern

def octetsOf (c : Char) : List UInt8 := String.utf8EncodeChar c

def octets (cs : List Char) : List UInt8 := cs.flatMap octetsOf

def decode? (bs : List UInt8) : Option (List Char) :=
  let cs := decodeLossy bs
  if octets cs = bs then some cs else none

def lineFeed : UInt8 := 10

def dot : UInt8 := 46

def slash : UInt8 := 47

def octetPieces (bs : List UInt8) : List (List UInt8) :=
  bs.foldr
    (fun b ps =>
      if b = lineFeed then [b] :: ps
      else
        match ps with
        | [] => [[b]]
        | p :: ps => (b :: p) :: ps)
    []

/-- The lines of a file up to the first one that is not UTF-8. -/
def decodedLines (bs : List UInt8) : List (List Char) :=
  ((octetPieces bs).map decode?).takeWhile Option.isSome |>.map fun line => chomp (line.getD [])

end CodePattern
