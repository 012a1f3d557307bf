/-! Reading octets as UTF-8 without failing: every maximal part of an ill-formed
sequence becomes one replacement character. -/

namespace CodePattern

/-- A sequence that has begun: how many octets it still owes, the range that the
next one must lie in, and the bits read so far. -/
structure Pending where
  owed : Nat
  low : Nat
  high : Nat
  bits : Nat
  deriving DecidableEq, Repr

def replacement : Char := Char.ofNat 0xFFFD

/-- The characters that the first octet of a sequence completes, and the sequence
it begins. The second octet is restricted after E0, ED, F0 and F4, which excludes
overlong forms, surrogates and values above 10FFFF. -/
def lead (octet : Nat) : List Char × Option Pending :=
  if octet < 0x80 then ([Char.ofNat octet], none)
  else if octet < 0xC2 then ([replacement], none)
  else if octet < 0xE0 then ([], some ⟨1, 0x80, 0xBF, octet - 0xC0⟩)
  else if octet = 0xE0 then ([], some ⟨2, 0xA0, 0xBF, 0⟩)
  else if octet = 0xED then ([], some ⟨2, 0x80, 0x9F, 0xD⟩)
  else if octet < 0xF0 then ([], some ⟨2, 0x80, 0xBF, octet - 0xE0⟩)
  else if octet = 0xF0 then ([], some ⟨3, 0x90, 0xBF, 0⟩)
  else if octet < 0xF4 then ([], some ⟨3, 0x80, 0xBF, octet - 0xF0⟩)
  else if octet = 0xF4 then ([], some ⟨3, 0x80, 0x8F, 4⟩)
  else ([replacement], none)

/-- One octet more. An octet that does not continue the sequence that has begun ends
it as ill-formed and is itself read as a first octet. -/
def decodeOctet : Option Pending → Nat → List Char × Option Pending
  | none, octet => lead octet
  | some p, octet =>
    if p.low ≤ octet ∧ octet ≤ p.high then
      let bits := p.bits * 64 + (octet - 0x80)
      if p.owed ≤ 1 then ([Char.ofNat bits], none)
      else ([], some ⟨p.owed - 1, 0x80, 0xBF, bits⟩)
    else (replacement :: (lead octet).1, (lead octet).2)

/-- What has been read of some octets: the characters, the latest first, and the
sequence that has begun. -/
def decodeNext (read : List Char × Option Pending) (octet : UInt8) :
    List Char × Option Pending :=
  let next := decodeOctet read.2 octet.toNat
  (next.1.reverse ++ read.1, next.2)

/-- The characters of some octets. A sequence that is never completed is ill-formed. -/
def decodeLossy (octets : List UInt8) : List Char :=
  match octets.foldl decodeNext ([], none) with
  | (cs, none) => cs.reverse
  | (cs, some _) => (replacement :: cs).reverse

end CodePattern
