import CodePattern.Text.Lead
import CodePattern.Text.Octets

/-! Slash-separated paths. A path and the names in it are octets, which need not be UTF-8.
Repeated slashes and inner dots do not count, so a path is read as a list of components,
and paths are ordered component by component. -/

namespace CodePattern

structure Path where
  octets : List UInt8
  deriving DecidableEq, Repr

abbrev FileName := List UInt8

def FileName.ofText (text : String) : FileName := octets text.toList

inductive Component where
  | root
  | here
  | up
  | name (name : FileName)
  deriving DecidableEq, Repr

namespace Component

/-- The root comes first, then a leading dot, then a step up, then names. -/
def rank : Component → Nat
  | .root => 0
  | .here => 1
  | .up => 2
  | .name _ => 3

def text : Component → FileName
  | .root => [slash]
  | .here => [dot]
  | .up => [dot, dot]
  | .name n => n

def before (a b : Component) : Bool :=
  a.rank < b.rank || (a.rank == b.rank && decide (a.text < b.text))

def ofSegment (segment : FileName) : Component :=
  if segment = [dot, dot] then .up else .name segment

end Component

namespace Path

def ofText (text : String) : Path := ⟨FileName.ofText text⟩

instance : Coe String Path := ⟨ofText⟩

/-- A path as it is shown. Octets that are not UTF-8 are replaced. -/
def shown (path : Path) : String := String.ofList (decodeLossy path.octets)

def segments : List UInt8 → List FileName
  | [] => [[]]
  | b :: bs =>
    if b = slash then [] :: segments bs
    else
      match segments bs with
      | [] => [[b]]
      | s :: ss => (b :: s) :: ss

def isVoid (segment : FileName) : Bool := segment.isEmpty || segment == [dot]

def isAbsolute (path : Path) : Bool := path.octets.head? == some slash

def components (path : Path) : List Component :=
  let parts := segments path.octets
  let names := (parts.filter (fun s => !isVoid s)).map Component.ofSegment
  if path.isAbsolute then .root :: names
  else if parts.head? = some [dot] then .here :: names
  else names

/-- The part of a name after its last dot. A name without a dot, or whose only dot
comes first, has none. -/
def extensionOf? (name : FileName) : Option FileName :=
  let reversed := name.reverse
  let after := reversed.takeWhile (· ≠ dot)
  match reversed.dropWhile (· ≠ dot) with
  | [] => none
  | [_] => none
  | _ :: _ :: _ => some after.reverse

def extension? (path : Path) : Option FileName :=
  match path.components.getLast? with
  | some (.name n) => extensionOf? n
  | _ => none

/-- The extension of a path, if it has one and that is UTF-8. -/
def extensionText? (path : Path) : Option String :=
  (path.extension?.bind decode?).map String.ofList

def join (path : Path) : List FileName → Path
  | [] => path
  | n :: ns =>
    let separated := path.octets.isEmpty || path.octets.getLast? == some slash
    join (if separated then ⟨path.octets ++ n⟩ else ⟨path.octets ++ slash :: n⟩) ns

/-- The components of a path below a directory, all of them if it does not lie there. -/
def below (root path : Path) : List Component := withoutLead root.components path.components

def componentsBefore : List Component → List Component → Bool
  | _, [] => false
  | [], _ :: _ => true
  | a :: as, b :: bs => a.before b || (a == b && componentsBefore as bs)

/-- The order of paths: component by component, a path before what lies below it. -/
def le (p q : Path) : Bool := !componentsBefore q.components p.components

end Path

end CodePattern
