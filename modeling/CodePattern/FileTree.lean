import CodePattern.Path

/-! A tree of files, directories and symbolic links, and how a path is looked up in it.
A lookup goes through the path part by part and follows links, at most forty of them.
It may pass through directories only, so nothing stands below a file, not even a dot, and
only through those that may be searched. -/

namespace CodePattern

/-- What keeps a path from being looked up or a file from being read. Beside the faults of the
path itself, the system may report any other, such as a missing permission. -/
inductive AccessFault where
  | absent
  | throughFile
  | nameTooLong
  | tooManyLinks
  | zeroOctet
  | system (number : Nat) (text : String)
  deriving DecidableEq, Repr

def AccessFault.message : AccessFault → String
  | .absent => "No such file or directory (os error 2)"
  | .throughFile => "Not a directory (os error 20)"
  | .nameTooLong => "File name too long (os error 36)"
  | .tooManyLinks => "Too many levels of symbolic links (os error 40)"
  | .zeroOctet => "file name contained an unexpected NUL byte"
  | .system number text => s!"{text} (os error {number})"

/-- A regular file has a size, also if its content cannot be read. A device or a socket is
special, and a closed directory lets nothing in it be looked up or listed. -/
inductive FileNode where
  | regular (size : Nat) (content : Except AccessFault ByteArray)
  | special
  | directory (entries : List (FileName × FileNode))
  | closed (fault : AccessFault)
  | link (target : Path)
  deriving Inhabited

namespace FileNode

def file (content : ByteArray) : FileNode := .regular content.size (.ok content)

def isDirectory : FileNode → Bool
  | .directory _ | .closed _ => true
  | _ => false

def isFile : FileNode → Bool
  | .regular _ _ => true
  | _ => false

/-- The octets that can be read from a node, if it is a regular file. -/
def content? : FileNode → Option ByteArray
  | .regular _ content => content.toOption
  | _ => none

/-- What keeps a directory from being searched. -/
def barrier? : FileNode → Option AccessFault
  | .closed fault => some fault
  | _ => none

def entries : FileNode → List (FileName × FileNode)
  | .directory es => es
  | _ => []

def find? (name : FileName) (entries : List (FileName × FileNode)) : Option FileNode :=
  (entries.find? (·.1 == name)).map (·.2)

def put (name : FileName) (node : FileNode) :
    List (FileName × FileNode) → List (FileName × FileNode)
  | [] => [(name, node)]
  | e :: es => if e.1 = name then (name, node) :: es else e :: put name node es

/-- The node at some names, links standing for themselves. -/
def at? (place : FileNode) : List FileName → Option FileNode
  | [] => some place
  | name :: names => (find? name place.entries).bind (at? · names)

/-- Puts a node below a directory, making the directories above it. -/
def insert (node place : FileNode) : List FileName → FileNode
  | [] => if place.isDirectory && node.isDirectory then place else node
  | name :: names =>
    let below := (find? name place.entries).getD (.directory [])
    .directory (put name (insert node below names) place.entries)

def remove (place : FileNode) : List FileName → FileNode
  | [] => place
  | [name] =>
    match place with
    | .directory es => .directory (es.filter (·.1 != name))
    | other => other
  | name :: names =>
    match place, find? name place.entries with
    | .directory es, some below => .directory (put name (remove below names) es)
    | other, _ => other

end FileNode

/-- The directories on the way to a node, innermost first, each with its name, and the
node itself in front. -/
abbrev Trail := List (FileName × FileNode)

namespace Trail

def node (trail : Trail) : FileNode := (trail.head?.map (·.2)).getD (.directory [])

def names (trail : Trail) : List FileName := (trail.map (·.1)).reverse.drop 1

def toRoot (trail : Trail) : Trail := trail.drop (trail.length - 1)

def path (trail : Trail) : Path := ⟨slash :: [slash].intercalate trail.names⟩

def up (trail : Trail) : Trail := if trail.length ≤ 1 then trail else trail.drop 1

end Trail

def longestName : Nat := 255

def longestPath : Nat := 4096

def mostLinks : Nat := 40

/-- Goes along the parts of a path up to the first link, where `onLink` goes on from
the directory that holds it, with where it leads to and the parts after it. -/
def followParts (onLink : Trail → Path → List FileName → Except AccessFault Trail)
    (trail : Trail) : List FileName → Except AccessFault Trail
  | [] => .ok trail
  | part :: rest =>
    if !trail.node.isDirectory then .error .throughFile
    else if part.isEmpty then followParts onLink trail rest
    else
      match trail.node.barrier? with
      | some fault => .error fault
      | none =>
        if Path.isVoid part then followParts onLink trail rest
        else if part = [dot, dot] then followParts onLink trail.up rest
        else if longestName < part.length then .error .nameTooLong
        else
          match FileNode.find? part trail.node.entries with
          | none => .error .absent
          | some (.link target) => onLink trail target rest
          | some node => followParts onLink ((part, node) :: trail) rest

/-- Goes along the parts of a path, through that many links at most. -/
def follow : Nat → Trail → List FileName → Except AccessFault Trail
  | 0 => followParts fun _ _ _ => .error .tooManyLinks
  | links + 1 =>
    followParts fun trail target rest =>
      follow links (if target.isAbsolute then trail.toRoot else trail)
        (Path.segments target.octets ++ rest)

/-- The tree from its root on, and the names that lead to the working directory. -/
structure FileTree where
  root : FileNode
  home : List FileName

namespace FileTree

def rootTrail (t : FileTree) : Trail := [([], t.root)]

def homeTrail (t : FileTree) : Trail :=
  match follow mostLinks t.rootTrail t.home with
  | .ok trail => trail
  | .error _ => t.rootTrail

def lookup (t : FileTree) (path : Path) : Except AccessFault Trail :=
  if path.octets.contains 0 then .error .zeroOctet
  else if path.octets.isEmpty then .error .absent
  else if longestPath ≤ path.octets.length then .error .nameTooLong
  else
    follow mostLinks (if path.isAbsolute then t.rootTrail else t.homeTrail)
      (Path.segments path.octets)

def isDirectory (t : FileTree) (path : Path) : Bool :=
  match t.lookup path with
  | .ok trail => trail.node.isDirectory
  | .error _ => false

/-- Goes along the parts of a path from a place given by its names, through links, and
makes the directories that are missing before the last part. -/
def reach (links : Nat) (root : FileNode) (place : List FileName) :
    List FileName → FileNode × List FileName
  | [] => (root, place)
  | part :: rest =>
    if Path.isVoid part then reach links root place rest
    else if part = [dot, dot] then reach links root place.dropLast rest
    else
      let next := place ++ [part]
      match root.at? next, links with
      | some (.link target), links + 1 =>
        let start := if target.isAbsolute then [] else place
        reach links root start (Path.segments target.octets ++ rest)
      | some _, links => reach links root next rest
      | none, links =>
        let root := if rest.all Path.isVoid then root else FileNode.insert (.directory []) root next
        reach links root next rest
  termination_by parts => (links, parts.length)

def placeOf (t : FileTree) (path : Path) : List FileName :=
  if path.isAbsolute then [] else t.home

def write (t : FileTree) (path : Path) (node : FileNode) : FileTree :=
  let (root, place) := reach mostLinks t.root (t.placeOf path) (Path.segments path.octets)
  { t with root := FileNode.insert node root place }

/-- Takes away what a path leads to, a link itself and not what it leads to. -/
def remove (t : FileTree) (path : Path) : FileTree :=
  let parts := (Path.segments path.octets).filter (!Path.isVoid ·)
  match parts.getLast? with
  | none => t
  | some last =>
    let (root, place) := reach mostLinks t.root (t.placeOf path) parts.dropLast
    { t with root := root.remove (place ++ [last]) }

def ofHome (home : List String) : FileTree :=
  let names := home.map FileName.ofText
  ⟨FileNode.insert (.directory []) (.directory []) names, names⟩

end FileTree

end CodePattern
