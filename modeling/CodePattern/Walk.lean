import CodePattern.Ignore.Scope

/-! Walking a file tree. A walk yields what lies below its root, except what ignore
files leave out, and does not enter directories that are left out. The root itself
may be a link and is never left out, while a link below it is neither a file nor a
directory. -/

namespace CodePattern

/-- Something found by a walk. Its path begins as the root is given. -/
structure Found where
  path : Path
  isFile : Bool
  deriving DecidableEq, Repr

/-- A walk's root, as it is given and as an absolute path, and the scopes above it. -/
structure Walk where
  tree : FileTree
  root : Path
  absolute : Path
  outer : List Scope

namespace Walk

/-- The absolute path of what the walk shows as `path`. -/
def absolutePath (w : Walk) (path : List UInt8) : Path :=
  let below :=
    if isDot w.root.octets then path
    else withoutLead [slash] (withoutLead (undotted w.root.octets) path)
  w.absolute.join [below]

/-- An entry as all scopes see it, those below the root first. -/
def views (w : Walk) (inner : List Scope) (path : Path) : List View :=
  let path := undotted path.octets
  let absolute := (w.absolutePath path).octets
  inner.map (⟨·, path⟩) ++ w.outer.map (⟨·, absolute⟩)

mutual
/-- What the walk finds at the entry `name` of the directory that was found as `above`,
itself first. The trail leads to the directory, and the scopes are those from it up to
the root. -/
def visit (w : Walk) (above : Found) (trail : Trail) (inner : List Scope) (name : FileName) :
    FileNode → List Found
  | .regular _ _ =>
    let found : Found := ⟨above.path.join [name], true⟩
    if View.isIgnored false (w.views inner found.path) then [] else [found]
  | .link _ | .special =>
    let found : Found := ⟨above.path.join [name], false⟩
    if View.isIgnored false (w.views inner found.path) then [] else [found]
  | .closed _ =>
    let found : Found := ⟨above.path.join [name], false⟩
    if View.isIgnored true (w.views inner found.path) then [] else [found]
  | .directory entries =>
    let found : Found := ⟨above.path.join [name], false⟩
    if View.isIgnored true (w.views inner found.path) then []
    else
      let trail : Trail := (name, .directory entries) :: trail
      found :: visitAll w found trail (Scope.ofTrail w.tree found.path trail :: inner) entries

def visitAll (w : Walk) (above : Found) (trail : Trail) (inner : List Scope) :
    List (FileName × FileNode) → List Found
  | [] => []
  | (name, node) :: rest => visit w above trail inner name node ++ visitAll w above trail inner rest
end

end Walk

/-- Everything that a walk from a root finds. A dash stands for the standard input,
which holds no files. -/
def FileTree.walk (t : FileTree) (root : Path) : List Found :=
  if root.components = [.name (.ofText "-")] then []
  else
    match t.lookup root with
    | .error _ => []
    | .ok trail =>
      let w : Walk := ⟨t, root, trail.path, Scope.above t trail⟩
      let found : Found := ⟨root, trail.node.isFile⟩
      found :: w.visitAll found trail [Scope.ofTrail t root trail] trail.node.entries

end CodePattern
