import CodePattern.Language
import CodePattern.Walk

/-! The files that a package may be able to parse. Directories that hold no sources of
their own are passed over by name, and so are files of other languages. A file without
an extension may start with an interpreter line and is taken. -/

namespace CodePattern

namespace Scan

def passedOver : List String :=
  [".git", "target", "node_modules", "vendor", "__pycache__", ".venv", "venv",
    ".pytest_cache", ".mypy_cache", ".tox", "dist", "build"]

def metadataEnding : String := ".egg-info"

def isPassedOver (name : FileName) : Bool :=
  let shown := decodeLossy name
  metadataEnding.toList.isSuffixOf shown || passedOver.any (·.toList == shown)

def isWanted (package : Package) (path : Path) : Bool :=
  match path.extensionText? with
  | some extension => (Language.ofExtension? extension).any package.provides
  | none => true

/-- The files to parse among what a walk from the root found. -/
def choose (package : Package) (root : Path) (found : List Found) : List Path :=
  let files := found.filter fun f =>
    f.isFile && !(root.below f.path).any (isPassedOver ·.text)
  (files.map (·.path)).filter (isWanted package)

/-- The files to parse in the order of their paths. -/
def select (package : Package) (root : Path) (found : List Found) : List Path :=
  (choose package root found).mergeSort Path.le

/-- The files below a root, as they are shown. -/
def collect (t : FileTree) (package : Package) (root : Path) : List String :=
  (select package root (t.walk root)).map Path.shown

end Scan

end CodePattern
