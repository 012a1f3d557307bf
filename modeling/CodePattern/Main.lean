import CodePattern.CommandLine
import CodePattern.Json.Reader
import CodePattern.ParseTable

/-! The program. It works on the files below the working directory. The trees that its
grammars make of texts come from standard input, as one JSON array of parsed texts. -/

namespace CodePattern

/-- A failure as the system reports it, with its number if it is known. -/
def faultOf : IO.Error → AccessFault
  | .permissionDenied _ number text | .hardwareFault number text | .otherError number text =>
    .system number.toNat text
  | failure => .system 0 (toString failure)

/-- A file, directory or link with everything below it. A link leads to the place that
it leads to in the end. -/
partial def loadEntry (entry : IO.FS.DirEntry) : IO (FileName × FileNode) := do
  let metadata ← entry.path.symlinkMetadata
  let node ←
    match metadata.type with
    | .dir => do
      match ← entry.path.readDir.toBaseIO with
      | .ok below => FileNode.directory <$> below.toList.mapM loadEntry
      | .error failure => pure (.closed (faultOf failure))
    | .file => do
      let content ← (IO.FS.readBinFile entry.path).toBaseIO
      pure (.regular metadata.byteSize.toNat (content.mapError faultOf))
    | .symlink => do
      let target ← IO.FS.realPath entry.path
      pure (FileNode.link (.ofText target.toString))
    | .other => pure .special
  return (.ofText entry.fileName, node)

def loadTree : IO FileTree := do
  let home ← IO.currentDir
  let entries ← (← home.readDir).toList.mapM loadEntry
  let names := (Path.ofText home.toString).components.filterMap fun
    | .name n => some n
    | _ => none
  return ⟨names.foldr (fun name below => .directory [(name, below)]) (.directory entries), names⟩

def loadTable : IO ParseTable := do
  let input ← (← IO.getStdin).readToEnd
  return ((Json.read? input.toList).bind ParseTable.ofJson?).getD ⟨[]⟩

end CodePattern

open CodePattern in
def main (words : List String) : IO UInt32 := do
  let tree ← loadTree
  let table ← loadTable
  let outcome := runProgram (fun family => .ofFamily family (table.parse family)) tree words
  (← IO.getStdout).putStr outcome.stdout
  (← IO.getStderr).putStr outcome.stderr
  return outcome.code
