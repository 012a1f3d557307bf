import CodePattern.FileTree
import CodePattern.Ignore.Rule
import CodePattern.Text.Lead

/-! Where the rules of ignore files hold. Files named `.ignore` outrank those named
`.gitignore`, which outrank the exclude file of a repository, and among files of one
name those further down outrank those further up. Only `.ignore` counts outside a
repository, and a repository inside another one hides the outer one's files from what is
in it. -/

namespace CodePattern

/-- The rules that stand in one directory. Its path, as a walk shows it, is taken away
from the paths that they are applied to. -/
structure Scope where
  path : List UInt8
  plain : List Rule
  git : List Rule
  exclude : List Rule
  isRepository : Bool

def undotted (path : List UInt8) : List UInt8 := withoutLead [dot, slash] path

def isDot (path : List UInt8) : Bool := Path.components ⟨path⟩ == [.here]

namespace Scope

def rulesAt (found : Except AccessFault Trail) : List Rule :=
  match found with
  | .ok trail => (trail.node.content?.map fun content => Rule.ofFile content.data.toList).getD []
  | .error _ => []

def rulesBelow (trail : Trail) (parts : List String) : List Rule :=
  rulesAt (follow mostLinks trail (parts.map FileName.ofText))

def firstLineAt? (found : Except AccessFault Trail) : Option (List Char) :=
  match found with
  | .ok trail => trail.node.content?.bind fun content => (decodedLines content.data.toList).head?
  | .error _ => none

/-- The directory that a linked worktree has in common with its repository, told by two
files that name each other's place. -/
def commonDirectory? (t : FileTree) (pointer : List Char) : Option Path :=
  match afterLead? "gitdir: ".toList pointer with
  | none => none
  | some directory =>
    let directory : Path := ⟨octets directory⟩
    match firstLineAt? (t.lookup (directory.join [.ofText "commondir"])) with
    | none => none
    | some ('.' :: rest) => some (directory.join [octets ('.' :: rest)])
    | some common => some ⟨octets common⟩

/-- The rules of the exclude file of a repository. In a linked worktree the repository
is elsewhere, and `.git` is a file that tells where. -/
def excludeRules (t : FileTree) (trail : Trail) : List Rule :=
  let git := follow mostLinks trail [.ofText ".git"]
  if (git.toOption.map (·.node.isFile)).getD false then
    match (firstLineAt? git).bind (commonDirectory? t) with
    | some common => rulesAt (t.lookup (common.join [.ofText "info/exclude"]))
    | none => []
  else rulesBelow trail [".git", "info", "exclude"]

def holds (trail : Trail) (name : String) : Bool :=
  (follow mostLinks trail [.ofText name]).isOk

def ofTrail (t : FileTree) (path : Path) (trail : Trail) : Scope where
  path := undotted path.octets
  plain := rulesBelow trail [".ignore"]
  git := rulesBelow trail [".gitignore"]
  exclude := excludeRules t trail
  isRepository := holds trail ".git" || holds trail ".jj"

/-- The scopes of the directories above the one that a trail leads to, the innermost
first. -/
def above (t : FileTree) : Trail → List Scope
  | [] => []
  | [_] => []
  | _ :: e :: trail => ofTrail t (Trail.path (e :: trail)) (e :: trail) :: above t (e :: trail)

/-- The path of an entry as the rules of a scope see it. -/
def relative (s : Scope) (path : List UInt8) : List UInt8 :=
  let path := undotted path
  if isDot s.path || !path.contains slash then path
  else
    match afterLead? s.path path with
    | some below => withoutLead [slash] below
    | none => path

end Scope

/-- An entry, by a path that a scope's directory lies on. -/
structure View where
  scope : Scope
  path : List UInt8

namespace View

/-- The views up to the innermost repository, none outside of repositories. -/
def inRepository (views : List View) : List View :=
  match views.span (!·.scope.isRepository) with
  | (inside, repository :: _) => inside ++ [repository]
  | (_, []) => []

/-- What the rules of one kind say, those of an earlier view first. -/
def verdict? (rules : Scope → List Rule) (isDirectory : Bool) (views : List View) :
    Option Verdict :=
  views.findSome? fun v =>
    match rules v.scope with
    | [] => none
    | rs => Rule.verdict? rs (v.scope.relative v.path) isDirectory

def isIgnored (isDirectory : Bool) (views : List View) : Bool :=
  let verdict :=
    (verdict? (·.plain) isDirectory views).or
      ((verdict? (·.git) isDirectory (inRepository views)).or
        (verdict? (·.exclude) isDirectory (inRepository views)))
  verdict == some .ignored

end View

end CodePattern
