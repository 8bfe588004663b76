import CodeFix.Disk.Basic
import CodeFix.Syntax.Concrete

/-!
# Discovering the files of a project

Three things are left to libraries: parsing a source, walking a directory and matching paths against
the rules of an ignore file. Here they are values (`Toolkit`), so all that is said about workspaces
is said for any parser, any walk and any way to match.

Of the paths that a walk finds, those of files belong to a project whose extension is wanted and
that are not ignored. Apart from what the walk itself leaves out, two things ignore a file: a name
on its path, below the root of the project, that the settings list, and the rules in the file
`.fixforge/ignore`. The files are sorted by path, whatever order the walk found them in.
-/

namespace CodeFix

/-! ## Libraries -/

/-- What ignore rules say of a path. -/
inductive Verdict where
  | ignored
  | kept
deriving DecidableEq, Repr

/-- The verdict on a path below the root, or on a directory above it, given whether the path leads
to a directory. -/
abbrev Matcher := PathName → Bool → Option Verdict

/-- How to walk. -/
structure WalkOptions where
  /-- The rules of `.gitignore` files and of the user count. -/
  respectGitignore : Bool
  /-- Hidden names are not left out. -/
  includeHidden : Bool

def isHidden (name : String) : Bool := name.toList.head? == some '.'

/-- The libraries that workspaces are loaded with. -/
structure Toolkit where
  /-- The parser, or why its grammar cannot be used. -/
  parser : Except String Parser
  /-- The paths that a walk from a directory finds, in the order of the walk. -/
  walk : WalkOptions → Disk → PathName → List PathName
  /-- The rules in a file as seen from a directory, if any can be made of it. -/
  matcher? : Disk → PathName → PathName → Option Matcher

/-! ## Filtering -/

/-- Tells which files are ignored. -/
structure FileFilter where
  root : PathName
  options : WalkOptions
  /-- Names of files and directories that are ignored wherever they occur. -/
  ignoredNames : List String
  /-- The rules of `.fixforge/ignore`, if there are any. -/
  rules? : Option Matcher

namespace FileFilter

/-- The directory of a project where files about the project itself are kept. -/
def projectDirectory : String := ".fixforge"

/-- The filter for the project at a root, with the rules that are found there. -/
def ofDisk (tools : Toolkit) (d : Disk) (root : PathName) (options : WalkOptions)
    (ignoredNames : List String) : FileFilter where
  root := root
  options := options
  ignoredNames := ignoredNames
  rules? :=
    let file := root.join ⟨projectDirectory ++ "/ignore"⟩
    if d.contains file then tools.matcher? d root file else none

def isIgnored (f : FileFilter) (d : Disk) (p : PathName) : Bool :=
  let relative := (p.below? f.root).getD p
  relative.names.any f.ignoredNames.contains ||
    (f.rules?.bind fun rules ↦ rules relative (d.isDirectory p)) == some .ignored

/-- The extension of a path is one of the wanted ones; all are if none is listed. -/
def isWanted (extensions : List String) (p : PathName) : Bool :=
  extensions.isEmpty || extensions.contains (p.extension?.getD "")

/-- What is at the path is a file and belongs to the project. -/
def admits (f : FileFilter) (d : Disk) (extensions : List String) (p : PathName) : Bool :=
  d.isFile p && isWanted extensions p && !f.isIgnored d p

/-- The files that belong to the project, in the order of their paths. -/
def discover (f : FileFilter) (tools : Toolkit) (d : Disk) (extensions : List String) :
    List PathName :=
  ((tools.walk f.options d f.root).filter (f.admits d extensions)).mergeSort PathName.le

end FileFilter

end CodeFix
