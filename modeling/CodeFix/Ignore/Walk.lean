import CodeFix.Ignore.Rules
import CodeFix.Settings.Store

/-!
# Walking directories under ignore rules

A walk finds a directory and what is below it. Every directory may hold three files of rules for
what is below it: `.ignore`, `.gitignore` and `.git/info/exclude`; those of the directories above
the walk count too, and so does one file of the user's own. They rank in this order, whatever
directory they are in, and within one rank the nearest directory that says anything about a path
decides. An ignored directory is not entered.

A name that begins with a dot is hidden and left out, unless a rule keeps it.

This is the walk of the installed toolkit. What holds of workspaces does not depend on it: it holds
for every walk that finds each visible file once, in whatever order.
-/

namespace CodeFix.Ignore

/-- The rules of the user that count wherever a walk goes. -/
structure UserRules where
  rules : Rules := []
  /-- The directory that the rules are seen from. -/
  base : List String := []

/-- The rules that a user keeps on a disk. -/
def UserRules.find (d : Disk) (env : Environment) (directory : PathName) : UserRules where
  rules :=
    match d.find? ((configurationDirectory env).join ⟨"git/ignore"⟩) with
    | some (.file content) => .ofBytes content
    | _ => []
  base := (d.resolve directory).toOption.getD directory.names

/-- A path as seen by the user's rules. -/
def UserRules.seen (user : UserRules) (names : List String) : String :=
  if user.base.isPrefixOf names then String.intercalate "/" (names.drop user.base.length)
  else (Disk.pathOf names).text

/-- The rules that a directory holds. -/
structure Level where
  /-- How many names lead to the directory. -/
  depth : Nat
  ignoreFile : Rules
  gitignore : Rules
  gitExclude : Rules

/-- The rules in a file, if it is there. -/
def rulesAt (e : DiskEntry) (names : List String) : Rules :=
  match e.descend? names with
  | some (.file content) => .ofBytes content
  | _ => []

/-- The rules that a directory holds, as far as they count. -/
def Level.of (options : WalkOptions) (depth : Nat) (e : DiskEntry) : Level where
  depth := depth
  ignoreFile := rulesAt e [".ignore"]
  gitignore := if options.respectGitignore then rulesAt e [".gitignore"] else []
  gitExclude := if options.respectGitignore then rulesAt e [".git", "info", "exclude"] else []

/-- A path as seen from the directory of a level. -/
def Level.seen (l : Level) (names : List String) : String :=
  String.intercalate "/" (names.drop l.depth)

/-- The verdict of the nearest level whose rules of one rank say anything. -/
def rankVerdict? (rank : Level → Rules) (levels : List Level) (names : List String)
    (isDirectory : Bool) : Option Verdict :=
  levels.findSome? fun l ↦ (rank l).verdict? (l.seen names) isDirectory

/-- The verdict of all rules; levels come nearest one first. -/
def verdict? (user : UserRules) (options : WalkOptions) (levels : List Level)
    (names : List String) (isDirectory : Bool) : Option Verdict :=
  (rankVerdict? Level.ignoreFile levels names isDirectory).or <|
    (rankVerdict? Level.gitignore levels names isDirectory).or <|
    (rankVerdict? Level.gitExclude levels names isDirectory).or <|
    if options.respectGitignore then user.rules.verdict? (user.seen names) isDirectory
    else none

/-- The walk leaves an entry out. -/
def isLeftOut (user : UserRules) (options : WalkOptions) (levels : List Level)
    (names : List String) (name : String) (isDirectory : Bool) : Bool :=
  match verdict? user options levels names isDirectory with
  | some .ignored => true
  | some .kept => false
  | none => !options.includeHidden && isHidden name

mutual

/-- The paths of an entry that the names lead to and of what is below it. -/
def pathsOf (user : UserRules) (options : WalkOptions) (levels : List Level)
    (names : List String) : DiskEntry → List PathName
  | .file _ => [Disk.pathOf names]
  | .directory es =>
    let level := Level.of options names.length (.directory es)
    Disk.pathOf names :: pathsAmong user options (level :: levels) names es
termination_by structural e => e

/-- The paths of the entries of a directory and of what is below them. -/
def pathsAmong (user : UserRules) (options : WalkOptions) (levels : List Level)
    (names : List String) : List (String × DiskEntry) → List PathName
  | [] => []
  | (name, e) :: rest =>
    let here := names ++ [name]
    (if isLeftOut user options levels here name e.isDirectory then []
      else pathsOf user options levels here e) ++ pathsAmong user options levels names rest
termination_by structural es => es

end

/-- The levels of the directories above the one that names lead to, nearest one first. -/
def levelsAbove (options : WalkOptions) (d : Disk) (names : List String) : List Level :=
  (List.range names.length).reverse.filterMap fun k ↦
    (d.entry? (names.take k)).map (Level.of options k)

/-- The paths that a walk from the entry at the names finds. -/
def walkFrom (user : UserRules) (options : WalkOptions) (d : Disk) (names : List String) :
    List PathName :=
  match d.entry? names with
  | some e => pathsOf user options (levelsAbove options d names) names e
  | none => []

/-- The paths that a walk from a directory finds. -/
def walk (user : UserRules) (options : WalkOptions) (d : Disk) (root : PathName) :
    List PathName :=
  match d.resolve root with
  | .ok names => walkFrom user options d names
  | .error _ => []

end CodeFix.Ignore
