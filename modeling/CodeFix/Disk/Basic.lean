import CodeFix.Path

/-!
# Disks

A disk is a tree of directories as a value: what a program can read, and after it ran, what it left
behind. Files hold bytes. A path is resolved step by step from the root directory, so `..` leads to
the directory that really contains the one before it, and a path through something missing leads
nowhere even if a later `..` would step out of it again.

Only absolute paths are resolved. A program that is started in a directory joins its paths to that
directory first.
-/

namespace CodeFix

/-- Why an operation on a disk fails. -/
inductive DiskError where
  | notFound
  | notDirectory
  | isDirectory
  | alreadyExists
  /-- The content of a file is no text. -/
  | notText
deriving DecidableEq, Repr

def DiskError.message : DiskError → String
  | notFound => "No such file or directory (os error 2)"
  | notDirectory => "Not a directory (os error 20)"
  | isDirectory => "Is a directory (os error 21)"
  | alreadyExists => "File exists (os error 17)"
  | notText => "stream did not contain valid UTF-8"

/-- A file or a directory. -/
inductive DiskEntry where
  | file (content : ByteArray)
  | directory (entries : List (String × DiskEntry))

namespace DiskEntry

def isDirectory : DiskEntry → Bool
  | file _ => false
  | directory _ => true

/-- What is in a directory; nothing in a file. -/
def entries : DiskEntry → List (String × DiskEntry)
  | file _ => []
  | directory es => es

/-- The entry that a list of names leads to. -/
def descend? : DiskEntry → List String → Option DiskEntry
  | e, [] => some e
  | e, name :: names => (e.entries.lookup name).bind fun e' ↦ e'.descend? names
termination_by structural _ names => names

/-- Entries with one of them replaced, or added behind the others. -/
def assign (name : String) (e : DiskEntry) : List (String × DiskEntry) → List (String × DiskEntry)
  | [] => [(name, e)]
  | (n, old) :: es => if n = name then (name, e) :: es else (n, old) :: assign name e es

/-- The entry with another one put where the names lead; the directories on the way have to be
there. -/
def put : DiskEntry → List String → DiskEntry → DiskEntry
  | _, [], new => new
  | file content, _ :: _, _ => file content
  | directory es, [name], new => directory (assign name new es)
  | directory es, name :: names, new =>
    match es.lookup name with
    | some e => directory (assign name (e.put names new) es)
    | none => directory es
termination_by structural _ names => names

end DiskEntry

/-- The contents of the root directory. -/
structure Disk where
  entries : List (String × DiskEntry)

namespace Disk

def root (d : Disk) : DiskEntry := .directory d.entries

/-- The entry that names lead to from the root directory. -/
def entry? (d : Disk) (names : List String) : Option DiskEntry := d.root.descend? names

/-- The disk with an entry put where the names lead. -/
def put (d : Disk) (names : List String) (e : DiskEntry) : Disk := ⟨(d.root.put names e).entries⟩

/-! ## Resolving paths -/

/-- One step of resolving a path: only from a directory does a segment lead anywhere. -/
def step (d : Disk) (names : List String) (segment : String) : Except DiskError (List String) :=
  match d.entry? names with
  | none => .error .notFound
  | some (.file _) => .error .notDirectory
  | some (.directory es) =>
    if segment == "" || segment == "." then .ok names
    else if segment == ".." then .ok names.dropLast
    else if (es.lookup segment).isSome then .ok (names ++ [segment])
    else .error .notFound

/-- The names that a path leads along. -/
def resolve (d : Disk) (p : PathName) : Except DiskError (List String) :=
  if p.isAbsolute then p.segments.foldlM d.step [] else .error .notFound

/-- The path straight down along names. -/
def pathOf (names : List String) : PathName := ⟨"/" ++ String.intercalate "/" names⟩

/-- The path to the same entry without any detour. -/
def canonical (d : Disk) (p : PathName) : Except DiskError PathName := pathOf <$> d.resolve p

/-- The entry at a path. -/
def find? (d : Disk) (p : PathName) : Option DiskEntry :=
  match d.resolve p with
  | .ok names => d.entry? names
  | .error _ => none

def contains (d : Disk) (p : PathName) : Bool := (d.find? p).isSome

def isDirectory (d : Disk) (p : PathName) : Bool := ((d.find? p).map (·.isDirectory)).getD false

/-- There is a file at the path. -/
def isFile (d : Disk) (p : PathName) : Bool := ((d.find? p).map (!·.isDirectory)).getD false

/-! ## Reading and writing

Files are read whole and written whole. A file is written into a directory that is already there;
directories are made together with all that are missing above them. -/

def readBytes (d : Disk) (p : PathName) : Except DiskError ByteArray := do
  let names ← d.resolve p
  match d.entry? names with
  | some (.file content) => .ok content
  | some (.directory _) => .error .isDirectory
  | none => .error .notFound

/-- The text of the file at a path. -/
def readText (d : Disk) (p : PathName) : Except DiskError String := do
  let content ← d.readBytes p
  match String.fromUTF8? content with
  | some text => .ok text
  | none => .error .notText

/-- The disk with a file written, in place of an earlier one. A slash at the end of the path says
that a directory is meant, whatever is there. -/
def write (d : Disk) (p : PathName) (content : ByteArray) : Except DiskError Disk := do
  let segments := (p.segments.reverse.dropWhile (· == "")).reverse
  let parent ← segments.dropLast.foldlM d.step []
  let last := segments.getLastD ""
  match d.entry? parent with
  | none => .error .notFound
  | some (.file _) => .error .notDirectory
  | some (.directory es) =>
    if p.segments.getLastD "" == "" || last == "." || last == ".." then .error .isDirectory
    else
      match es.lookup last with
      | some (.directory _) => .error .isDirectory
      | _ => .ok (d.put (parent ++ [last]) (.file content))

/-- Makes the directories that the segments of a path lead through. -/
def makeSteps : Disk → List String → List String → Except DiskError Disk
  | d, _, [] => .ok d
  | d, names, segment :: rest =>
    if segment == "" || segment == "." then makeSteps d names rest
    else if segment == ".." then makeSteps d names.dropLast rest
    else
      let here := names ++ [segment]
      match d.entry? here with
      | none => makeSteps (d.put here (.directory [])) here rest
      | some (.directory _) => makeSteps d here rest
      | some (.file _) => .error (if rest.isEmpty then .alreadyExists else .notDirectory)

/-- The disk with a directory at the path. -/
def makeDirectories (d : Disk) (p : PathName) : Except DiskError Disk := makeSteps d [] p.segments

end Disk

end CodeFix
