import CodeFix.Text.Basic

/-!
# Paths

A path is kept as it was spelled and compared by its components: repeated and trailing slashes and
interior `.` segments make no difference, a leading `./` and every `..` do. Paths are ordered by
their components as well, so that the files of a directory follow each other.
-/

namespace CodeFix

/-- A step of a path. -/
inductive PathComponent where
  | root
  | current
  | parent
  | normal (name : String)
deriving DecidableEq, Repr

namespace PathComponent

/-- Position among the sorts of components. -/
def rank : PathComponent → Nat
  | root => 0
  | current => 1
  | parent => 2
  | normal _ => 3

/-- The order of components: by sort, names by their characters. -/
def lt (a b : PathComponent) : Bool :=
  match a, b with
  | normal x, normal y => decide (x < y)
  | a, b => decide (a.rank < b.rank)

end PathComponent

/-- A path as it was spelled. -/
structure PathName where
  text : String
deriving DecidableEq, Repr

namespace PathName

def isAbsolute (p : PathName) : Bool := p.text.toList.head? == some '/'

/-- The segments between slashes, the slash of the root directory left out. -/
def segments (p : PathName) : List String :=
  let ss := Text.segments '/' p.text
  if p.isAbsolute then ss.tail else ss

/-- A segment that is no step. -/
def isIdle (s : String) : Bool := s == "" || s == "."

/-- The step that a segment is. -/
def ofSegment? (s : String) : Option PathComponent :=
  if isIdle s then none else if s == ".." then some .parent else some (.normal s)

/-- The steps of the path. -/
def components (p : PathName) : List PathComponent :=
  let start : List PathComponent :=
    if p.isAbsolute then [.root] else if p.segments.head? == some "." then [.current] else []
  start ++ p.segments.filterMap ofSegment?

/-- The two paths have the same steps. -/
def same (p q : PathName) : Bool := p.components == q.components

private def ltComponents : List PathComponent → List PathComponent → Bool
  | _, [] => false
  | [], _ :: _ => true
  | a :: as, b :: bs => a.lt b || (a == b && ltComponents as bs)

private theorem ltComponents_iff : ∀ as bs : List PathComponent,
    ltComponents as bs = true ↔ List.Lex (fun a b ↦ a.lt b = true) as bs
  | [], [] => by simp [ltComponents]
  | _ :: _, [] => by simp [ltComponents]
  | [], _ :: _ => ⟨fun _ ↦ .nil, fun _ ↦ rfl⟩
  | a :: as, b :: bs => by
    rw [ltComponents, Bool.or_eq_true, Bool.and_eq_true, beq_iff_eq, ltComponents_iff as bs]
    constructor
    · rintro (h | ⟨rfl, h⟩)
      · exact .rel h
      · exact .cons h
    · intro h
      cases h with
      | rel h => exact .inl h
      | cons h => exact .inr ⟨rfl, h⟩

/-- The first path comes before the second one. -/
def lt (p q : PathName) : Bool := ltComponents p.components q.components

theorem lt_iff {p q : PathName} :
    p.lt q = true ↔ List.Lex (fun a b ↦ a.lt b = true) p.components q.components :=
  ltComponents_iff p.components q.components

/-- The first path does not come behind the second one. -/
def le (p q : PathName) : Bool := !q.lt p

/-- The second path as seen from the directory of the first one. -/
def join (p q : PathName) : PathName :=
  if q.isAbsolute then q
  else if p.text.isEmpty || p.text.toList.getLast? == some '/' then ⟨p.text ++ q.text⟩
  else ⟨p.text ++ "/" ++ q.text⟩

/-- The last step, if it is a name. -/
def fileName? (p : PathName) : Option String :=
  match p.components.getLast? with
  | some (.normal name) => some name
  | _ => none

/-- What follows the last dot of the file name, unless the dot begins the name. -/
def extension? (p : PathName) : Option String :=
  p.fileName?.bind fun name ↦
    match Text.splitLast? '.' name with
    | some (before, after) => if before.isEmpty then none else some after
    | none => none

/-- The segments without those at the end that are no steps. -/
def trimSegments (ss : List String) : List String :=
  (ss.reverse.dropWhile isIdle).reverse

/-- The segments behind the first `k` steps. -/
def dropSteps : Nat → List String → List String
  | 0, ss => ss
  | _, [] => []
  | k + 1, s :: ss => if isIdle s then dropSteps (k + 1) ss else dropSteps k ss

/-- The path below a directory, if all steps of the directory come first. -/
def below? (p dir : PathName) : Option PathName :=
  if !dir.components.isPrefixOf p.components then none
  else if dir.components.isEmpty then
    let start := if p.isAbsolute then "/" else ""
    let kept :=
      if p.components.head? == some .current then "." :: trimSegments p.segments.tail
      else trimSegments p.segments
    some ⟨start ++ String.intercalate "/" kept⟩
  else
    let steps := dir.components.filter fun c ↦ c != .root && c != .current
    some ⟨String.intercalate "/"
      (trimSegments ((dropSteps steps.length p.segments).dropWhile isIdle))⟩

/-- Names of the steps of a path that goes straight down from the root directory. -/
def names (p : PathName) : List String :=
  p.components.filterMap fun
    | .normal name => some name
    | _ => none

end PathName

end CodeFix
