import CodeFix.Ignore.Pattern

/-!
# Matching patterns against paths

Patterns are matched against the bytes of a path, so a wildcard for one byte does not stand for a
character of several bytes. Matching keeps all rests of the path that tokens can leave over; a
pattern matches if it can leave nothing over. A rest is determined by its length, which bounds their
number.
-/

namespace CodeFix.Ignore

def charBytes (c : Char) : List UInt8 := (String.singleton c).toUTF8.toList

def textBytes (s : String) : List UInt8 := s.toUTF8.toList

def slash : UInt8 := '/'.toNat.toUInt8

/-- What is left behind leading bytes. -/
def restBehind? : List UInt8 → List UInt8 → Option (List UInt8)
  | [], s => some s
  | _ :: _, [] => none
  | b :: bs, c :: cs => if b = c then restBehind? bs cs else none

/-- All that may be left behind bytes other than slashes. -/
def restsInSegment : List UInt8 → List (List UInt8)
  | [] => [[]]
  | c :: cs => (c :: cs) :: (if c = slash then [] else restsInSegment cs)

/-- All that is left behind some slash. -/
def restsBehindSlashes : List UInt8 → List (List UInt8)
  | [] => []
  | c :: cs => if c = slash then cs :: restsBehindSlashes cs else restsBehindSlashes cs

/-- Everything that may be left over. -/
def suffixes : List UInt8 → List (List UInt8)
  | [] => [[]]
  | c :: cs => (c :: cs) :: suffixes cs

/-- What is left behind a slash, treated further. -/
def behindSlash (f : List UInt8 → List (List UInt8)) : List UInt8 → List (List UInt8)
  | c :: cs => if c = slash then f cs else []
  | [] => []

/-- A byte belongs to a range of characters. Of characters with several bytes, each byte counts for
itself, and the range goes from the last byte of its start to the first byte of its end. -/
def inRange (b : UInt8) (r : Char × Char) : Bool :=
  let low := charBytes r.1
  let high := charBytes r.2
  low.contains b || high.contains b ||
    (r.1 != r.2 && decide (low.getLastD 0 ≤ b) && decide (b ≤ high.headD 0))

/-- Rests without those that occur earlier; rests of one path are the same if their lengths are. -/
def distinctRests : List (List UInt8) → List (List UInt8)
  | [] => []
  | s :: ss => s :: (distinctRests ss).filter fun t ↦ t.length != s.length

/-! ## Tokens -/

mutual

/-- The token has no text of its own: it is a choice whose branches are all empty. -/
def Token.isVoid : Token → Bool
  | .choice branches => allVoid branches
  | _ => false
termination_by structural t => t

def isVoidSequence : List Token → Bool
  | [] => true
  | t :: ts => t.isVoid && isVoidSequence ts
termination_by structural ts => ts

def allVoid : List (List Token) → Bool
  | [] => true
  | b :: bs => isVoidSequence b && allVoid bs
termination_by structural bs => bs

end

mutual

/-- All that a token can leave over. Empty branches of a choice are passed over, unless all are. -/
def Token.rests : Token → List UInt8 → List (List UInt8)
  | .literal c, s => (restBehind? (charBytes c) s).toList
  | .anyByte, s => match s with
    | c :: cs => if c = slash then [] else [cs]
    | [] => []
  | .anyBytes, s => restsInSegment s
  | .directoriesBefore, s => s :: restsBehindSlashes s
  | .everythingBelow, s => behindSlash suffixes s
  | .directoriesBetween, s => behindSlash (fun cs ↦ cs :: restsBehindSlashes cs) s
  | .oneOf negated ranges, s => match s with
    | c :: cs => if ranges.any (inRange c) != negated then [cs] else []
    | [] => []
  | .choice branches, s => if allVoid branches then [s] else choiceRests branches s
termination_by structural t => t

/-- All that tokens one after another can leave over of some rests. -/
def sequenceRests : List Token → List (List UInt8) → List (List UInt8)
  | [], ss => ss
  | t :: ts, ss => sequenceRests ts (distinctRests (ss.flatMap t.rests))
termination_by structural ts => ts

def choiceRests : List (List Token) → List UInt8 → List (List UInt8)
  | [], _ => []
  | b :: bs, s => (if isVoidSequence b then [] else sequenceRests b [s]) ++ choiceRests bs s
termination_by structural bs => bs

end

/-- The tokens stand for anything at all. -/
def isAnything : List Token → Bool
  | [.directoriesBefore] => true
  | _ => false

/-- The tokens stand for the whole path. -/
def matchesPath (tokens : List Token) (path : String) : Bool :=
  isAnything tokens || (sequenceRests tokens [textBytes path]).any List.isEmpty

end CodeFix.Ignore
