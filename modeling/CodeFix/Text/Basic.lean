/-!
# Trimming and cutting texts

A character is blank when it has the Unicode property `White_Space`. Trimming takes blank characters
off the ends of a text and nothing else.

A text is cut at every occurrence of a separator character. There is always one segment more than
there are separators, and joining the segments with the separator gives the text back.
-/

namespace CodeFix.Text

/-- The Unicode property `White_Space`. -/
def isBlank (c : Char) : Bool :=
  let v := c.val.toNat
  (9 ≤ v && v ≤ 13) || v == 0x20 || v == 0x85 || v == 0xA0 || v == 0x1680
    || (0x2000 ≤ v && v ≤ 0x200A) || v == 0x2028 || v == 0x2029 || v == 0x202F || v == 0x205F
    || v == 0x3000

/-- Without the blanks at the beginning. -/
def trimStartChars (cs : List Char) : List Char := cs.dropWhile isBlank

/-- Without the characters at the end that satisfy a test. -/
def trimEndWhile (p : Char → Bool) (cs : List Char) : List Char := (cs.reverse.dropWhile p).reverse

/-- Without the blanks at the end. -/
def trimEndChars (cs : List Char) : List Char := trimEndWhile isBlank cs

/-- Without the blanks at both ends. -/
def trimChars (cs : List Char) : List Char := trimEndChars (trimStartChars cs)

def trim (s : String) : String := String.ofList (trimChars s.toList)

/-! ## Segments -/

/-- The pieces of a text between the occurrences of a separator. -/
def segmentsChars (sep : Char) : List Char → List (List Char)
  | [] => [[]]
  | c :: cs =>
    if c = sep then [] :: segmentsChars sep cs
    else
      match segmentsChars sep cs with
      | [] => [[c]]
      | s :: ss => (c :: s) :: ss

def segments (sep : Char) (s : String) : List String :=
  (segmentsChars sep s.toList).map String.ofList

theorem segmentsChars_ne_nil (sep : Char) (cs : List Char) : segmentsChars sep cs ≠ [] := by
  induction cs with
  | nil => simp [segmentsChars]
  | cons c cs ih =>
    rw [segmentsChars]
    split
    · simp
    · split <;> simp

/-- Joining the pieces gives the text back. -/
theorem eq_append_of_segmentsChars {sep : Char} {cs first : List Char} {rest : List (List Char)}
    (h : segmentsChars sep cs = first :: rest) : cs = first ++ rest.flatMap (sep :: ·) := by
  induction cs generalizing first rest with
  | nil =>
    obtain ⟨rfl, rfl⟩ := List.cons.inj h
    rfl
  | cons c cs ih =>
    rw [segmentsChars] at h
    cases hs : segmentsChars sep cs with
    | nil => exact absurd hs (segmentsChars_ne_nil sep cs)
    | cons s ss =>
      have hcs := ih hs
      rw [hs] at h
      by_cases hc : c = sep
      · rw [if_pos hc] at h
        obtain ⟨rfl, rfl⟩ := List.cons.inj h
        rw [List.flatMap_cons, List.nil_append, List.cons_append, ← hcs, hc]
      · rw [if_neg hc] at h
        obtain ⟨rfl, rfl⟩ := List.cons.inj h
        rw [List.cons_append, ← hcs]

/-- What follows the last separator; the whole text if there is none. -/
def lastSegment (sep : Char) (s : String) : String := (segments sep s).getLastD s

/-- The text before and after the last separator, if there is one. -/
def splitLast? (sep : Char) (s : String) : Option (String × String) :=
  let ss := segments sep s
  if ss.length < 2 then none
  else some (String.intercalate (String.singleton sep) ss.dropLast, ss.getLastD "")

/-- The text before and after the first separator, if there is one. -/
def splitFirst? (sep : Char) : List Char → Option (List Char × List Char)
  | [] => none
  | c :: cs =>
    if c = sep then some ([], cs) else (splitFirst? sep cs).map fun (a, b) ↦ (c :: a, b)

end CodeFix.Text
