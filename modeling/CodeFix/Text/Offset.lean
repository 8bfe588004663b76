/-!
# Offsets into a text

Offsets count bytes of the UTF-8 encoding, and not every offset stands between two characters. A
slice is taken between two offsets that do. Slices that meet at an offset join to the slice between
their outer ends, and the slice between the ends of a text is the text.

A position is a line and a column, both counted from one; a column counts characters, and a line
ends with a line feed, which belongs to no column of it. The column behind the last character of a
line is a position too. Both directions walk the text once, so that each step says what one
character contributes.
-/

namespace CodeFix.Text

/-- The offset stands in front of a character or at the end of the text. -/
def IsBoundary (s : String) (offset : Nat) : Prop := String.Pos.Raw.IsValid s ⟨offset⟩

instance (s : String) (offset : Nat) : Decidable (IsBoundary s offset) :=
  inferInstanceAs (Decidable (String.Pos.Raw.IsValid s ⟨offset⟩))

/-- The text between two offsets. It is empty unless both are boundaries and the first one does not
lie behind the second one. -/
def slice (s : String) (start stop : Nat) : String :=
  if h : start ≤ stop ∧ IsBoundary s start ∧ IsBoundary s stop then
    s.extract ⟨⟨start⟩, h.2.1⟩ ⟨⟨stop⟩, h.2.2⟩
  else ""

theorem isBoundary_zero (s : String) : IsBoundary s 0 := String.Pos.Raw.isValid_zero

theorem isBoundary_utf8ByteSize (s : String) : IsBoundary s s.utf8ByteSize :=
  String.Pos.Raw.isValid_rawEndPos

/-- What stands behind a text begins at a boundary. -/
theorem isBoundary_append (a b : String) : IsBoundary (a ++ b) a.utf8ByteSize :=
  String.Pos.Raw.isValid_iff_exists_append.2 ⟨a, b, rfl, rfl⟩

theorem IsBoundary.le_utf8ByteSize {s : String} {offset : Nat} (h : IsBoundary s offset) :
    offset ≤ s.utf8ByteSize :=
  h.le_rawEndPos

theorem IsBoundary.max {s : String} {a b : Nat} (ha : IsBoundary s a) (hb : IsBoundary s b) :
    IsBoundary s (max a b) := by
  rcases Nat.le_total a b with h | h
  · rwa [Nat.max_eq_right h]
  · rwa [Nat.max_eq_left h]

section slice

variable {s : String} {a b c : Nat}

theorem toByteArray_slice (hab : a ≤ b) (ha : IsBoundary s a) (hb : IsBoundary s b) :
    (slice s a b).toByteArray = s.toByteArray.extract a b := by
  rw [slice, dif_pos ⟨hab, ha, hb⟩, String.toByteArray_extract]

/-- Slices that meet join. -/
theorem slice_append_slice (hab : a ≤ b) (hbc : b ≤ c) (ha : IsBoundary s a)
    (hb : IsBoundary s b) (hc : IsBoundary s c) : slice s a b ++ slice s b c = slice s a c := by
  apply String.toByteArray_inj.1
  rw [String.toByteArray_append, toByteArray_slice hab ha hb, toByteArray_slice hbc hb hc,
    toByteArray_slice (Nat.le_trans hab hbc) ha hc, ByteArray.extract_append_extract,
    Nat.min_eq_left hab, Nat.max_eq_right hbc]

theorem slice_self (ha : IsBoundary s a) : slice s a a = "" := by
  apply String.toByteArray_inj.1
  rw [toByteArray_slice (Nat.le_refl a) ha ha, ByteArray.extract_same]
  rfl

theorem slice_zero_utf8ByteSize (s : String) : slice s 0 s.utf8ByteSize = s := by
  apply String.toByteArray_inj.1
  rw [toByteArray_slice (Nat.zero_le _) (isBoundary_zero s) (isBoundary_utf8ByteSize s),
    ← String.size_toByteArray, ByteArray.extract_zero_size]

end slice

/-- A text is found again between what stands in front of it and what stands behind it. -/
theorem slice_append_append (a b c : String) :
    slice (a ++ b ++ c) a.utf8ByteSize (a.utf8ByteSize + b.utf8ByteSize) = b := by
  have hstart : IsBoundary (a ++ b ++ c) a.utf8ByteSize := by
    rw [String.append_assoc]
    exact isBoundary_append a (b ++ c)
  have hstop : IsBoundary (a ++ b ++ c) (a.utf8ByteSize + b.utf8ByteSize) := by
    rw [← String.utf8ByteSize_append]
    exact isBoundary_append (a ++ b) c
  apply String.toByteArray_inj.1
  rw [toByteArray_slice (Nat.le_add_right _ _) hstart hstop, String.append_assoc,
    String.toByteArray_append, String.toByteArray_append, ← String.size_toByteArray,
    ← Nat.add_zero a.toByteArray.size, Nat.add_assoc, ByteArray.extract_append_size_add,
    Nat.zero_add, ByteArray.extract_append_eq_left (String.size_toByteArray).symm]

/-! ## Lines and columns -/

/-- The byte offset reached by passing `line` line feeds and then `column` characters that are not
line feeds. -/
def offsetFrom : List Char → (line column : Nat) → Option Nat
  | _, 0, 0 => some 0
  | [], _, _ => none
  | c :: cs, 0, column + 1 =>
    if c = '\n' then none else (offsetFrom cs 0 column).map (c.utf8Size + ·)
  | c :: cs, line + 1, column =>
    (offsetFrom cs (if c = '\n' then line else line + 1) column).map (c.utf8Size + ·)

/-- Byte offset of a line and column counted from one. -/
def offsetAt? (text : String) (line column : Nat) : Option Nat :=
  if line = 0 ∨ column = 0 then none else offsetFrom text.toList (line - 1) (column - 1)

/-- The line and column reached from a given line and column by passing `offset` bytes or the whole
text; nothing if the offset lies inside a character. -/
def positionFrom : List Char → (offset line column : Nat) → Option (Nat × Nat)
  | _, 0, line, column => some (line, column)
  | [], _ + 1, line, column => some (line, column)
  | c :: cs, offset + 1, line, column =>
    if offset + 1 < c.utf8Size then none
    else
      positionFrom cs (offset + 1 - c.utf8Size) (if c = '\n' then line + 1 else line)
        (if c = '\n' then 1 else column + 1)

/-- Line and column, counted from one, of a byte offset; an offset behind the end counts as the end,
and an offset inside a character has no position. -/
def positionOf? (text : String) (offset : Nat) : Option (Nat × Nat) :=
  positionFrom text.toList offset 1 1

end CodeFix.Text
