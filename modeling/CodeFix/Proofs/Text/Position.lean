import CodeFix.Text.Offset
import Mathlib.Data.List.Basic

/-!
# Positions and offsets

A boundary of a text can be named by its offset or by its line and column. The two walks that
translate between the names pass the same characters, so they are inverse to each other: what has
been passed between a position and an offset is one prefix of the text, and each lemma below follows
it from the front. From the middle of a text a walk goes on with the line and column it has
reached, hence the arithmetic on them in `positionFrom_of_offsetFrom`.
-/

namespace CodeFix.Text

/-- The lines of a text without their line feeds. Behind the last line feed there is one more line,
which may be empty. -/
def lines (text : String) : List (List Char) := text.toList.splitOn '\n'

variable {c : Char} {cs : List Char} {text : String} {offset line column dl dc : Nat}

/-! ## From the front -/

theorem utf8ByteSize_ofList_cons (c : Char) (cs : List Char) :
    (String.ofList (c :: cs)).utf8ByteSize = c.utf8Size + (String.ofList cs).utf8ByteSize := by
  rw [String.ofList_cons, String.utf8ByteSize_append, String.utf8ByteSize_singleton]

theorem isBoundary_ofList_cons : IsBoundary (String.ofList (c :: cs)) offset ↔
    offset = 0 ∨ c.utf8Size ≤ offset ∧ IsBoundary (String.ofList cs) (offset - c.utf8Size) := by
  have hrest : (⟨offset⟩ : String.Pos.Raw) - String.singleton c = ⟨offset - c.utf8Size⟩ := by
    rw [← String.utf8ByteSize_singleton (c := c)]
    rfl
  have hle : (String.singleton c).rawEndPos ≤ ⟨offset⟩ ↔ c.utf8Size ≤ offset := by
    rw [← String.utf8ByteSize_singleton (c := c)]
    rfl
  rw [IsBoundary, String.ofList_cons, String.Pos.Raw.isValid_append,
    String.Pos.Raw.isValid_singleton, hrest, hle, String.Pos.Raw.ext_iff, IsBoundary]
  constructor
  · rintro ((h | (rfl : offset = c.utf8Size)) | h)
    · exact Or.inl h
    · rw [Nat.sub_self]
      exact Or.inr ⟨Nat.le_refl _, isBoundary_zero _⟩
    · exact Or.inr h
  · rintro (h | h)
    · exact Or.inl (Or.inl h)
    · exact Or.inr h

theorem isBoundary_ofList_cons_add : IsBoundary (String.ofList (c :: cs)) (c.utf8Size + offset) ↔
    IsBoundary (String.ofList cs) offset := by
  have hpos := c.utf8Size_pos
  rw [isBoundary_ofList_cons, Nat.add_sub_cancel_left]
  refine ⟨fun h ↦ (h.resolve_left (by omega)).2, fun h ↦ Or.inr ⟨by omega, h⟩⟩

theorem positionFrom_cons_add (c : Char) (cs : List Char) (offset line column : Nat) :
    positionFrom (c :: cs) (c.utf8Size + offset) line column =
      positionFrom cs offset (if c = '\n' then line + 1 else line)
        (if c = '\n' then 1 else column + 1) := by
  have hpos := c.utf8Size_pos
  obtain ⟨k, hk⟩ : ∃ k, c.utf8Size + offset = k + 1 := ⟨c.utf8Size + offset - 1, by omega⟩
  rw [hk, positionFrom, if_neg (by omega), ← hk, Nat.add_sub_cancel_left]

theorem length_splitOn_lineFeed (cs : List Char) :
    (cs.splitOn '\n').length = cs.count '\n' + 1 := by
  induction cs with
  | nil => rfl
  | cons c cs ih =>
    rw [List.splitOn_cons_eq_if_modifyHead, List.count_cons]
    split
    · rw [List.length_cons, ih]
    · rw [List.length_modifyHead, ih, Nat.add_zero]

/-! ## From a position to an offset -/

theorem isBoundary_of_offsetFrom (h : offsetFrom cs dl dc = some offset) :
    IsBoundary (String.ofList cs) offset := by
  fun_induction offsetFrom cs dl dc generalizing offset with
  | case1 cs =>
    obtain rfl := Option.some.inj h
    exact isBoundary_zero _
  | case2 => cases h
  | case3 => cases h
  | case4 c cs dc hc ih =>
    obtain ⟨rest, hrest, rfl⟩ := Option.map_eq_some_iff.1 h
    exact isBoundary_ofList_cons_add.2 (ih hrest)
  | case5 c cs dl dc ih =>
    obtain ⟨rest, hrest, rfl⟩ := Option.map_eq_some_iff.1 h
    exact isBoundary_ofList_cons_add.2 (ih hrest)

/-- The walk from the offset that was found passes as many lines, and on the last one as many
columns, as were asked for. -/
theorem positionFrom_of_offsetFrom (h : offsetFrom cs dl dc = some offset) (line column : Nat) :
    positionFrom cs offset line column =
      some (line + dl, if dl = 0 then column + dc else dc + 1) := by
  fun_induction offsetFrom cs dl dc generalizing offset line column with
  | case1 cs =>
    obtain rfl := Option.some.inj h
    rw [positionFrom]
    rfl
  | case2 => cases h
  | case3 => cases h
  | case4 c cs dc hc ih =>
    obtain ⟨rest, hrest, rfl⟩ := Option.map_eq_some_iff.1 h
    rw [positionFrom_cons_add, ih hrest, if_neg hc, if_neg hc, if_pos rfl, if_pos rfl,
      Nat.add_assoc, Nat.add_comm 1]
  | case5 c cs dl dc ih =>
    obtain ⟨rest, hrest, rfl⟩ := Option.map_eq_some_iff.1 h
    rw [positionFrom_cons_add, ih hrest, if_neg (Nat.succ_ne_zero dl)]
    by_cases hc : c = '\n'
    · simp only [if_pos hc]
      congr 2
      · omega
      · split <;> omega
    · simp only [if_neg hc, if_neg (Nat.succ_ne_zero dl)]

theorem exists_offsetFrom (h : IsBoundary (String.ofList cs) offset) :
    ∃ dl dc, offsetFrom cs dl dc = some offset := by
  induction cs generalizing offset with
  | nil =>
    obtain rfl : offset = 0 := Nat.le_zero.1 h.le_utf8ByteSize
    exact ⟨0, 0, rfl⟩
  | cons c cs ih =>
    rcases isBoundary_ofList_cons.1 h with rfl | ⟨hle, hrest⟩
    · exact ⟨0, 0, by rw [offsetFrom]⟩
    · obtain ⟨offset, rfl⟩ := Nat.exists_eq_add_of_le hle
      rw [Nat.add_sub_cancel_left] at hrest
      obtain ⟨dl, dc, hfrom⟩ := ih hrest
      by_cases hc : c = '\n'
      · exact ⟨dl + 1, dc, by rw [offsetFrom, if_pos hc, hfrom, Option.map_some]⟩
      · cases dl with
        | zero => exact ⟨0, dc + 1, by rw [offsetFrom, if_neg hc, hfrom, Option.map_some]⟩
        | succ dl => exact ⟨dl + 1, dc, by rw [offsetFrom, if_neg hc, hfrom, Option.map_some]⟩

theorem offsetFrom_eq_none_iff : offsetFrom cs dl dc = none ↔
    ∀ l, (cs.splitOn '\n')[dl]? = some l → l.length < dc := by
  fun_induction offsetFrom cs dl dc with
  | case1 cs =>
    refine iff_of_false (Option.some_ne_none 0) fun h ↦ ?_
    have hfirst := List.getElem?_eq_getElem (List.length_pos_iff.2 (List.splitOn_ne_nil '\n' cs))
    exact Nat.not_lt_zero _ (h _ hfirst)
  | case2 dl dc hne =>
    refine iff_of_true rfl fun l hl ↦ ?_
    cases dl with
    | zero =>
      obtain rfl : [] = l := Option.some.inj hl
      exact Nat.pos_of_ne_zero (hne rfl)
    | succ dl => cases hl
  | case3 cs dc =>
    refine iff_of_true rfl fun l hl ↦ ?_
    rw [List.splitOn_cons_eq_if_modifyHead, if_pos (beq_self_eq_true _)] at hl
    obtain rfl : [] = l := Option.some.inj hl
    exact Nat.succ_pos dc
  | case4 c cs dc hc ih =>
    rw [Option.map_eq_none_iff, ih, List.splitOn_cons_eq_if_modifyHead,
      if_neg (mt beq_iff_eq.1 hc), List.getElem?_modifyHead_zero]
    refine ⟨fun h l hl ↦ ?_, fun h l hl ↦ ?_⟩
    · obtain ⟨l, hfirst, rfl⟩ := Option.map_eq_some_iff.1 hl
      exact Nat.succ_lt_succ (h l hfirst)
    · exact Nat.lt_of_succ_lt_succ (h (c :: l) (by rw [hl, Option.map_some]))
  | case5 c cs dl dc ih =>
    rw [Option.map_eq_none_iff, ih, List.splitOn_cons_eq_if_modifyHead]
    by_cases hc : c = '\n'
    · rw [if_pos hc, if_pos (beq_iff_eq.2 hc), List.getElem?_cons_succ]
    · rw [if_neg hc, if_neg (mt beq_iff_eq.1 hc), List.getElem?_modifyHead_succ]

/-! ## From an offset to a position -/

theorem positionFrom_of_le (h : (String.ofList cs).utf8ByteSize ≤ offset) (line column : Nat) :
    positionFrom cs offset line column =
      positionFrom cs (String.ofList cs).utf8ByteSize line column := by
  induction cs generalizing offset line column with
  | nil => cases offset <;> rfl
  | cons c cs ih =>
    rw [utf8ByteSize_ofList_cons] at h ⊢
    obtain ⟨offset, rfl⟩ := Nat.exists_eq_add_of_le (Nat.le_of_add_right_le h)
    rw [positionFrom_cons_add, positionFrom_cons_add, ih (Nat.le_of_add_le_add_left h)]

theorem positionFrom_eq_none_iff (cs : List Char) (offset line column : Nat) :
    positionFrom cs offset line column = none ↔
      offset < (String.ofList cs).utf8ByteSize ∧ ¬IsBoundary (String.ofList cs) offset := by
  induction cs generalizing offset line column with
  | nil => cases offset <;> simp [positionFrom]
  | cons c cs ih =>
    have hpos := c.utf8Size_pos
    rcases Nat.lt_or_ge offset c.utf8Size with hlt | hge
    · cases offset with
      | zero => simp [positionFrom, isBoundary_zero]
      | succ offset =>
        rw [positionFrom, if_pos hlt, isBoundary_ofList_cons, utf8ByteSize_ofList_cons]
        refine iff_of_true rfl ⟨by omega, ?_⟩
        rintro (h | ⟨h, -⟩) <;> omega
    · obtain ⟨offset, rfl⟩ := Nat.exists_eq_add_of_le hge
      rw [positionFrom_cons_add, ih, isBoundary_ofList_cons_add, utf8ByteSize_ofList_cons,
        Nat.add_lt_add_iff_left]

/-! ## Both directions -/

theorem offsetAt?_succ (text : String) (dl dc : Nat) :
    offsetAt? text (dl + 1) (dc + 1) = offsetFrom text.toList dl dc := by
  rw [offsetAt?, if_neg (by omega), Nat.add_sub_cancel, Nat.add_sub_cancel]

theorem offsetAt?_eq_none_iff (text : String) (line column : Nat) :
    offsetAt? text line column = none ↔
      line = 0 ∨ column = 0 ∨ text.toList.count '\n' + 1 < line ∨
        ∃ l, (lines text)[line - 1]? = some l ∧ l.length + 1 < column := by
  cases line with
  | zero => exact iff_of_true (if_pos (Or.inl rfl)) (Or.inl rfl)
  | succ dl =>
    cases column with
    | zero => exact iff_of_true (if_pos (Or.inr rfl)) (Or.inr (Or.inl rfl))
    | succ dc =>
      rw [offsetAt?_succ, offsetFrom_eq_none_iff, Nat.add_sub_cancel, ← length_splitOn_lineFeed,
        ← lines]
      constructor
      · intro h
        rcases Nat.lt_or_ge dl (lines text).length with hlt | hge
        · have hl := List.getElem?_eq_getElem hlt
          exact Or.inr (Or.inr (Or.inr ⟨_, hl, Nat.succ_lt_succ (h _ hl)⟩))
        · exact Or.inr (Or.inr (Or.inl (Nat.lt_succ_of_le hge)))
      · rintro (h | h | h | ⟨l, hl, hlength⟩) l' hl'
        · exact absurd h (Nat.succ_ne_zero dl)
        · exact absurd h (Nat.succ_ne_zero dc)
        · have hlt := (List.getElem?_eq_some_iff.1 hl').1
          omega
        · obtain rfl := Option.some.inj (hl.symm.trans hl')
          exact Nat.lt_of_succ_lt_succ hlength

theorem positionOf?_of_offsetFrom (h : offsetFrom text.toList dl dc = some offset) :
    positionOf? text offset = some (dl + 1, dc + 1) := by
  rw [positionOf?, positionFrom_of_offsetFrom h]
  congr 2
  · omega
  · split <;> omega

theorem exists_positionOf? (h : IsBoundary text offset) : ∃ line column,
    positionOf? text offset = some (line, column) ∧ offsetAt? text line column = some offset := by
  rw [← text.ofList_toList] at h
  obtain ⟨dl, dc, hfrom⟩ := exists_offsetFrom h
  exact ⟨dl + 1, dc + 1, positionOf?_of_offsetFrom hfrom, (offsetAt?_succ text dl dc).trans hfrom⟩

theorem positionOf?_of_offsetAt? (h : offsetAt? text line column = some offset) :
    IsBoundary text offset ∧ positionOf? text offset = some (line, column) := by
  obtain ⟨hpos, hfrom⟩ := Option.ite_none_left_eq_some.1 h
  have hposition := positionOf?_of_offsetFrom hfrom
  rw [Nat.sub_add_cancel (by omega), Nat.sub_add_cancel (by omega)] at hposition
  exact ⟨text.ofList_toList ▸ isBoundary_of_offsetFrom hfrom, hposition⟩

theorem positionOf?_of_le (h : text.utf8ByteSize ≤ offset) :
    positionOf? text offset = positionOf? text text.utf8ByteSize := by
  rw [← text.ofList_toList] at h
  rw [positionOf?, positionFrom_of_le h, String.ofList_toList, positionOf?]

theorem positionOf?_eq_none_iff (text : String) (offset : Nat) :
    positionOf? text offset = none ↔ offset < text.utf8ByteSize ∧ ¬IsBoundary text offset := by
  rw [positionOf?, positionFrom_eq_none_iff, String.ofList_toList]

theorem exists_offsetAt?_of_positionOf? (h : positionOf? text offset = some (line, column)) :
    ∃ offset, offsetAt? text line column = some offset := by
  have hboundary : ∃ o, IsBoundary text o ∧ positionOf? text o = some (line, column) := by
    rcases Nat.lt_or_ge offset text.utf8ByteSize with hlt | hge
    · refine ⟨offset, ?_, h⟩
      by_contra hnot
      rw [(positionOf?_eq_none_iff text offset).2 ⟨hlt, hnot⟩] at h
      cases h
    · exact ⟨_, isBoundary_utf8ByteSize text, (positionOf?_of_le hge).symm.trans h⟩
  obtain ⟨o, ho, hposition⟩ := hboundary
  obtain ⟨line', column', hposition', hoffset⟩ := exists_positionOf? ho
  obtain ⟨rfl, rfl⟩ := Prod.mk.inj (Option.some.inj (hposition.symm.trans hposition'))
  exact ⟨o, hoffset⟩

theorem exists_line_of_positionOf? (h : positionOf? text offset = some (line, column)) :
    line ≤ (lines text).length ∧ ∃ l ∈ lines text, column ≤ l.length + 1 := by
  obtain ⟨o, ho⟩ := exists_offsetAt?_of_positionOf? h
  have hsome : offsetAt? text line column ≠ none := by
    rw [ho]
    exact Option.some_ne_none o
  rw [Ne, offsetAt?_eq_none_iff, ← length_splitOn_lineFeed, ← lines, not_or, not_or, not_or]
    at hsome
  obtain ⟨hline, -, hlast, hlength⟩ := hsome
  have hlt : line - 1 < (lines text).length := by omega
  refine ⟨Nat.le_of_not_lt hlast, (lines text)[line - 1], List.getElem_mem hlt, ?_⟩
  exact Nat.le_of_not_lt fun h ↦ hlength ⟨_, List.getElem?_eq_getElem hlt, h⟩

/-- **Positions and offsets** are inverse to each other. A position is missing if its line is or if
the line is too short for it; an offset behind the end counts as the end, and one inside a character
has no position. With fewer than `2 ^ 32 - 1` lines, and characters in each line, all lines and
columns fit into 32 bits. -/
theorem offset_position_inverse (text : String) :
    (∀ offset ≤ text.utf8ByteSize, IsBoundary text offset → ∃ line column,
        positionOf? text offset = some (line, column) ∧
          offsetAt? text line column = some offset) ∧
      (∀ line column offset, offsetAt? text line column = some offset →
        offset ≤ text.utf8ByteSize ∧ IsBoundary text offset ∧
          positionOf? text offset = some (line, column)) ∧
      (∀ line column, offsetAt? text line column = none ↔
        line = 0 ∨ column = 0 ∨ text.toList.count '\n' + 1 < line ∨
          ∃ l, (lines text)[line - 1]? = some l ∧ l.length + 1 < column) ∧
      (∀ offset, text.utf8ByteSize ≤ offset →
        positionOf? text offset = positionOf? text text.utf8ByteSize) ∧
      (∀ offset, positionOf? text offset = none ↔
        offset < text.utf8ByteSize ∧ ¬IsBoundary text offset) ∧
      ((lines text).length < UInt32.size - 1 →
        (∀ l ∈ lines text, l.length < UInt32.size - 1) →
          ∀ offset line column, positionOf? text offset = some (line, column) →
            line < UInt32.size ∧ column < UInt32.size) := by
  refine ⟨fun offset _ h ↦ exists_positionOf? h, fun line column offset h ↦ ?_,
    offsetAt?_eq_none_iff text, fun offset h ↦ positionOf?_of_le h, positionOf?_eq_none_iff text,
    fun hlines hlengths offset line column h ↦ ?_⟩
  · obtain ⟨hboundary, hposition⟩ := positionOf?_of_offsetAt? h
    exact ⟨hboundary.le_utf8ByteSize, hboundary, hposition⟩
  · obtain ⟨hline, l, hl, hcolumn⟩ := exists_line_of_positionOf? h
    have hlength := hlengths l hl
    omega

-- the carriage return stands in the last column of its line, and column 3 is behind it
example : offsetAt? "é\r\n" 1 3 = some 3 ∧ offsetAt? "é\r\n" 1 4 = none ∧
    positionOf? "é\r\n" 1 = none ∧ positionOf? "é\r\n" 9 = some (2, 1) := by
  decide +kernel

end CodeFix.Text
