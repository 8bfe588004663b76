import CodeFix.Proofs.Cli.Numeral
import CodeFix.Proofs.Text.Basic

/-!
# Reading locations

`Written` is the grammar of locations, independent of how they are read: a file with a line and a
column, or a file with a line whose last segment cannot be mistaken for a coordinate. A text is read
as a location exactly when the grammar gives it to that location (`parseChars_eq_ok_iff`), and what
is said about locations below is said about the grammar.

Colons are free in a file, so the cut is made from the right: a text has no colon, or it falls apart
at its last one in one way only, and so does what stands in front of that.
-/

namespace CodeFix.Location

/-! ## The grammar -/

/-- The last segment is no negative number, and no number at all if there is one before it. -/
def EndsPlainly (file : List Char) : Prop :=
  ∀ front last, Text.segmentsChars ':' file = front ++ [last] →
    ¬ SpellsNegative last ∧ (front ≠ [] → ∀ n, ¬ Spells last n)

/-- The texts of a location, without blanks around them. -/
inductive Written : Location → List Char → Prop
  /-- The file, the line and the column. -/
  | full {file line column : List Char} {l c : Nat} (hfile : file ≠ [])
      (hline : Spells line l) (hl : IsCoordinate l) (hcolumn : Spells column c)
      (hc : IsCoordinate c) :
      Written ⟨⟨String.ofList file⟩, l, c⟩ (file ++ ':' :: line ++ ':' :: column)
  /-- The file and the line, for the first column of it. -/
  | short {file line : List Char} {l : Nat} (hfile : file ≠ []) (hplain : EndsPlainly file)
      (hline : Spells line l) (hl : IsCoordinate l) :
      Written ⟨⟨String.ofList file⟩, l, 1⟩ (file ++ ':' :: line)

variable {cs file line column before middle last digits : List Char} {l c n : Nat} {loc : Location}
  {p : Parts}

theorem colon_not_mem (h : Spells digits n) : ':' ∉ digits := h.not_mem rfl

theorem endsPlainly_of_not_mem (h : ':' ∉ file) : EndsPlainly file ↔ ¬ SpellsNegative file := by
  rw [EndsPlainly, Text.segmentsChars_of_not_mem h]
  constructor
  · intro hplain
    exact (hplain [] file rfl).1
  · intro hnegative front last heq
    have happend : [] ++ [file] = front ++ [last] := heq
    obtain ⟨hfront, hlast⟩ := List.append_inj' happend rfl
    rw [← List.singleton_inj.1 hlast]
    exact ⟨hnegative, fun hne ↦ absurd hfront.symm hne⟩

theorem endsPlainly_append (h : ':' ∉ last) : EndsPlainly (before ++ ':' :: last) ↔
    ¬ SpellsNegative last ∧ ∀ n, ¬ Spells last n := by
  rw [EndsPlainly, Text.segmentsChars_concat before h]
  constructor
  · intro hplain
    obtain ⟨hnegative, hnumeral⟩ := hplain _ last rfl
    exact ⟨hnegative, hnumeral (Text.segmentsChars_ne_nil ':' before)⟩
  · rintro ⟨hnegative, hnumeral⟩ front last' heq
    obtain ⟨-, hlast⟩ := List.append_inj' heq rfl
    rw [← List.singleton_inj.1 hlast]
    exact ⟨hnegative, fun _ ↦ hnumeral⟩

/-! ## The last colon -/

theorem splitLastColon?_of_not_mem (h : ':' ∉ cs) : splitLastColon? cs = none := by
  have hrest : cs.reverse.dropWhile (· != ':') = [] := by
    rw [List.dropWhile_eq_nil_iff]
    intro c hc
    rw [bne_iff_ne]
    rintro rfl
    exact h (List.mem_reverse.1 hc)
  rw [splitLastColon?, hrest]

theorem splitLastColon?_append (before : List Char) (h : ':' ∉ last) :
    splitLastColon? (before ++ ':' :: last) = some (before, last) := by
  have hlast : ∀ c ∈ last.reverse, (c != ':') = true := by
    intro c hc
    rw [bne_iff_ne]
    rintro rfl
    exact h (List.mem_reverse.1 hc)
  have hreverse : (before ++ ':' :: last).reverse = last.reverse ++ ':' :: before.reverse := by simp
  rw [splitLastColon?, hreverse, List.takeWhile_append_of_pos hlast,
    List.dropWhile_append_of_pos hlast, List.takeWhile_cons, List.dropWhile_cons]
  simp

/-! ## Taking a text apart -/

theorem parts_of_not_mem (h : ':' ∉ cs) : ∃ e, parts cs = .error e := by
  rw [parts, splitLastColon?_of_not_mem h]
  exact ⟨_, rfl⟩

theorem parts_of_one (hbefore : ':' ∉ before) (hlast : ':' ∉ last) :
    parts (before ++ ':' :: last) = .ok p ↔
      isNumeral last = true ∧ isNegativeNumeral before = false ∧ p = ⟨before, last, none⟩ := by
  rw [parts, splitLastColon?_append before hlast]
  dsimp only
  rw [splitLastColon?_of_not_mem hbefore]
  dsimp only
  cases hnumeral : isNumeral last with
  | false => cases isNegativeNumeral last <;> cases isNegativeNumeral before <;> simp
  | true =>
    rw [isNegativeNumeral_of_isNumeral hnumeral]
    cases isNegativeNumeral before <;> simp [eq_comm]

/-- Behind the last of several colons stands the column, if a number stands in front of it as well,
and the line otherwise. -/
theorem parts_of_two (hmiddle : ':' ∉ middle) (hlast : ':' ∉ last) :
    parts (file ++ ':' :: middle ++ ':' :: last) = .ok p ↔
      isNumeral last = true ∧ isNegativeNumeral middle = false ∧
        p = if isNumeral middle then ⟨file, middle, some last⟩
          else ⟨file ++ ':' :: middle, last, none⟩ := by
  rw [parts, splitLastColon?_append _ hlast]
  dsimp only
  rw [splitLastColon?_append file hmiddle]
  dsimp only
  cases hnumeral : isNumeral last with
  | false => cases isNegativeNumeral last <;> cases isNegativeNumeral middle <;> simp
  | true =>
    rw [isNegativeNumeral_of_isNumeral hnumeral]
    cases isNegativeNumeral middle <;> cases isNumeral middle <;> simp [eq_comm]

/-! ## Reading the parts -/

/-- Reads the column; a text without one means the first. -/
def readColumn : Option (List Char) → Except LocationError Nat
  | some digits => readCoordinate .column digits
  | none => pure 1

theorem parseChars_eq (h : cs ≠ []) : parseChars cs = (do
    let p ← parts cs
    let line ← readCoordinate .line p.line
    let column ← readColumn p.column
    if p.file.isEmpty then throw (.noFile (String.ofList cs))
    return ⟨⟨String.ofList p.file⟩, line, column⟩) := by
  rw [parseChars, if_neg (by simpa using h)]
  refine bind_congr fun p ↦ bind_congr fun line ↦ ?_
  cases p.column <;> rfl

private theorem bind_eq_ok_iff {α β ε : Type} {x : Except ε α} {f : α → Except ε β} {b : β} :
    x >>= f = .ok b ↔ ∃ a, x = .ok a ∧ f a = .ok b := by
  cases x <;> simp [bind, Except.bind]

theorem parseChars_eq_ok_iff_parts : parseChars cs = .ok loc ↔
    ∃ p, parts cs = .ok p ∧ readCoordinate .line p.line = .ok loc.line ∧
      readColumn p.column = .ok loc.column ∧ p.file ≠ [] ∧
      loc.file = ⟨String.ofList p.file⟩ := by
  rcases eq_or_ne cs [] with rfl | hne
  · have hempty : ':' ∉ ([] : List Char) := List.not_mem_nil
    obtain ⟨e, he⟩ := parts_of_not_mem hempty
    rw [he]
    simp [parseChars, throw, throwThe, MonadExceptOf.throw, bind, Except.bind]
  · rw [parseChars_eq hne]
    constructor
    · intro h
      obtain ⟨p, hp, h⟩ := bind_eq_ok_iff.1 h
      obtain ⟨line, hline, h⟩ := bind_eq_ok_iff.1 h
      obtain ⟨column, hcolumn, h⟩ := bind_eq_ok_iff.1 h
      by_cases hfile : p.file.isEmpty = true
      · rw [if_pos hfile] at h
        cases h
      · rw [if_neg hfile] at h
        cases h
        exact ⟨p, hp, hline, hcolumn, by simpa using hfile, rfl⟩
    · rintro ⟨p, hp, hline, hcolumn, hfile, hloc⟩
      refine bind_eq_ok_iff.2 ⟨p, hp, bind_eq_ok_iff.2 ⟨_, hline, ?_⟩⟩
      refine bind_eq_ok_iff.2 ⟨_, hcolumn, ?_⟩
      rw [if_neg (by simpa using hfile), ← hloc]
      rfl

/-! ## The grammar decides -/

theorem Written.parseChars_eq (h : Written loc cs) : parseChars cs = .ok loc := by
  rw [parseChars_eq_ok_iff_parts]
  cases h with
  | @full file line column l c hfile hline hl hcolumn hc =>
    refine ⟨⟨file, line, some column⟩, ?_, hline.readCoordinate_eq_ok_iff.2 ⟨rfl, hl⟩,
      hcolumn.readCoordinate_eq_ok_iff.2 ⟨rfl, hc⟩, hfile, rfl⟩
    refine (parts_of_two (colon_not_mem hline) (colon_not_mem hcolumn)).2
      ⟨hcolumn.isNumeral, hline.isNegativeNumeral_eq, ?_⟩
    rw [if_pos hline.isNumeral]
  | @short file line l hfile hplain hline hl =>
    refine ⟨⟨file, line, none⟩, ?_, hline.readCoordinate_eq_ok_iff.2 ⟨rfl, hl⟩, rfl, hfile, rfl⟩
    rcases Text.separator_cases ':' file with hno | ⟨before, middle, rfl, hmiddle⟩
    · rw [endsPlainly_of_not_mem hno, ← isNegativeNumeral_eq_false_iff] at hplain
      exact (parts_of_one hno (colon_not_mem hline)).2 ⟨hline.isNumeral, hplain, rfl⟩
    · rw [endsPlainly_append hmiddle, ← isNegativeNumeral_eq_false_iff,
        ← isNumeral_eq_false_iff] at hplain
      obtain ⟨hnegative, hnumeral⟩ := hplain
      refine (parts_of_two hmiddle (colon_not_mem hline)).2 ⟨hline.isNumeral, hnegative, ?_⟩
      rw [if_neg (by rw [hnumeral]; decide)]

theorem written_of_parts (hp : parts cs = .ok p) (hfile : p.file ≠ [])
    (hline : readCoordinate .line p.line = .ok l) (hcolumn : readColumn p.column = .ok c) :
    Written ⟨⟨String.ofList p.file⟩, l, c⟩ cs := by
  rcases Text.separator_cases ':' cs with hno | ⟨before, last, rfl, hlast⟩
  · obtain ⟨e, he⟩ := parts_of_not_mem hno
    rw [he] at hp
    cases hp
  · rcases Text.separator_cases ':' before with hbefore | ⟨file, middle, rfl, hmiddle⟩
    · -- the only colon
      obtain ⟨hnumeral, hnegative, rfl⟩ := (parts_of_one hbefore hlast).1 hp
      obtain ⟨n, hn⟩ := isNumeral_iff.1 hnumeral
      obtain ⟨rfl, hl⟩ := hn.readCoordinate_eq_ok_iff.1 hline
      cases hcolumn
      refine .short hfile ?_ hn hl
      rw [endsPlainly_of_not_mem hbefore, ← isNegativeNumeral_eq_false_iff]
      exact hnegative
    · obtain ⟨hnumeral, hnegative, hparts⟩ := (parts_of_two hmiddle hlast).1 hp
      obtain ⟨n, hn⟩ := isNumeral_iff.1 hnumeral
      cases hmid : isNumeral middle with
      | true =>
        rw [if_pos hmid] at hparts
        subst hparts
        obtain ⟨m, hm⟩ := isNumeral_iff.1 hmid
        obtain ⟨rfl, hl⟩ := hm.readCoordinate_eq_ok_iff.1 hline
        obtain ⟨rfl, hc⟩ := hn.readCoordinate_eq_ok_iff.1 hcolumn
        exact .full hfile hm hl hn hc
      | false =>
        rw [if_neg (by rw [hmid]; decide)] at hparts
        subst hparts
        obtain ⟨rfl, hl⟩ := hn.readCoordinate_eq_ok_iff.1 hline
        cases hcolumn
        refine .short hfile ?_ hn hl
        rw [endsPlainly_append hmiddle, ← isNegativeNumeral_eq_false_iff, ← isNumeral_eq_false_iff]
        exact ⟨hnegative, hmid⟩

/-- **Reading follows the grammar.** -/
theorem parseChars_eq_ok_iff : parseChars cs = .ok loc ↔ Written loc cs := by
  refine ⟨fun h ↦ ?_, Written.parseChars_eq⟩
  obtain ⟨p, hp, hline, hcolumn, hfile, hloc⟩ := parseChars_eq_ok_iff_parts.1 h
  have hwritten := written_of_parts hp hfile hline hcolumn
  rw [← hloc] at hwritten
  exact hwritten

/-! ## The segments of a location -/

theorem Written.last_segment (h : Written loc cs) {front : List (List Char)}
    (hcs : Text.segmentsChars ':' cs = front ++ [last]) : ∃ n, Spells last n ∧ IsCoordinate n := by
  cases h with
  | full hfile hline hl hcolumn hc =>
    rw [Text.segmentsChars_concat _ (colon_not_mem hcolumn)] at hcs
    rw [← List.singleton_inj.1 (List.append_inj' hcs rfl).2]
    exact ⟨_, hcolumn, hc⟩
  | short hfile hplain hline hl =>
    rw [Text.segmentsChars_concat _ (colon_not_mem hline)] at hcs
    rw [← List.singleton_inj.1 (List.append_inj' hcs rfl).2]
    exact ⟨_, hline, hl⟩

theorem Written.middle_segment (h : Written loc cs) {front : List (List Char)}
    (hcs : Text.segmentsChars ':' cs = front ++ [middle] ++ [last]) :
    ¬ SpellsNegative middle ∧ (front ≠ [] → ∀ n, Spells middle n → IsCoordinate n) := by
  cases h with
  | full hfile hline hl hcolumn hc =>
    rw [Text.segmentsChars_concat _ (colon_not_mem hcolumn)] at hcs
    have hfront := (List.append_inj' hcs rfl).1
    rw [Text.segmentsChars_concat _ (colon_not_mem hline)] at hfront
    rw [← List.singleton_inj.1 (List.append_inj' hfront rfl).2]
    exact ⟨hline.not_spellsNegative, fun _ n hn ↦ hline.unique hn ▸ hl⟩
  | short hfile hplain hline hl =>
    rw [Text.segmentsChars_concat _ (colon_not_mem hline)] at hcs
    obtain ⟨hnegative, hnumeral⟩ := hplain front middle (List.append_inj' hcs rfl).1
    exact ⟨hnegative, fun hfront n hn ↦ absurd hn (hnumeral hfront n)⟩

/-! ## Blanks around a location -/

/-- A file that a location can begin with. -/
def IsFileName (file : List Char) : Prop := ∃ c rest, file = c :: rest ∧ Text.isBlank c = false

theorem IsFileName.ne_nil (h : IsFileName file) : file ≠ [] := by
  obtain ⟨c, rest, rfl, -⟩ := h
  exact List.cons_ne_nil c rest

theorem IsFileName.append (h : IsFileName file) (rest : List Char) : IsFileName (file ++ rest) := by
  obtain ⟨c, cs, rfl, hc⟩ := h
  exact ⟨c, cs ++ rest, rfl, hc⟩

theorem IsFileName.dropWhile_eq (h : IsFileName file) : file.dropWhile Text.isBlank = file := by
  obtain ⟨c, rest, rfl, hc⟩ := h
  rw [List.dropWhile_cons, hc]
  rfl

theorem isFileName_of_append (hfile : file ≠ []) {rest : List Char}
    (h : (file ++ rest).dropWhile Text.isBlank = file ++ rest) : IsFileName file := by
  cases file with
  | nil => exact absurd rfl hfile
  | cons c cs =>
    refine ⟨c, cs, rfl, ?_⟩
    rw [List.cons_append, List.dropWhile_eq_self_iff] at h
    simpa using h (by simp)

/-- A text that ends in a number ends in no blank. -/
theorem dropWhile_reverse_of_spells (before : List Char) (h : Spells digits n) :
    (before ++ ':' :: digits).reverse.dropWhile Text.isBlank =
      (before ++ ':' :: digits).reverse := by
  rw [List.append_cons, List.reverse_append, h.solid.reverse.dropWhile_append]

theorem Written.trimChars_eq (h : Written loc cs) (hfile : IsFileName cs) {gap gap' : List Char}
    (hgap : Text.Blank gap) (hgap' : Text.Blank gap') :
    Text.trimChars (gap ++ cs ++ gap') = cs := by
  refine Text.trimChars_append_append hfile.ne_nil hfile.dropWhile_eq ?_ hgap hgap'
  cases h with
  | full _ _ _ hcolumn _ => exact dropWhile_reverse_of_spells _ hcolumn
  | short _ _ hline _ => exact dropWhile_reverse_of_spells _ hline

/-! ## Locations as texts -/

theorem parse_eq_ok_iff {s : String} :
    parse s = .ok loc ↔ Written loc (Text.trimChars s.toList) := parseChars_eq_ok_iff

/-- The text of a location has its coordinates in decimal. -/
theorem text_toList (loc : Location) : loc.text.toList =
    loc.file.text.toList ++ ':' :: (toString loc.line).toList ++
      ':' :: (toString loc.column).toList := by
  simp [text, toString]

/-- A file and numbers that a position can have. -/
structure WellFormed (loc : Location) : Prop where
  file : IsFileName loc.file.text.toList
  line : IsCoordinate loc.line
  column : IsCoordinate loc.column

theorem Written.wellFormed (h : Written loc cs) (hcs : cs.dropWhile Text.isBlank = cs) :
    loc.WellFormed := by
  cases h with
  | full hfile hline hl hcolumn hc =>
    rw [List.append_assoc] at hcs
    refine ⟨?_, hl, hc⟩
    rw [String.toList_ofList]
    exact isFileName_of_append hfile hcs
  | short hfile hplain hline hl =>
    refine ⟨?_, hl, isCoordinate_one⟩
    rw [String.toList_ofList]
    exact isFileName_of_append hfile hcs

theorem WellFormed.parse_text (h : loc.WellFormed) : parse loc.text = .ok loc := by
  have hwritten : Written loc loc.text.toList := by
    have hfull := Written.full h.file.ne_nil (spells_toString loc.line) h.line
      (spells_toString loc.column) h.column
    rw [String.ofList_toList, ← text_toList] at hfull
    exact hfull
  have hfile : IsFileName loc.text.toList := by
    rw [text_toList, List.append_assoc]
    exact h.file.append _
  have htrim := hwritten.trimChars_eq hfile Text.blank_nil Text.blank_nil
  rw [List.nil_append, List.append_nil] at htrim
  rw [parse_eq_ok_iff, htrim]
  exact hwritten

theorem wellFormed_of_parse {s : String} (h : parse s = .ok loc) : loc.WellFormed := by
  refine (parse_eq_ok_iff.1 h).wellFormed ?_
  have hstart := Text.trimStartChars_trimEndChars (List.dropWhile_idempotent Text.isBlank s.toList)
  exact hstart

theorem Written.parse_eq (h : Written loc cs) (hfile : IsFileName cs) {s gap gap' : String}
    (hgap : Text.Blank gap.toList) (hgap' : Text.Blank gap'.toList)
    (hs : s.toList = gap.toList ++ cs ++ gap'.toList) : parse s = .ok loc := by
  rw [parse_eq_ok_iff, hs, h.trimChars_eq hfile hgap hgap']
  exact h

theorem segmentsChars_trim {s : String} {front : List String} {last : String}
    (h : Text.segments ':' (Text.trim s) = front ++ [last]) :
    Text.segmentsChars ':' (Text.trimChars s.toList) =
      front.map String.toList ++ [last.toList] := by
  have htrim : Text.trimChars s.toList = (Text.trim s).toList := by
    rw [Text.trim, String.toList_ofList]
  rw [htrim, Text.segmentsChars_toList, h, List.map_append, List.map_singleton]

theorem exists_error_of_not_written {s : String}
    (h : ∀ loc, ¬ Written loc (Text.trimChars s.toList)) : ∃ e, parse s = .error e := by
  cases hs : parse s with
  | error e => exact ⟨e, rfl⟩
  | ok loc => exact absurd (parse_eq_ok_iff.1 hs) (h loc)

/-- **Locations read back.** What was read has a file and coordinates and is read again from its
text; a file with coordinates is read as that file and those coordinates, zeros in front of them and
blanks around the text aside; and a number that no position can have, in a place where a coordinate
is read, is an error whatever else the text holds. -/
theorem parse_reads_back :
    (∀ s loc, parse s = .ok loc →
      loc.file.text ≠ "" ∧ 1 ≤ loc.line ∧ 1 ≤ loc.column ∧ parse loc.text = .ok loc) ∧
    (∀ gap file line column gap' : String, ∀ l c, Text.Blank gap.toList → Text.Blank gap'.toList →
      IsFileName file.toList → Spells line.toList l → IsCoordinate l →
      Spells column.toList c → IsCoordinate c →
      parse (gap ++ file ++ ":" ++ line ++ ":" ++ column ++ gap') = .ok ⟨⟨file⟩, l, c⟩) ∧
    (∀ gap file line gap' : String, ∀ l, Text.Blank gap.toList → Text.Blank gap'.toList →
      IsFileName file.toList → ':' ∉ file.toList → ¬ SpellsNegative file.toList →
      Spells line.toList l → IsCoordinate l →
      parse (gap ++ file ++ ":" ++ line ++ gap') = .ok ⟨⟨file⟩, l, 1⟩) ∧
    (∀ s front last, Text.segments ':' (Text.trim s) = front ++ [last] →
      (SpellsNegative last.toList ∨ ∃ n, Spells last.toList n ∧ ¬ IsCoordinate n) →
      ∃ e, parse s = .error e) ∧
    ∀ s front middle last, Text.segments ':' (Text.trim s) = front ++ [middle, last] →
      (SpellsNegative middle.toList ∨
        front ≠ [] ∧ ∃ n, Spells middle.toList n ∧ ¬ IsCoordinate n) →
      ∃ e, parse s = .error e := by
  refine ⟨fun s loc h ↦ ?_, ?_, ?_, ?_, ?_⟩
  · have hloc := wellFormed_of_parse h
    refine ⟨fun hempty ↦ hloc.file.ne_nil ?_, hloc.line.1, hloc.column.1, hloc.parse_text⟩
    rw [hempty]
    rfl
  · intro gap file line column gap' l c hgap hgap' hfile hline hl hcolumn hc
    have hwritten := Written.full hfile.ne_nil hline hl hcolumn hc
    rw [String.ofList_toList] at hwritten
    refine hwritten.parse_eq ?_ hgap hgap' (by simp)
    rw [List.append_assoc]
    exact hfile.append _
  · intro gap file line gap' l hgap hgap' hfile hcolon hnegative hline hl
    have hplain := (endsPlainly_of_not_mem hcolon).2 hnegative
    have hwritten := Written.short hfile.ne_nil hplain hline hl
    rw [String.ofList_toList] at hwritten
    exact hwritten.parse_eq (hfile.append _) hgap hgap' (by simp)
  · intro s front last hs hlast
    refine exists_error_of_not_written fun loc hwritten ↦ ?_
    obtain ⟨n, hn, hcoordinate⟩ := hwritten.last_segment (segmentsChars_trim hs)
    rcases hlast with hnegative | ⟨m, hm, hno⟩
    · exact hn.not_spellsNegative hnegative
    · exact hno (hn.unique hm ▸ hcoordinate)
  · intro s front middle last hs hmiddle
    refine exists_error_of_not_written fun loc hwritten ↦ ?_
    have happend : front ++ [middle, last] = front ++ [middle] ++ [last] := by simp
    have hsegments := segmentsChars_trim (hs.trans happend)
    rw [List.map_append, List.map_singleton] at hsegments
    obtain ⟨hplain, hcoordinate⟩ := hwritten.middle_segment hsegments
    rcases hmiddle with hnegative | ⟨hfront, n, hn, hno⟩
    · exact hplain hnegative
    · exact hno (hcoordinate (by simpa using hfront) n hn)

/-- A drive letter, zeros in front and blanks around; a file with a number for a name; and numbers
that no position has. -/
theorem parse_reads_back_drive :
    (parse " C:\\Foo.cs:007:5\n" = .ok ⟨⟨"C:\\Foo.cs"⟩, 7, 5⟩ ∧
      parse (Location.text ⟨⟨"C:\\Foo.cs"⟩, 7, 5⟩) = .ok ⟨⟨"C:\\Foo.cs"⟩, 7, 5⟩) ∧
    parse "12:3 " = .ok ⟨⟨"12"⟩, 3, 1⟩ ∧
    (∃ e, parse "a:1:4294967296" = .error e) ∧ ∃ e, parse "a:-5:3" = .error e := by
  obtain ⟨hread, hfull, hshort, hlast, hmiddle⟩ := parse_reads_back
  have hdrive : parse " C:\\Foo.cs:007:5\n" = .ok ⟨⟨"C:\\Foo.cs"⟩, 7, 5⟩ :=
    hfull " " "C:\\Foo.cs" "007" "5" "\n" 7 5 (by simp [Text.Blank, Text.isBlank])
      (by simp [Text.Blank, Text.isBlank]) ⟨'C', _, rfl, rfl⟩ ⟨2, rfl⟩ (by simp [IsCoordinate])
      ⟨0, rfl⟩ (by simp [IsCoordinate])
  refine ⟨⟨hdrive, (hread _ _ hdrive).2.2.2⟩, ?_, ?_, ?_⟩
  · refine hshort "" "12" "3" " " 3 (by simp [Text.Blank]) (by simp [Text.Blank, Text.isBlank])
      ⟨'1', _, rfl, rfl⟩ (by decide) ?_ ⟨0, rfl⟩ (by simp [IsCoordinate])
    exact isNegativeNumeral_eq_false_iff.1 (by decide)
  · refine hlast "a:1:4294967296" ["a", "1"] "4294967296" (by decide) (Or.inr ⟨4294967296, ?_, ?_⟩)
    · exact ⟨0, rfl⟩
    · simp [IsCoordinate]
  · exact hmiddle "a:-5:3" ["a"] "-5" "3" (by decide) (Or.inl ⟨['5'], 5, rfl, 0, rfl⟩)

end CodeFix.Location
