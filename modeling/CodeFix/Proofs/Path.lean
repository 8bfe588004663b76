import CodeFix.Disk.Basic
import CodeFix.Proofs.Text.Basic
import Mathlib.Data.List.Basic

/-!
# Paths that go straight down

A path that is spelled from names, without detours, is taken apart into the same names again. From
this follows how a path below a directory and the directory are put together and taken apart:
`below?` and `join` undo each other, with one exception. The path from a file to itself is empty,
and joining the empty path puts a slash behind the file (`join_ofNames_nil`).
-/

namespace CodeFix

/-- A text that names an entry of a directory. -/
structure IsName (s : String) : Prop where
  ne_empty : s ≠ ""
  ne_current : s ≠ "."
  ne_parent : s ≠ ".."
  no_slash : '/' ∉ s.toList

instance {s : String} : Decidable (IsName s) :=
  decidable_of_iff (s ≠ "" ∧ s ≠ "." ∧ s ≠ ".." ∧ '/' ∉ s.toList)
    ⟨fun ⟨h₁, h₂, h₃, h₄⟩ ↦ ⟨h₁, h₂, h₃, h₄⟩, fun ⟨h₁, h₂, h₃, h₄⟩ ↦ ⟨h₁, h₂, h₃, h₄⟩⟩

namespace PathName

/-- The path from a directory down along names. -/
def ofNames (names : List String) : PathName := ⟨String.intercalate "/" names⟩

variable {s : String} {names rel ss : List String}

theorem isIdle_of_isName (h : IsName s) : isIdle s = false := by
  rw [isIdle, beq_eq_false_iff_ne.2 h.ne_empty, beq_eq_false_iff_ne.2 h.ne_current]
  rfl

theorem ofSegment?_of_isName (h : IsName s) : ofSegment? s = some (.normal s) := by
  have hparent : ¬(s == "..") = true := by simpa using h.ne_parent
  rw [ofSegment?, isIdle_of_isName h, if_neg Bool.false_ne_true, if_neg hparent]

/-! ## Texts of paths -/

theorem head?_ofNames (hs : s ≠ "") (rest : List String) :
    (ofNames (s :: rest)).text.toList.head? = s.toList.head? := by
  obtain ⟨t, ht⟩ : ∃ t, String.intercalate "/" (s :: rest) = s ++ t := by
    cases rest with
    | nil => exact ⟨"", by simp⟩
    | cons m rest => exact ⟨_, by rw [String.intercalate_cons_cons, String.append_assoc]⟩
  rw [ofNames, ht, String.toList_append,
    List.head?_append_of_ne_nil _ (mt String.toList_eq_nil_iff.1 hs)]

theorem isAbsolute_ofNames (h : ∀ n ∈ names, IsName n) : (ofNames names).isAbsolute = false := by
  cases names with
  | nil => rfl
  | cons n rest =>
    obtain ⟨hne, -, -, hslash⟩ := h n List.mem_cons_self
    rw [isAbsolute, head?_ofNames hne]
    exact beq_eq_false_iff_ne.2 fun hc ↦ hslash (List.mem_of_head? hc)

theorem getLast?_pathOf (h : ∀ n ∈ names, IsName n) (hne : names ≠ []) :
    ((Disk.pathOf names).text.toList.getLast? == some '/') = false := by
  obtain ⟨front, n, rfl⟩ := (List.eq_nil_or_concat' names).resolve_left hne
  obtain ⟨hempty, -, -, hslash⟩ := h n (List.mem_append_right front List.mem_cons_self)
  obtain ⟨t, ht⟩ : ∃ t, String.intercalate "/" (front ++ [n]) = t ++ n := by
    by_cases hfront : front = []
    · exact ⟨"", by simp [hfront]⟩
    · exact ⟨_, by rw [String.intercalate_append_of_ne_nil hfront (List.cons_ne_nil n []),
        String.intercalate_singleton]⟩
  rcases List.eq_nil_or_concat' n.toList with hn | ⟨cs, c, hn⟩
  · exact absurd (String.toList_eq_nil_iff.1 hn) hempty
  · rw [hn, List.mem_append, List.mem_singleton, not_or] at hslash
    rw [Disk.pathOf, ht, String.toList_append, String.toList_append, hn, ← List.append_assoc,
      ← List.append_assoc, List.getLast?_concat]
    exact beq_eq_false_iff_ne.2 fun hc ↦ hslash.2 (Option.some_inj.1 hc).symm

theorem isAbsolute_pathOf (ss : List String) : (Disk.pathOf ss).isAbsolute = true := by
  rw [isAbsolute, Disk.pathOf, String.toList_append]
  rfl

theorem segments_pathOf (hne : ss ≠ []) (h : ∀ s ∈ ss, '/' ∉ s.toList) :
    (Disk.pathOf ss).segments = ss := by
  have hjoined : Text.segments '/' (String.intercalate "/" ss) = ss :=
    Text.segments_intercalate hne h
  have hcut : Text.segments '/' (Disk.pathOf ss).text = "" :: ss := by
    refine (Text.segments_append (s := "") (by simp) (String.intercalate "/" ss)).trans ?_
    rw [hjoined]
  rw [segments, if_pos (isAbsolute_pathOf ss), hcut, List.tail_cons]

/-! ## Putting together -/

theorem join_of_ne_nil (hnames : ∀ n ∈ names, IsName n) (hne : names ≠ []) {q : PathName}
    (hq : q.isAbsolute = false) :
    (Disk.pathOf names).join q = ⟨(Disk.pathOf names).text ++ "/" ++ q.text⟩ := by
  have hempty : (Disk.pathOf names).text.isEmpty = false := by
    rw [Bool.eq_false_iff, Ne, String.isEmpty_iff, Disk.pathOf]
    simp
  have hends : ¬((Disk.pathOf names).text.isEmpty ||
      (Disk.pathOf names).text.toList.getLast? == some '/') = true := by
    rw [hempty, getLast?_pathOf hnames hne]
    exact Bool.false_ne_true
  rw [join, hq, if_neg Bool.false_ne_true, if_neg hends]

/-- **Joining** a directory and a path below it. -/
theorem join_ofNames (hnames : ∀ n ∈ names, IsName n) (hrel : ∀ n ∈ rel, IsName n)
    (hne : rel ≠ []) : (Disk.pathOf names).join (ofNames rel) = Disk.pathOf (names ++ rel) := by
  have hq := isAbsolute_ofNames hrel
  by_cases hroot : names = []
  · rw [hroot, join, hq, if_neg Bool.false_ne_true]
    exact if_pos rfl
  · rw [join_of_ne_nil hnames hroot hq, Disk.pathOf, Disk.pathOf, ofNames,
      String.intercalate_append_of_ne_nil hroot hne]
    simp only [String.append_assoc]

/-- The path that is left of a file below itself is empty; joined again, it leaves a slash. -/
theorem join_ofNames_nil (hnames : ∀ n ∈ names, IsName n) (hne : names ≠ []) :
    (Disk.pathOf names).join (ofNames []) = Disk.pathOf (names ++ [""]) := by
  rw [join_of_ne_nil hnames hne rfl, Disk.pathOf, Disk.pathOf, ofNames,
    String.intercalate_append_of_ne_nil hne (List.cons_ne_nil "" [])]
  simp only [String.append_assoc]
  rfl

/-! ## Taking apart -/

theorem components_pathOf (h : ∀ n ∈ names, IsName n) :
    (Disk.pathOf names).components = .root :: names.map .normal := by
  have hsteps : (Disk.pathOf names).segments.filterMap ofSegment? = names.map .normal := by
    by_cases hne : names = []
    · rw [hne]
      rfl
    · rw [segments_pathOf hne fun n hn ↦ (h n hn).no_slash, ← List.filterMap_eq_map]
      exact List.filterMap_congr fun n hn ↦ ofSegment?_of_isName (h n hn)
  rw [components, if_pos (isAbsolute_pathOf names), hsteps]
  rfl

theorem components_ofNames (h : ∀ n ∈ names, IsName n) :
    (ofNames names).components = names.map .normal := by
  by_cases hne : names = []
  · rw [hne]
    rfl
  · have hsegments : (ofNames names).segments = names := by
      rw [segments, isAbsolute_ofNames h, if_neg Bool.false_ne_true]
      exact Text.segments_intercalate hne fun n hn ↦ (h n hn).no_slash
    have hfirst : ((ofNames names).segments.head? == some ".") = false := by
      rw [hsegments]
      refine beq_eq_false_iff_ne.2 fun hcurrent ↦ ?_
      exact (h "." (List.mem_of_head? hcurrent)).ne_current rfl
    rw [components, isAbsolute_ofNames h, hfirst, if_neg Bool.false_ne_true,
      if_neg Bool.false_ne_true, hsegments, List.nil_append, ← List.filterMap_eq_map]
    exact List.filterMap_congr fun n hn ↦ ofSegment?_of_isName (h n hn)

theorem names_ofNames (h : ∀ n ∈ names, IsName n) : (ofNames names).names = names := by
  rw [PathName.names, components_ofNames h, List.filterMap_map]
  exact List.filterMap_some

theorem names_pathOf (h : ∀ n ∈ names, IsName n) : (Disk.pathOf names).names = names := by
  rw [PathName.names, components_pathOf h, List.filterMap_cons_none rfl, List.filterMap_map]
  exact List.filterMap_some

theorem eq_of_ofNames_eq (hnames : ∀ n ∈ names, IsName n) (hrel : ∀ n ∈ rel, IsName n)
    (h : ofNames names = ofNames rel) : names = rel := by
  rw [← names_ofNames hnames, h, names_ofNames hrel]

theorem dropSteps_append (h : ∀ n ∈ names, IsName n) (ss : List String) :
    dropSteps names.length (names ++ ss) = ss := by
  induction names with
  | nil => cases ss <;> rfl
  | cons n names ih =>
    rw [List.length_cons, List.cons_append, dropSteps, isIdle_of_isName (h n List.mem_cons_self),
      if_neg Bool.false_ne_true, ih fun m hm ↦ h m (List.mem_cons_of_mem n hm)]

theorem dropWhile_isIdle (h : ∀ n ∈ names, IsName n) : names.dropWhile isIdle = names := by
  cases names with
  | nil => rfl
  | cons n names =>
    rw [List.dropWhile_cons, isIdle_of_isName (h n List.mem_cons_self), if_neg Bool.false_ne_true]

theorem trimSegments_eq (h : ∀ n ∈ names, IsName n) : trimSegments names = names := by
  rw [trimSegments, dropWhile_isIdle fun n hn ↦ h n (List.mem_reverse.1 hn), List.reverse_reverse]

/-- **Seen from a directory** a path below it is spelled from the names that lead there. -/
theorem below?_pathOf (hnames : ∀ n ∈ names, IsName n) (hrel : ∀ n ∈ rel, IsName n) :
    (Disk.pathOf (names ++ rel)).below? (Disk.pathOf names) = some (ofNames rel) := by
  have hall : ∀ n ∈ names ++ rel, IsName n := List.forall_mem_append.2 ⟨hnames, hrel⟩
  have hprefix : (Disk.pathOf names).components.isPrefixOf
      (Disk.pathOf (names ++ rel)).components = true := by
    rw [components_pathOf hnames, components_pathOf hall, List.map_append, ← List.cons_append]
    exact List.isPrefixOf_iff_prefix.2 (List.prefix_append _ _)
  have hempty : (Disk.pathOf names).components.isEmpty = false := by
    rw [components_pathOf hnames]
    rfl
  have hsteps : ((Disk.pathOf names).components.filter
      fun c ↦ c != .root && c != .current).length = names.length := by
    rw [components_pathOf hnames, List.filter_cons_of_neg (by decide), List.filter_eq_self.2,
      List.length_map]
    rintro c hc
    obtain ⟨n, -, rfl⟩ := List.mem_map.1 hc
    rfl
  have hrest : trimSegments
      ((dropSteps names.length (Disk.pathOf (names ++ rel)).segments).dropWhile isIdle) = rel := by
    by_cases hne : names ++ rel = []
    · -- the path of the root directory has an empty segment, which is no step
      obtain ⟨rfl, rfl⟩ := List.append_eq_nil_iff.1 hne
      rfl
    · rw [segments_pathOf hne fun n hn ↦ (hall n hn).no_slash, dropSteps_append hnames,
        dropWhile_isIdle hrel, trimSegments_eq hrel]
  rw [below?, hprefix, Bool.not_true, if_neg Bool.false_ne_true, hempty, if_neg Bool.false_ne_true]
  simp only [hsteps, hrest]
  rfl

end PathName

end CodeFix
