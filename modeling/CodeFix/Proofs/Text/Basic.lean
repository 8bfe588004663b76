import CodeFix.Proofs.ListSearch
import CodeFix.Text.Basic
import Mathlib.Data.List.DropRight

/-!
# Trimming and cutting texts

Trimming is idempotent. Blanks are taken off the front first, and taking them off the end leaves the
first character where it is, so neither end has a blank left.

Texts without the separator that are joined by it are cut into the same texts again. The last
segment of a text depends on its end alone: a text that is appended makes the last segment longer
if it has no separator, and decides it otherwise.
-/

namespace CodeFix.Text

theorem trimStartChars_trimEndChars {cs : List Char} (h : trimStartChars cs = cs) :
    trimStartChars (trimEndChars cs) = trimEndChars cs := by
  cases cs with
  | nil => rfl
  | cons c cs =>
    have hc : isBlank c = false := by
      by_contra hblank
      rw [trimStartChars, List.dropWhile_cons, if_pos (by simpa using hblank)] at h
      have hlength := (List.dropWhile_sublist (l := cs) isBlank).length_le
      rw [h, List.length_cons] at hlength
      omega
    have hlast : ([c].dropWhile isBlank) = [c] := by
      rw [List.dropWhile_cons, hc]
      rfl
    obtain ⟨rest, hrest⟩ : ∃ rest, trimEndChars (c :: cs) = c :: rest := by
      rw [trimEndChars, trimEndWhile, List.reverse_cons, List.dropWhile_append, hlast]
      split
      · exact ⟨[], rfl⟩
      · exact ⟨_, by rw [List.reverse_append]; rfl⟩
    rw [hrest, trimStartChars, List.dropWhile_cons, hc]
    rfl

theorem trimChars_trimChars (cs : List Char) : trimChars (trimChars cs) = trimChars cs := by
  have hstart : trimStartChars (trimStartChars cs) = trimStartChars cs :=
    List.dropWhile_idempotent _ _
  have hend :
      trimEndChars (trimEndChars (trimStartChars cs)) = trimEndChars (trimStartChars cs) := by
    simp only [trimEndChars, trimEndWhile, List.reverse_reverse, List.dropWhile_idempotent]
  rw [trimChars, trimChars, trimStartChars_trimEndChars hstart, hend]

theorem trimChars_trim (s : String) : trimChars (trim s).toList = trimChars s.toList := by
  rw [trim, String.toList_ofList, trimChars_trimChars]

/-! ## Segments -/

variable {sep : Char} {cs : List Char} {ss : List String}

theorem segmentsChars_of_not_mem (h : sep ∉ cs) : segmentsChars sep cs = [cs] := by
  induction cs with
  | nil => rfl
  | cons c cs ih =>
    rw [List.mem_cons, not_or] at h
    obtain ⟨hc, hcs⟩ := h
    rw [segmentsChars, if_neg (Ne.symm hc), ih hcs]

theorem segmentsChars_append_cons (before rest : List Char) :
    segmentsChars sep (before ++ sep :: rest) =
      segmentsChars sep before ++ segmentsChars sep rest := by
  induction before with
  | nil =>
    rw [List.nil_append, segmentsChars.eq_2, if_pos rfl, segmentsChars.eq_1, List.singleton_append]
  | cons c before ih =>
    rw [List.cons_append, segmentsChars, ih, segmentsChars]
    by_cases hc : c = sep
    · rw [if_pos hc, if_pos hc, List.cons_append]
    · rw [if_neg hc, if_neg hc]
      cases hs : segmentsChars sep before with
      | nil => exact absurd hs (segmentsChars_ne_nil sep before)
      | cons s ss => rfl

theorem segmentsChars_concat (before : List Char) {last : List Char} (h : sep ∉ last) :
    segmentsChars sep (before ++ sep :: last) = segmentsChars sep before ++ [last] := by
  rw [segmentsChars_append_cons, segmentsChars_of_not_mem h]

theorem segmentsChars_toList (sep : Char) (s : String) :
    segmentsChars sep s.toList = (segments sep s).map String.toList := by
  rw [segments, List.map_map]
  simp

theorem segments_append {s : String} (h : sep ∉ s.toList) (rest : String) :
    segments sep (s ++ String.singleton sep ++ rest) = s :: segments sep rest := by
  have htext : (s ++ String.singleton sep ++ rest).toList = s.toList ++ sep :: rest.toList := by
    simp
  rw [segments, htext, segmentsChars_append_cons, segmentsChars_of_not_mem h, List.singleton_append,
    List.map_cons, String.ofList_toList, segments]

/-- **Cutting undoes joining.** -/
theorem segments_intercalate (hss : ss ≠ []) (h : ∀ s ∈ ss, sep ∉ s.toList) :
    segments sep (String.intercalate (String.singleton sep) ss) = ss := by
  induction ss with
  | nil => exact absurd rfl hss
  | cons s ss ih =>
    have hs := h s List.mem_cons_self
    cases ss with
    | nil =>
      rw [String.intercalate_singleton, segments, segmentsChars_of_not_mem hs, List.map_singleton,
        String.ofList_toList]
    | cons s' ss =>
      rw [String.intercalate_cons_cons, segments_append hs,
        ih (List.cons_ne_nil _ _) fun x hx ↦ h x (List.mem_cons_of_mem s hx)]

/-! ## The last segment -/

/-- A text has no separator, or it is cut at its last one. -/
theorem separator_cases (sep : Char) (cs : List Char) :
    sep ∉ cs ∨ ∃ before last, cs = before ++ sep :: last ∧ sep ∉ last := by
  rcases takeWhile_reverse_cases (· != sep) cs with ⟨hall, -⟩ | ⟨before, x, last, rfl, hx, hlast, -⟩
  · refine Or.inl fun hmem ↦ ?_
    exact absurd (hall sep hmem) (by simp)
  · refine Or.inr ⟨before, last, ?_, fun hmem ↦ absurd (hlast sep hmem) (by simp)⟩
    rw [bne_eq_false_iff_eq.1 hx]

theorem lastSegment_of_not_mem {s : String} (h : sep ∉ s.toList) : lastSegment sep s = s := by
  rw [lastSegment, segments, segmentsChars_of_not_mem h, List.map_singleton, String.ofList_toList]
  rfl

theorem lastSegment_of_concat {s : String} {before last : List Char}
    (hs : s.toList = before ++ sep :: last) (h : sep ∉ last) :
    lastSegment sep s = String.ofList last := by
  rw [lastSegment, segments, hs, segmentsChars_concat before h, List.map_append, List.map_singleton,
    List.getLastD_concat]

theorem lastSegment_append_of_not_mem (a : String) {b : String} (h : sep ∉ b.toList) :
    lastSegment sep (a ++ b) = lastSegment sep a ++ b := by
  rcases separator_cases sep a.toList with ha | ⟨before, last, ha, hlast⟩
  · have hab : sep ∉ (a ++ b).toList := by
      rw [String.toList_append, List.mem_append, not_or]
      exact ⟨ha, h⟩
    rw [lastSegment_of_not_mem hab, lastSegment_of_not_mem ha]
  · have hab : (a ++ b).toList = before ++ sep :: (last ++ b.toList) := by
      rw [String.toList_append, ha, List.append_assoc, List.cons_append]
    have hnot : sep ∉ last ++ b.toList := by
      rw [List.mem_append, not_or]
      exact ⟨hlast, h⟩
    rw [lastSegment_of_concat hab hnot, lastSegment_of_concat ha hlast, String.ofList_append,
      String.ofList_toList]

theorem lastSegment_append_of_mem (a : String) {b : String} (h : sep ∈ b.toList) :
    lastSegment sep (a ++ b) = lastSegment sep b := by
  rcases separator_cases sep b.toList with hb | ⟨before, last, hb, hlast⟩
  · exact absurd h hb
  · have hab : (a ++ b).toList = (a.toList ++ before) ++ sep :: last := by
      rw [String.toList_append, hb, List.append_assoc]
    rw [lastSegment_of_concat hab hlast, lastSegment_of_concat hb hlast]

theorem lastSegment_eq_empty_iff {s : String} :
    lastSegment sep s = "" ↔ s = "" ∨ ∃ a, s = a ++ String.singleton sep := by
  constructor
  · intro h
    rcases separator_cases sep s.toList with hs | ⟨before, last, hs, hlast⟩
    · rw [lastSegment_of_not_mem hs] at h
      exact Or.inl h
    · rw [lastSegment_of_concat hs hlast, String.ofList_eq_empty_iff] at h
      refine Or.inr ⟨String.ofList before, ?_⟩
      rw [← String.toList_inj, hs, h, String.toList_append, String.toList_ofList,
        String.toList_singleton]
  · rintro (rfl | ⟨a, rfl⟩)
    · exact lastSegment_of_not_mem (by simp)
    · have ha : (a ++ String.singleton sep).toList = a.toList ++ sep :: [] := by simp
      rw [lastSegment_of_concat ha List.not_mem_nil]

end CodeFix.Text
