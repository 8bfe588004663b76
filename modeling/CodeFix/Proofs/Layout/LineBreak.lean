import CodeFix.Proofs.Layout.Separation

/-!
# Line breaks throughout a text

A text keeps to one line break if every line feed in it stands behind a carriage return, or none
does (`Newline.Throughout`). Whether a line feed does is seen from the character in front of it, so
a text that is put together keeps to a line break exactly if its pieces do, as long as no piece but
the last one ends with a carriage return (`throughout_append_iff`). Pieces that do not are said to
*fit*, and whatever is put together from fitting pieces fits.

The trivia and the texts of tokens are pieces of this kind, the separators of layout are, and so is
everything without line breaks.
-/

namespace CodeFix

/-- The text ends outside of a line break. -/
def Text.Closed (s : String) : Prop := s.toList.getLast? ≠ some '\r'

instance (s : String) : Decidable (Text.Closed s) := inferInstanceAs (Decidable (_ ≠ _))

/-- Neither the trivia of the token nor its text ends within a line break. -/
def Token.Closed (t : Token) : Prop := Text.Closed t.leading ∧ Text.Closed t.text

instance (t : Token) : Decidable t.Closed := inferInstanceAs (Decidable (_ ∧ _))

namespace Newline

/-- The text has no other line breaks: either no carriage return stands in front of a line feed, or
one stands in front of every line feed. -/
def Throughout : Newline → String → Prop
  | lf, s => ¬crlf.text.toList <:+: s.toList
  | crlf, s => ∀ before after, s.toList = before ++ '\n' :: after → before.getLast? = some '\r'

/-- The text keeps to the line break wherever it is put in. -/
structure Fits (newline : Newline) (s : String) : Prop where
  throughout : newline.Throughout s
  closed : Text.Closed s

/-- The trivia and the text of the token fit. -/
def FitsToken (newline : Newline) (t : Token) : Prop := newline.Fits t.leading ∧ newline.Fits t.text

variable {newline : Newline} {s a b separator : String} {t : Token} {ts : List Token}

/-! ## Texts -/

/-- What stands in front of a line feed decides. -/
theorem throughout_iff : newline.Throughout s ↔ ∀ before after,
    s.toList = before ++ '\n' :: after → (before.getLast? = some '\r' ↔ newline = crlf) := by
  cases newline with
  | crlf => simp only [Throughout, iff_true]
  | lf =>
    constructor
    · refine fun h before after hs ↦ iff_of_false (fun hlast ↦ h ?_) Newline.noConfusion
      obtain ⟨before, rfl⟩ := List.getLast?_eq_some_iff.1 hlast
      exact ⟨before, after, by rw [hs, List.append_assoc, List.append_assoc]; rfl⟩
    · rintro h ⟨before, after, hs⟩
      have hlast := h (before ++ ['\r']) after (by rw [← hs]; simp [text])
      exact absurd (hlast.1 (by simp)) Newline.noConfusion

theorem throughout_crlf_iff : crlf.Throughout s ↔ ∀ i < s.toList.length,
    s.toList[i]? = some '\n' → (s.toList.take i).getLast? = some '\r' := by
  refine ⟨fun h i hi hbreak ↦ h _ (s.toList.drop (i + 1)) ?_, fun h before after hs ↦ ?_⟩
  · obtain ⟨hi, hget⟩ := List.getElem?_eq_some_iff.1 hbreak
    rw [← hget, ← List.drop_eq_getElem_cons hi, List.take_append_drop]
  · have hlast := h before.length
    rw [hs, List.getElem?_append_right (Nat.le_refl _), Nat.sub_self, List.take_left,
      List.length_append] at hlast
    exact hlast (Nat.lt_add_of_pos_right (Nat.succ_pos _)) rfl

instance (newline : Newline) (s : String) : Decidable (newline.Throughout s) :=
  match newline with
  | lf => inferInstanceAs (Decidable (¬_))
  | crlf => decidable_of_iff _ throughout_crlf_iff.symm

theorem detect_eq (h : newline.Throughout s) (hbreak : newline = crlf → '\n' ∈ s.toList) :
    detect s = newline := by
  cases newline with
  | lf =>
    cases hdetect : detect s with
    | lf => rfl
    | crlf => exact absurd ((detect_eq_crlf_iff s).1 hdetect) h
  | crlf =>
    obtain ⟨before, after, hs⟩ := List.append_of_mem (hbreak rfl)
    obtain ⟨before, rfl⟩ := List.getLast?_eq_some_iff.1 (h before after hs)
    exact (detect_eq_crlf_iff s).2 ⟨before, after, by rw [hs]; simp [text]⟩

theorem throughout_append_iff (ha : Text.Closed a) :
    newline.Throughout (a ++ b) ↔ newline.Throughout a ∧ newline.Throughout b := by
  simp only [throughout_iff, String.toList_append]
  refine ⟨fun h ↦ ⟨fun before after hs ↦ ?_, fun before after hs ↦ ?_⟩, ?_⟩
  · exact h before (after ++ b.toList) (by rw [hs, List.append_assoc, List.cons_append])
  · have hlast := h (a.toList ++ before) after (by rw [hs, List.append_assoc])
    rw [← hlast, List.getLast?_append]
    cases before.getLast? with
    | none => exact iff_of_false (by simp) ha
    | some c => rfl
  · rintro ⟨ha', hb⟩ before after hs
    rcases List.append_eq_append_iff.1 hs with ⟨front, rfl, hfront⟩ | ⟨_ | ⟨c, rest⟩, hs, hrest⟩
    · -- the line feed stands in the second text
      rw [← hb front after hfront, List.getLast?_append]
      cases front.getLast? with
      | none => exact iff_of_false ha (by simp)
      | some c => rfl
    · rw [List.append_nil] at hs
      rw [← hb [] after hrest.symm, ← hs]
      exact iff_of_false ha (by simp)
    · obtain ⟨rfl, -⟩ := List.cons.inj hrest
      exact ha' before rest hs

theorem fits_of_not_mem (hfeed : '\n' ∉ s.toList) (hreturn : '\r' ∉ s.toList) :
    newline.Fits s := by
  refine ⟨throughout_iff.2 fun before after hs ↦ absurd ?_ hfeed,
    fun hlast ↦ hreturn (List.mem_of_getLast? hlast)⟩
  rw [hs]
  exact List.mem_append_cons_self

theorem fits_text (newline : Newline) : newline.Fits newline.text := by
  cases newline with
  | lf =>
    have hpair : ¬crlf.text.toList <:+: lf.text.toList := by decide
    exact ⟨hpair, by decide⟩
  | crlf =>
    refine ⟨fun before after hs ↦ ?_, by decide⟩
    have hs : ['\r', '\n'] = before ++ '\n' :: after := hs
    rcases before with _ | ⟨c, _ | ⟨c', rest⟩⟩
    · cases hs
    · obtain ⟨rfl, -⟩ := List.cons.inj hs
      rfl
    · simp at hs

theorem Fits.append (ha : newline.Fits a) (hb : newline.Fits b) : newline.Fits (a ++ b) := by
  refine ⟨(throughout_append_iff ha.closed).2 ⟨ha.throughout, hb.throughout⟩, ?_⟩
  rw [Text.Closed, String.toList_append, List.getLast?_append]
  have hb := hb.closed
  rw [Text.Closed] at hb
  cases hlast : b.toList.getLast? with
  | none => exact ha.closed
  | some c => rwa [hlast] at hb

/-! ## Separators -/

theorem fits_separator (h : IsSeparator newline separator) : newline.Fits separator := by
  rcases h with rfl | ⟨indent, hindent, rfl⟩
  · exact fits_of_not_mem (by decide) (by decide)
  · have hnot : ∀ c, c ≠ ' ' → c ≠ '\t' → c ∉ (String.ofList indent).toList := by
      rw [String.toList_ofList]
      exact fun c hspace htab hc ↦ (hindent c hc).elim hspace htab
    exact (fits_text newline).append (fits_of_not_mem (hnot '\n' (by decide) (by decide))
      (hnot '\r' (by decide) (by decide)))

/-! ## Tokens -/

/-- The trivia and texts of tokens are the pieces of their text. -/
theorem Throughout.fitsToken (h : newline.Throughout (Token.textAll ts))
    (hts : ∀ t ∈ ts, t.Closed) : ∀ t ∈ ts, newline.FitsToken t := by
  induction ts with
  | nil => exact fun t ht ↦ absurd ht List.not_mem_nil
  | cons t ts ih =>
    obtain ⟨ht, hts⟩ := List.forall_mem_cons.1 hts
    rw [Token.textAll_cons, String.append_assoc, throughout_append_iff ht.1,
      throughout_append_iff ht.2] at h
    exact List.forall_mem_cons.2 ⟨⟨⟨h.1, ht.1⟩, h.2.1, ht.2⟩, ih h.2.2 hts⟩

theorem fits_empty : newline.Fits "" := fits_of_not_mem (by decide) (by decide)

section

variable (hts : ∀ t ∈ ts, newline.FitsToken t)
include hts

theorem fits_textAll : newline.Fits (Token.textAll ts) := by
  induction ts with
  | nil => exact fits_empty
  | cons t ts ih =>
    obtain ⟨ht, hts⟩ := List.forall_mem_cons.1 hts
    rw [Token.textAll_cons]
    exact (ht.1.append ht.2).append (ih hts)

theorem fits_leadingAll : newline.Fits (Token.leadingAll ts) := by
  cases ts with
  | nil => exact fits_empty
  | cons t ts => exact (hts t List.mem_cons_self).1

theorem fits_trimmedTextAll : newline.Fits (Token.trimmedTextAll ts) := by
  cases ts with
  | nil => exact fits_empty
  | cons t ts =>
    obtain ⟨ht, hts⟩ := List.forall_mem_cons.1 hts
    exact ht.2.append (fits_textAll hts)

end

end Newline

end CodeFix
