import CodeFix.Text.Basic
import Mathlib.Data.List.DropRight

/-!
# Tokens with blanks around them

A text may be read as a run of tokens with blanks between them. `Spaced` is the relation between the
run and the text, and it leaves the blanks free: any number of them, also none, may stand in front
of each token and behind the last one. What takes a text apart can then be described by what it does
to the run. Trimming leaves the run as it is, and cutting the text at a token cuts the run there.

Tokens are *solid*: they are not empty and hold no blank, so no blank of a token is taken for one
between tokens.
-/

namespace CodeFix.Text

/-- A run of characters that a blank could not be a part of. -/
def Solid (token : List Char) : Prop := token ≠ [] ∧ ∀ c ∈ token, isBlank c = false

instance (token : List Char) : Decidable (Solid token) :=
  decidable_of_iff (token.isEmpty = false ∧ token.all (fun c ↦ !isBlank c) = true) (by simp [Solid])

/-- All characters are blanks. -/
def Blank (gap : List Char) : Prop := ∀ c ∈ gap, isBlank c = true

/-- The text consists of the tokens, with blanks around them. -/
inductive Spaced : List (List Char) → List Char → Prop
  | nil {gap : List Char} (hgap : Blank gap) : Spaced [] gap
  | cons {gap token text : List Char} {tokens : List (List Char)} (hgap : Blank gap)
      (h : Spaced tokens text) : Spaced (token :: tokens) (gap ++ token ++ text)

variable {gap text token : List Char} {tokens tokens' : List (List Char)} {c : Char}

/-! ## Blanks -/

theorem blank_nil : Blank [] := fun _ h ↦ absurd h List.not_mem_nil

theorem Blank.dropWhile_append (h : Blank gap) (text : List Char) :
    (gap ++ text).dropWhile isBlank = text.dropWhile isBlank :=
  List.dropWhile_append_of_pos h

theorem Blank.reverse (h : Blank gap) : Blank gap.reverse :=
  fun c hc ↦ h c (List.mem_reverse.1 hc)

theorem Blank.not_mem (h : Blank gap) (hc : isBlank c = false) : c ∉ gap := by
  intro hmem
  rw [h c hmem] at hc
  cases hc

theorem Solid.dropWhile_append (h : Solid token) (text : List Char) :
    (token ++ text).dropWhile isBlank = token ++ text := by
  obtain ⟨hne, hsolid⟩ := h
  cases token with
  | nil => exact absurd rfl hne
  | cons c cs =>
    rw [List.cons_append, List.dropWhile_cons, hsolid c List.mem_cons_self]
    rfl

theorem Solid.dropWhile_append_append (h : Solid token) (before after : List Char) :
    (before ++ token ++ after).dropWhile isBlank =
      before.dropWhile isBlank ++ token ++ after := by
  rw [List.append_assoc, List.dropWhile_append, h.dropWhile_append, List.append_assoc]
  split
  · next hnil => rw [List.isEmpty_iff.1 hnil, List.nil_append]
  · rfl

theorem Solid.reverse (h : Solid token) : Solid token.reverse :=
  ⟨fun hnil ↦ h.1 (List.reverse_eq_nil_iff.1 hnil), fun c hc ↦ h.2 c (List.mem_reverse.1 hc)⟩

theorem trimChars_append_append (hne : text ≠ []) (hfirst : text.dropWhile isBlank = text)
    (hlast : text.reverse.dropWhile isBlank = text.reverse) (hgap : Blank gap) {gap' : List Char}
    (hgap' : Blank gap') : trimChars (gap ++ text ++ gap') = text := by
  have hstart : trimStartChars (gap ++ text ++ gap') = text ++ gap' := by
    have hfull : (text.dropWhile isBlank).isEmpty = false := by
      rw [hfirst, List.isEmpty_eq_false_iff]
      exact hne
    rw [List.append_assoc, trimStartChars, hgap.dropWhile_append, List.dropWhile_append, hfull,
      hfirst]
    rfl
  rw [trimChars, hstart, trimEndChars, trimEndWhile, List.reverse_append,
    hgap'.reverse.dropWhile_append, hlast, List.reverse_reverse]

theorem Solid.trimChars_eq (h : Solid token) (hgap : Blank gap) {gap' : List Char}
    (hgap' : Blank gap') : trimChars (gap ++ token ++ gap') = token := by
  have hfirst := h.dropWhile_append []
  have hlast := h.reverse.dropWhile_append []
  rw [List.append_nil] at hfirst hlast
  exact trimChars_append_append h.1 hfirst hlast hgap hgap'

/-! ## Runs of tokens -/

namespace Spaced

theorem blank (h : Spaced [] text) : Blank text := by
  cases h with
  | nil hgap => exact hgap

theorem exists_cons (h : Spaced (token :: tokens) text) :
    ∃ gap rest, text = gap ++ token ++ rest ∧ Blank gap ∧ Spaced tokens rest := by
  cases h with
  | cons hgap hrest => exact ⟨_, _, rfl, hgap, hrest⟩

theorem of_dropWhile {rest : List Char} (htext : text.dropWhile isBlank = token ++ rest)
    (h : Spaced tokens rest) : Spaced (token :: tokens) text := by
  rw [← @List.takeWhile_append_dropWhile _ isBlank text, htext, ← List.append_assoc]
  exact .cons (fun c hc ↦ List.mem_takeWhile_imp hc) h

theorem blank_append (hgap : Blank gap) (h : Spaced tokens text) : Spaced tokens (gap ++ text) := by
  have happend : ∀ {gap' : List Char}, Blank gap' → Blank (gap ++ gap') :=
    fun hgap' c hc ↦ (List.mem_append.1 hc).elim (hgap c) (hgap' c)
  cases h with
  | nil hgap' => exact .nil (happend hgap')
  | cons hgap' hrest =>
    rw [← List.append_assoc, ← List.append_assoc]
    exact .cons (happend hgap') hrest

/-- **Runs are put together and cut.** -/
theorem append_iff : Spaced (tokens ++ tokens') text ↔
    ∃ before after, text = before ++ after ∧ Spaced tokens before ∧ Spaced tokens' after := by
  constructor
  · intro h
    induction tokens generalizing text with
    | nil => exact ⟨[], text, rfl, .nil blank_nil, h⟩
    | cons token tokens ih =>
      obtain ⟨gap, rest, rfl, hgap, hrest⟩ := exists_cons h
      obtain ⟨before, after, rfl, hbefore, hafter⟩ := ih hrest
      exact ⟨gap ++ token ++ before, after, by simp, .cons hgap hbefore, hafter⟩
  · rintro ⟨before, after, rfl, hbefore, hafter⟩
    induction hbefore with
    | nil hgap => exact blank_append hgap hafter
    | cons hgap _ ih =>
      rw [List.append_assoc, List.cons_append]
      exact .cons hgap ih

theorem singleton_iff :
    Spaced [token] text ↔ ∃ gap gap', text = gap ++ token ++ gap' ∧ Blank gap ∧ Blank gap' := by
  constructor
  · intro h
    obtain ⟨gap, rest, rfl, hgap, hrest⟩ := exists_cons h
    exact ⟨gap, rest, rfl, hgap, hrest.blank⟩
  · rintro ⟨gap, gap', rfl, hgap, hgap'⟩
    exact .cons hgap (.nil hgap')

/-- A character that is in the text but no blank is in a token. -/
theorem exists_mem_of_mem (h : Spaced tokens text) (hc : c ∈ text) (hblank : isBlank c = false) :
    ∃ token ∈ tokens, c ∈ token := by
  induction h with
  | nil hgap => exact absurd hc (hgap.not_mem hblank)
  | @cons gap token text tokens hgap _ ih =>
    rw [List.mem_append, List.mem_append] at hc
    rcases hc with (hc | hc) | hc
    · exact absurd hc (hgap.not_mem hblank)
    · exact ⟨token, List.mem_cons_self, hc⟩
    · obtain ⟨t, ht, hct⟩ := ih hc
      exact ⟨t, List.mem_cons_of_mem token ht, hct⟩

theorem not_mem (h : Spaced tokens text) (hblank : isBlank c = false)
    (htokens : ∀ token ∈ tokens, c ∉ token) : c ∉ text := by
  intro hc
  obtain ⟨token, htoken, hct⟩ := h.exists_mem_of_mem hc hblank
  exact htokens token htoken hct

theorem reverse (h : Spaced tokens text) :
    Spaced (tokens.map List.reverse).reverse text.reverse := by
  induction h with
  | nil hgap => exact .nil hgap.reverse
  | cons hgap _ ih =>
    rw [List.map_cons, List.reverse_cons, List.reverse_append, List.reverse_append, append_iff]
    exact ⟨_, _, rfl, ih, singleton_iff.2 ⟨[], _, rfl, blank_nil, hgap.reverse⟩⟩

theorem reverse_iff :
    Spaced (tokens.map List.reverse).reverse text.reverse ↔ Spaced tokens text := by
  refine ⟨fun h ↦ ?_, reverse⟩
  have hback := h.reverse
  have htwice : tokens.map (List.reverse ∘ List.reverse) = tokens := by simp
  rwa [List.map_reverse, List.reverse_reverse, List.reverse_reverse, List.map_map, htwice] at hback

/-! ## Trimming -/

theorem of_trimStart (h : Spaced tokens (trimStartChars text)) : Spaced tokens text := by
  rw [← @List.takeWhile_append_dropWhile _ isBlank text]
  exact blank_append (fun c hc ↦ List.mem_takeWhile_imp hc) h

theorem of_trim (h : Spaced tokens (trimChars text)) : Spaced tokens text := by
  have hend : Spaced (tokens.map List.reverse).reverse
      (trimStartChars (trimStartChars text).reverse) := by
    rw [← reverse_iff, trimChars, trimEndChars, trimEndWhile, List.reverse_reverse] at h
    exact h
  exact of_trimStart (reverse_iff.1 (of_trimStart hend))

theorem trimStartChars_cons (htoken : Solid token) (h : Spaced (token :: tokens) text) :
    ∃ rest, trimStartChars text = token ++ rest ∧ Spaced tokens rest := by
  obtain ⟨gap, rest, rfl, hgap, hrest⟩ := exists_cons h
  refine ⟨rest, ?_, hrest⟩
  rw [trimStartChars, List.append_assoc, hgap.dropWhile_append, htoken.dropWhile_append]

section Trim

variable (hsolid : ∀ token ∈ tokens, Solid token)
include hsolid

theorem trimStart (h : Spaced tokens text) : Spaced tokens (trimStartChars text) := by
  cases h with
  | nil hgap =>
    rw [trimStartChars, List.dropWhile_eq_nil_iff.2 hgap]
    exact .nil blank_nil
  | cons hgap hrest =>
    rw [trimStartChars, List.append_assoc, hgap.dropWhile_append,
      (hsolid _ List.mem_cons_self).dropWhile_append]
    exact .cons blank_nil hrest

theorem trimEnd (h : Spaced tokens text) : Spaced tokens (trimEndChars text) := by
  have hreversed : ∀ token ∈ (tokens.map List.reverse).reverse, Solid token := by
    intro token htoken
    obtain ⟨t, ht, rfl⟩ := List.mem_map.1 (List.mem_reverse.1 htoken)
    exact (hsolid t ht).reverse
  rw [← reverse_iff, trimEndChars, trimEndWhile, List.reverse_reverse]
  exact trimStart hreversed h.reverse

theorem trimChars_cons (htoken : Solid token) (h : Spaced (token :: tokens) text) :
    ∃ rest, trimChars text = token ++ rest ∧ Spaced tokens rest := by
  obtain ⟨rest, hstart, hrest⟩ := trimStartChars_cons htoken h
  refine ⟨trimEndChars rest, ?_, trimEnd hsolid hrest⟩
  have hend := htoken.reverse.dropWhile_append_append rest.reverse []
  rw [List.append_nil, List.append_nil] at hend
  rw [trimChars, hstart, trimEndChars, trimEndWhile, List.reverse_append, hend,
    List.reverse_append, List.reverse_reverse]
  rfl

theorem trimChars_concat (htoken : Solid token) (h : Spaced (tokens ++ [token]) text) :
    ∃ front, trimChars text = front ++ token ∧ Spaced tokens front := by
  obtain ⟨before, after, rfl, hbefore, hafter⟩ := append_iff.1 h
  obtain ⟨gap, gap', rfl, hgap, hgap'⟩ := singleton_iff.1 hafter
  have hfront : Spaced tokens (before ++ gap) := by
    rw [← List.append_nil tokens]
    exact append_iff.2 ⟨before, gap, rfl, hbefore, .nil hgap⟩
  refine ⟨trimStartChars (before ++ gap), ?_, trimStart hsolid hfront⟩
  have htext : before ++ (gap ++ token ++ gap') = before ++ gap ++ token ++ gap' := by simp
  have hend := htoken.reverse.dropWhile_append ((before ++ gap).dropWhile isBlank).reverse
  rw [trimChars, htext, trimStartChars, htoken.dropWhile_append_append, trimEndChars, trimEndWhile,
    List.reverse_append, hgap'.reverse.dropWhile_append, List.reverse_append, hend,
    List.reverse_append, List.reverse_reverse, List.reverse_reverse]
  rfl

end Trim

end Spaced

end CodeFix.Text
