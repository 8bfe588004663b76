import CodeFix.CSharp.Lexeme
import CodeFix.Text.Offset

/-!
# Lexemes are pieces of the source

Cutting a source into lexemes passes its characters from the left to the right, so that the offset
that is counted along is always the place where the remaining characters stand (`StandsAt`). Every
lexeme is a piece of the source that begins at its offset (`cut_of_mem_lexemes`). What the grammar
takes off the ends of a string literal are its quotes.
-/

namespace CodeFix.CSharp

variable {source : String} {start : Nat} {cs cs' : List Char} {l : Lexeme}

/-! ## Characters at an offset -/

/-- The characters stand in the source from the offset on. -/
def StandsAt (source : String) (start : Nat) (cs : List Char) : Prop :=
  ∃ before after, source = before ++ String.ofList cs ++ after ∧ before.utf8ByteSize = start

namespace StandsAt

theorem isBoundary (h : StandsAt source start cs) : Text.IsBoundary source start := by
  obtain ⟨before, after, rfl, rfl⟩ := h
  rw [String.append_assoc]
  exact Text.isBoundary_append before _

theorem append (h : StandsAt source start (cs ++ cs')) :
    StandsAt source start cs ∧
      StandsAt source (start + (String.ofList cs).utf8ByteSize) cs' := by
  obtain ⟨before, after, rfl, rfl⟩ := h
  rw [String.ofList_append]
  refine ⟨⟨before, String.ofList cs' ++ after, ?_, rfl⟩,
    ⟨before ++ String.ofList cs, after, ?_, String.utf8ByteSize_append⟩⟩
  · simp only [String.append_assoc]
  · simp only [String.append_assoc]

theorem isBoundary_stop (h : StandsAt source start cs) :
    Text.IsBoundary source (start + (String.ofList cs).utf8ByteSize) := by
  rw [← List.append_nil cs] at h
  exact h.append.2.isBoundary

theorem tail {c : Char} (h : StandsAt source start (c :: cs)) :
    StandsAt source (start + c.utf8Size) cs := by
  have happend : StandsAt source (start + (String.ofList [c]).utf8ByteSize) cs :=
    (append (List.singleton_append ▸ h)).2
  rwa [← String.singleton_eq_ofList, String.utf8ByteSize_singleton] at happend

theorem whole (source : String) : StandsAt source 0 source.toList :=
  ⟨"", "", by simp, rfl⟩

end StandsAt

/-! ## String literals -/

/-- The characters that are counted behind an opening quote end with the closing one. -/
theorem take_stringLength? {n : Nat} (h : stringLength? cs = some n) :
    ∃ inner, cs.take n = inner ++ ['"'] := by
  fun_induction stringLength? cs generalizing n with
  | case1 cs =>
    obtain rfl := Option.some_inj.1 h
    exact ⟨[], rfl⟩
  | case2 c cs hbreak => cases h
  | case3 c cs hbreak ih =>
    obtain ⟨m, hm, rfl⟩ := Option.map_eq_some_iff.1 h
    obtain ⟨inner, hinner⟩ := ih hm
    exact ⟨'\\' :: c :: inner, by rw [List.take_succ_cons, List.take_succ_cons, hinner]; rfl⟩
  | case4 c cs hbreak => cases h
  | case5 c cs hquote hescape hbreak ih =>
    obtain ⟨m, hm, rfl⟩ := Option.map_eq_some_iff.1 h
    obtain ⟨inner, hinner⟩ := ih hm
    exact ⟨c :: inner, by rw [List.take_succ_cons, hinner]; rfl⟩
  | case6 => cases h

theorem quoted_of_classify {c : Char} {rest : List Char} (h : (classify c rest).1 = .string) :
    ∃ inner, c :: rest.take (classify c rest).2 = '"' :: (inner ++ ['"']) := by
  revert h
  fun_cases classify c rest
  case case8 n hword hdigit hlength =>
    intro _
    obtain ⟨inner, hinner⟩ := take_stringLength? hlength
    exact ⟨inner, congrArg ('"' :: ·) hinner⟩
  -- no other lexeme is classified as a string literal
  all_goals
    intro h
    cases h

/-! ## Lexemes -/

/-- The lexeme is a piece of the source, and if it is a string literal, it stands between quotes. -/
structure Lexeme.Cut (source : String) (l : Lexeme) : Prop where
  standsAt : StandsAt source l.start l.text.toList
  quoted : l.sort = .string → ∃ inner, l.text.toList = '"' :: (inner ++ ['"'])

namespace Lexeme.Cut

theorem isBoundary_start (h : l.Cut source) : Text.IsBoundary source l.start :=
  h.standsAt.isBoundary

theorem isBoundary_stop (h : l.Cut source) : Text.IsBoundary source l.stop := by
  have hstop := h.standsAt.isBoundary_stop
  rwa [String.ofList_toList] at hstop

end Lexeme.Cut

theorem cut_of_mem_lexemesFrom {found : List Lexeme} (hfound : ∀ l ∈ found, l.Cut source)
    (hcs : StandsAt source start cs) (hl : l ∈ lexemesFrom found start cs) : l.Cut source := by
  fun_induction lexemesFrom found start cs with
  | case1 found start => exact hfound l (List.mem_reverse.1 hl)
  | case2 found start c rest hgap ih => exact ih hfound hcs.tail hl
  | case3 found start c rest hgap sort more hclass text ih =>
    have hsplit : c :: rest = (c :: rest.take more) ++ rest.drop more := by
      rw [List.cons_append, List.take_append_drop]
    rw [hsplit] at hcs
    refine ih (List.forall_mem_cons.2 ⟨⟨?_, fun hstring ↦ ?_⟩, hfound⟩) hcs.append.2 hl
    · rw [String.toList_ofList]
      exact hcs.append.1
    · have hclassified : (classify c rest).1 = .string := by
        rw [hclass]
        exact hstring
      obtain ⟨inner, hinner⟩ := quoted_of_classify hclassified
      rw [hclass] at hinner
      exact ⟨inner, by rw [String.toList_ofList]; exact hinner⟩

/-- **Lexemes are pieces of the source.** -/
theorem cut_of_mem_lexemes (h : l ∈ lexemes source) : l.Cut source :=
  cut_of_mem_lexemesFrom (List.forall_mem_nil _) (.whole source) h

end CodeFix.CSharp
