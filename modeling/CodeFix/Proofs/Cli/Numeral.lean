import CodeFix.Cli.Location
import CodeFix.Proofs.Text.Spaced
import Mathlib.Data.List.Induction
import Mathlib.Tactic.IntervalCases

/-!
# Decimal numbers

What digits spell a number: its decimal digits, with any number of zeros in front of them. The
digits of a text are read from the left, so what is added at the end is the induction's step: it
goes behind the digits of the number so far, or is the number when there were only zeros.
-/

namespace CodeFix.Location

/-- The digits of a number, with zeros in front. -/
def Spells (digits : List Char) (n : Nat) : Prop :=
  ∃ zeros, digits = List.replicate zeros '0' ++ Nat.toDigits 10 n

/-- A minus sign before the digits of a number. -/
def SpellsNegative (cs : List Char) : Prop := ∃ digits n, cs = '-' :: digits ∧ Spells digits n

variable {digits : List Char} {n : Nat}

theorem spells_toDigits (n : Nat) : Spells (Nat.toDigits 10 n) n := ⟨0, rfl⟩

theorem spells_toString (n : Nat) : Spells (toString n).toList n := by
  rw [Nat.toString_eq_ofList_toDigits, String.toList_ofList]
  exact spells_toDigits n

theorem Spells.ne_nil (h : Spells digits n) : digits ≠ [] := by
  obtain ⟨zeros, rfl⟩ := h
  exact List.append_ne_nil_of_right_ne_nil _ Nat.toDigits_ne_nil

theorem Spells.isDigit (h : Spells digits n) {c : Char} (hc : c ∈ digits) : c.isDigit = true := by
  obtain ⟨zeros, rfl⟩ := h
  rcases List.mem_append.1 hc with hzero | hdigit
  · rw [List.eq_of_mem_replicate hzero]
    rfl
  · exact Nat.isDigit_of_mem_toDigits (by omega) (Nat.le_refl 10) hdigit

theorem isBlank_of_isDigit {c : Char} (h : c.isDigit = true) : Text.isBlank c = false := by
  obtain ⟨hlow, hhigh⟩ := Char.isDigit_iff_toNat.1 h
  have hzero : '0'.toNat = 48 := rfl
  have hnine : '9'.toNat = 57 := rfl
  have hval : c.val.toNat = c.toNat := rfl
  rw [Text.isBlank, hval]
  simp only [Bool.or_eq_false_iff, Bool.and_eq_false_iff, decide_eq_false_iff_not,
    beq_eq_false_iff_ne]
  omega

theorem Spells.solid (h : Spells digits n) : Text.Solid digits :=
  ⟨h.ne_nil, fun _ hc ↦ isBlank_of_isDigit (h.isDigit hc)⟩

theorem numeralValue_eq_ofDigitChars (cs : List Char) :
    numeralValue cs = Nat.ofDigitChars 10 cs 0 :=
  Nat.ofDigitChars_eq_foldl.symm

theorem Spells.numeralValue_eq (h : Spells digits n) : numeralValue digits = n := by
  obtain ⟨zeros, rfl⟩ := h
  rw [numeralValue_eq_ofDigitChars, Nat.ofDigitChars_append, Nat.ofDigitChars_replicate_zero,
    Nat.mul_zero, Nat.ofDigitChars_ten_toDigits]

theorem Spells.unique (h : Spells digits n) {m : Nat} (h' : Spells digits m) : m = n := by
  rw [← h.numeralValue_eq, h'.numeralValue_eq]

theorem exists_toDigits_of_isDigit {d : Char} (hd : d.isDigit = true) :
    ∃ k < 10, Nat.toDigits 10 k = [d] := by
  rw [Char.isDigit_iff_toNat] at hd
  obtain ⟨hlow, hhigh⟩ := hd
  have hzero : '0'.toNat = 48 := rfl
  have hnine : '9'.toNat = 57 := rfl
  refine ⟨d.toNat - 48, by omega, ?_⟩
  rw [Nat.toDigits_of_lt_base (by omega)]
  obtain ⟨k, hk, htoNat⟩ : ∃ k < 10, d.toNat = 48 + k := ⟨d.toNat - 48, by omega, by omega⟩
  rw [← Char.ofNat_toNat d, htoNat]
  interval_cases k <;> rfl

theorem Spells.concat (h : Spells digits n) {k : Nat} (hk : k < 10) :
    Spells (digits ++ Nat.toDigits 10 k) (10 * n + k) := by
  obtain ⟨zeros, rfl⟩ := h
  rcases Nat.eq_zero_or_pos n with rfl | hn
  · -- only zeros so far
    refine ⟨zeros + 1, ?_⟩
    rw [Nat.mul_zero, Nat.zero_add, List.replicate_succ']
    rfl
  · exact ⟨zeros, by rw [List.append_assoc, Nat.toDigits_append_toDigits (by omega) hn hk]⟩

/-- **Digits spell their value.** -/
theorem spells_of_all_isDigit (hne : digits ≠ []) (h : ∀ c ∈ digits, c.isDigit = true) :
    ∃ n, Spells digits n := by
  induction digits using List.reverseRecOn with
  | nil => exact absurd rfl hne
  | append_singleton digits d ih =>
    obtain ⟨k, hk, hd⟩ := exists_toDigits_of_isDigit (h d List.mem_concat_self)
    rw [← hd]
    rcases eq_or_ne digits [] with rfl | hdigits
    · exact ⟨k, spells_toDigits k⟩
    · obtain ⟨n, hn⟩ := ih hdigits fun c hc ↦ h c (List.mem_append_left _ hc)
      exact ⟨_, hn.concat hk⟩

theorem isNumeral_iff : isNumeral digits = true ↔ ∃ n, Spells digits n := by
  rw [isNumeral, Bool.and_eq_true, List.all_eq_true, Bool.not_eq_true', List.isEmpty_eq_false_iff]
  constructor
  · rintro ⟨hne, hdigit⟩
    exact spells_of_all_isDigit hne hdigit
  · rintro ⟨n, h⟩
    exact ⟨h.ne_nil, fun _ hc ↦ h.isDigit hc⟩

theorem Spells.isNumeral (h : Spells digits n) : isNumeral digits = true := isNumeral_iff.2 ⟨n, h⟩

theorem Spells.not_mem (h : Spells digits n) {c : Char} (hc : c.isDigit = false) : c ∉ digits := by
  intro hmem
  rw [h.isDigit hmem] at hc
  cases hc

theorem Spells.isNegativeNumeral_eq (h : Spells digits n) : isNegativeNumeral digits = false := by
  cases digits with
  | nil => rfl
  | cons c cs =>
    rw [isNegativeNumeral.eq_2]
    rintro cs' hsign
    obtain ⟨rfl, -⟩ := List.cons.inj hsign
    exact absurd (h.isDigit List.mem_cons_self) (by decide)

theorem isNegativeNumeral_of_isNumeral (h : isNumeral digits = true) :
    isNegativeNumeral digits = false := by
  obtain ⟨n, hn⟩ := isNumeral_iff.1 h
  exact hn.isNegativeNumeral_eq

theorem isNegativeNumeral_iff : isNegativeNumeral digits = true ↔ SpellsNegative digits := by
  constructor
  · intro h
    cases digits with
    | nil => cases h
    | cons c cs =>
      by_cases hc : c = '-'
      · rw [hc] at h ⊢
        obtain ⟨n, hn⟩ := isNumeral_iff.1 h
        exact ⟨cs, n, rfl, hn⟩
      · rw [isNegativeNumeral.eq_2 _ fun cs' hsign ↦ hc (List.cons.inj hsign).1] at h
        cases h
  · rintro ⟨cs, n, rfl, h⟩
    exact h.isNumeral

theorem isNegativeNumeral_eq_false_iff :
    isNegativeNumeral digits = false ↔ ¬ SpellsNegative digits := by
  rw [← isNegativeNumeral_iff, Bool.not_eq_true]

theorem Spells.not_spellsNegative (h : Spells digits n) : ¬ SpellsNegative digits :=
  isNegativeNumeral_eq_false_iff.1 h.isNegativeNumeral_eq

theorem isNumeral_eq_false_iff : isNumeral digits = false ↔ ∀ n, ¬ Spells digits n := by
  rw [← not_exists, ← isNumeral_iff, Bool.not_eq_true]

/-! ## Coordinates -/

/-- A number that a position can have. -/
def IsCoordinate (n : Nat) : Prop := 1 ≤ n ∧ n ≤ 4294967295

theorem isCoordinate_one : IsCoordinate 1 := ⟨by decide, by decide⟩

theorem isCoordinate_iff : IsCoordinate n ↔ n ≠ 0 ∧ n < coordinateBound := by
  have hbound : coordinateBound = 4294967296 := rfl
  rw [IsCoordinate, hbound]
  omega

theorem Spells.readCoordinate_eq_ok_iff (h : Spells digits n) {k : Coordinate} {m : Nat} :
    readCoordinate k digits = .ok m ↔ m = n ∧ IsCoordinate n := by
  rw [readCoordinate, h.numeralValue_eq, isCoordinate_iff]
  constructor
  · intro hread
    split at hread
    · cases hread
    split at hread
    · cases hread
    cases hread
    exact ⟨rfl, by assumption, by omega⟩
  · rintro ⟨rfl, hpos, hlt⟩
    rw [if_neg (by omega), if_neg hpos]

end CodeFix.Location
