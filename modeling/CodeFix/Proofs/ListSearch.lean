import Mathlib.Data.List.Forall2
import Mathlib.Data.List.Induction
import Mathlib.Data.List.Nodup
import Mathlib.Data.List.Pairwise

/-!
# Searching lists

Two lists correspond when their members are related one by one. Searches that cannot tell related
members apart keep lists in correspondence, and what they find is related again.

What the searches of this library find in a list: the record with a key, the part that a member
comes from, and the last element that meets a test. Each is said without the search, by membership
or by how the list splits.
-/

namespace CodeFix

/-! ## Lists that correspond -/

section

variable {α β γ : Type} {R : α → β → Prop} {xs : List α} {ys : List β}

theorem forall₂_iff_map_eq {f : α → γ} {g : β → γ} :
    List.Forall₂ (fun x y ↦ f x = g y) xs ys ↔ xs.map f = ys.map g := by
  rw [← List.forall₂_eq_eq_eq, List.forall₂_map_left_iff, List.forall₂_map_right_iff]

theorem filterMap_eq_of_forall₂ {f : α → Option γ} {g : β → Option γ}
    (h : List.Forall₂ (fun x y ↦ f x = g y) xs ys) : xs.filterMap f = ys.filterMap g := by
  induction h with
  | nil => rfl
  | cons hxy _ ih => rw [List.filterMap_cons, List.filterMap_cons, hxy, ih]

theorem exists_of_mem_right {y : β} (h : List.Forall₂ R xs ys) (hy : y ∈ ys) :
    ∃ x ∈ xs, R x y := by
  induction h with
  | nil => cases hy
  | @cons x z xs ys hxz _ ih =>
    rcases List.mem_cons.1 hy with rfl | hy
    · exact ⟨x, List.mem_cons_self, hxz⟩
    · obtain ⟨x', hx', hrel⟩ := ih hy
      exact ⟨x', List.mem_cons_of_mem x hx', hrel⟩

theorem forall_mem_iff_of_forall₂ {P : α → Prop} {Q : β → Prop}
    (h : List.Forall₂ (fun x y ↦ P x ↔ Q y) xs ys) : (∀ x ∈ xs, P x) ↔ ∀ y ∈ ys, Q y := by
  induction h with
  | nil => simp
  | cons hxy _ ih => rw [List.forall_mem_cons, List.forall_mem_cons, hxy, ih]

theorem exists_append_cons_of_forall₂ {before after : List β} {y : β}
    (h : List.Forall₂ R xs (before ++ y :: after)) :
    ∃ before' x after', xs = before' ++ x :: after' ∧ List.Forall₂ R before' before ∧ R x y ∧
      List.Forall₂ R after' after := by
  induction before generalizing xs with
  | nil =>
    obtain ⟨x, after', hxy, hafter, rfl⟩ := List.forall₂_cons_right_iff.1 h
    exact ⟨[], x, after', rfl, .nil, hxy, hafter⟩
  | cons b before ih =>
    obtain ⟨a, rest, hab, hrest, rfl⟩ := List.forall₂_cons_right_iff.1 h
    obtain ⟨before', x, after', rfl, hbefore, hxy, hafter⟩ := ih hrest
    exact ⟨a :: before', x, after', rfl, .cons hab hbefore, hxy, hafter⟩

theorem forall₂_filter {p : α → Bool} {q : β → Bool} (h : List.Forall₂ R xs ys)
    (hpq : ∀ x y, R x y → p x = q y) :
    List.Forall₂ (fun x y ↦ (x ∈ xs ∧ p x = true) ∧ R x y) (xs.filter p) (ys.filter q) := by
  refine (List.forall₂_and_left _ _).2 ⟨fun x hx ↦ List.mem_filter.1 hx, ?_⟩
  exact List.rel_filter (fun x y hxy ↦ iff_of_eq (congrArg (· = true) (hpq x y hxy))) h

theorem rel_find? {p : α → Bool} {q : β → Bool} (h : List.Forall₂ R xs ys)
    (hpq : ∀ x y, R x y → p x = q y) :
    Option.Rel (fun x y ↦ (x ∈ xs ∧ p x = true) ∧ R x y) (xs.find? p) (ys.find? q) := by
  have hfilter := forall₂_filter h hpq
  rw [← List.head?_filter, ← List.head?_filter]
  generalize xs.filter p = xs' at hfilter
  generalize ys.filter q = ys' at hfilter
  cases hfilter with
  | nil => exact .none
  | cons hxy _ => exact .some hxy

theorem rel_cases {o : Option α} {o' : Option β} (h : Option.Rel R o o') :
    (o = none ∧ o' = none) ∨ ∃ x y, o = some x ∧ o' = some y ∧ R x y := by
  cases h with
  | none => exact .inl ⟨rfl, rfl⟩
  | some hxy => exact .inr ⟨_, _, rfl, rfl, hxy⟩

theorem rel_imp {Q : α → β → Prop} {o : Option α} {o' : Option β} (h : Option.Rel R o o')
    (hRQ : ∀ x y, R x y → Q x y) : Option.Rel Q o o' := by
  cases h with
  | none => exact .none
  | some hxy => exact .some (hRQ _ _ hxy)

theorem rel_map {δ : Type} {Q : γ → δ → Prop} {f : α → γ} {g : β → δ} {o : Option α}
    {o' : Option β} (h : Option.Rel R o o') (hfg : ∀ x y, R x y → Q (f x) (g y)) :
    Option.Rel Q (o.map f) (o'.map g) := by
  cases h with
  | none => exact .none
  | some hxy => exact .some (hfg _ _ hxy)

theorem bind_eq_of_rel {o : Option α} {o' : Option β} {f : α → Option γ} {g : β → Option γ}
    (h : Option.Rel R o o') (hfg : ∀ x y, R x y → f x = g y) : o.bind f = o'.bind g := by
  cases h with
  | none => rfl
  | some hxy => exact hfg _ _ hxy

end

variable {α : Type} {l : List α}

/-! ## Look-up by a key -/

section Key

variable {κ : Type} [DecidableEq κ] {key : α → κ}

theorem find?_key_eq_some_iff (h : (l.map key).Nodup) {k : κ} {a : α} :
    l.find? (fun x ↦ key x == k) = some a ↔ a ∈ l ∧ key a = k := by
  constructor
  · intro hf
    exact ⟨List.mem_of_find?_eq_some hf, by simpa using List.find?_some hf⟩
  · rintro ⟨ha, rfl⟩
    cases hf : l.find? (fun x ↦ key x == key a) with
    | none =>
      have hne := List.find?_eq_none.1 hf a ha
      simp at hne
    | some b =>
      have hb : b ∈ l := List.mem_of_find?_eq_some hf
      have hkey : key b = key a := by simpa using List.find?_some hf
      rw [List.inj_on_of_nodup_map h hb ha hkey]

theorem find?_key_eq_none_iff {k : κ} :
    l.find? (fun x ↦ key x == k) = none ↔ ∀ a ∈ l, key a ≠ k := by
  simp [List.find?_eq_none]

end Key

/-! ## Parts of a list -/

/-- In a list without duplicates that was put together from parts, a member tells its part. -/
theorem eq_of_mem_flatMap {β : Type} {f : α → List β} {a b : α} {x : β}
    (h : (l.flatMap f).Nodup) (ha : a ∈ l) (hb : b ∈ l) (hxa : x ∈ f a) (hxb : x ∈ f b) :
    a = b := by
  by_contra hne
  have hsymm : Std.Symm (Function.onFun List.Disjoint f) := ⟨fun _ _ hd _ hb ha ↦ hd ha hb⟩
  exact (List.nodup_flatMap.1 h).2.forall ha hb hne hxa hxb

theorem getElem?_append_cons (before after : List α) (x : α) :
    (before ++ x :: after)[before.length]? = some x := by
  rw [List.getElem?_append_right (Nat.le_refl _), Nat.sub_self, List.getElem?_cons_zero]

theorem append_cons_eq_set (before after : List α) (x y : α) :
    before ++ y :: after = (before ++ x :: after).set before.length y := by
  rw [List.set_append_right _ _ (Nat.le_refl _), Nat.sub_self, List.set_cons_zero]

/-! ## The last match -/

/-- What stands behind the last element that fails a test. -/
theorem takeWhile_reverse_cases (p : α → Bool) (l : List α) :
    ((∀ x ∈ l, p x = true) ∧ l.reverse.takeWhile p = l.reverse) ∨
      ∃ before x after, l = before ++ x :: after ∧ p x = false ∧ (∀ y ∈ after, p y = true) ∧
        l.reverse.takeWhile p = after.reverse := by
  induction l using List.reverseRecOn with
  | nil => exact Or.inl ⟨by simp, rfl⟩
  | append_singleton l a ih =>
    rw [List.reverse_append, List.reverse_singleton, List.singleton_append, List.takeWhile_cons]
    cases ha : p a with
    | false => exact Or.inr ⟨l, a, [], rfl, ha, by simp, rfl⟩
    | true =>
      rcases ih with ⟨hall, htake⟩ | ⟨before, x, after, rfl, hx, hafter, htake⟩
      · refine Or.inl ⟨fun x hx ↦ ?_, by rw [htake]; rfl⟩
        rcases List.mem_append.1 hx with hx | hx
        · exact hall x hx
        · rw [List.mem_singleton.1 hx]
          exact ha
      · refine Or.inr ⟨before, x, after ++ [a], by simp, hx, fun y hy ↦ ?_, by rw [htake]; simp⟩
        rcases List.mem_append.1 hy with hy | hy
        · exact hafter y hy
        · rw [List.mem_singleton.1 hy]
          exact ha

theorem find?_reverse_eq_some_iff {p : α → Bool} {x : α} :
    l.reverse.find? p = some x ↔
      ∃ before after, l = before ++ x :: after ∧ p x = true ∧ ∀ y ∈ after, p y = false := by
  rw [List.find?_eq_some_iff_append]
  constructor
  · rintro ⟨hx, after, before, hsplit, hafter⟩
    refine ⟨before.reverse, after.reverse, ?_, hx, fun y hy ↦ ?_⟩
    · rw [← l.reverse_reverse, hsplit]
      simp
    · simpa using hafter y (List.mem_reverse.1 hy)
  · rintro ⟨before, after, rfl, hx, hafter⟩
    exact ⟨hx, after.reverse, before.reverse, by simp, fun y hy ↦ by
      simpa using hafter y (List.mem_reverse.1 hy)⟩

end CodeFix
