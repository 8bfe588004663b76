/-!
# Rosters

A roster files records under a numeric key, at most one record per key, in increasing order of the
keys. The order is part of the type: it is what a reader of a solution sees, and it does not depend
on the order of insertion.
-/

namespace CodeFix

/-- Puts a record where its key belongs, in place of the record that has the same key. -/
def insertByKey {α : Type} (key : α → Nat) (a : α) : List α → List α
  | [] => [a]
  | b :: bs =>
    if key a < key b then a :: b :: bs
    else if key a = key b then a :: bs
    else b :: insertByKey key a bs

section insertByKey

variable {α : Type} {key : α → Nat} {a x : α}

theorem mem_insertByKey : ∀ {bs : List α}, bs.Pairwise (key · < key ·) →
    (x ∈ insertByKey key a bs ↔ x = a ∨ (x ∈ bs ∧ key x ≠ key a))
  | [], _ => by simp [insertByKey]
  | b :: bs, h => by
    have ih := @mem_insertByKey bs (List.pairwise_cons.1 h).2
    have hb := (List.pairwise_cons.1 h).1
    rw [insertByKey]
    split
    · rename_i hlt
      constructor
      · intro hx
        rcases List.mem_cons.1 hx with rfl | hx
        · exact Or.inl rfl
        · refine Or.inr ⟨hx, ?_⟩
          rcases List.mem_cons.1 hx with rfl | hx
          · omega
          · have := hb x hx; omega
      · rintro (rfl | ⟨hx, _⟩)
        · exact List.mem_cons_self
        · exact List.mem_cons_of_mem _ hx
    · split
      · rename_i heq
        constructor
        · intro hx
          rcases List.mem_cons.1 hx with rfl | hx
          · exact Or.inl rfl
          · have := hb x hx
            exact Or.inr ⟨List.mem_cons_of_mem _ hx, by omega⟩
        · rintro (rfl | ⟨hx, hne⟩)
          · exact List.mem_cons_self
          · rcases List.mem_cons.1 hx with rfl | hx
            · exact absurd heq.symm hne
            · exact List.mem_cons_of_mem _ hx
      · rename_i hne
        rw [List.mem_cons, ih, List.mem_cons]
        constructor
        · rintro (rfl | rfl | ⟨hx, hk⟩)
          · exact Or.inr ⟨Or.inl rfl, fun h ↦ hne h.symm⟩
          · exact Or.inl rfl
          · exact Or.inr ⟨Or.inr hx, hk⟩
        · rintro (rfl | ⟨rfl | hx, hk⟩)
          · exact Or.inr (Or.inl rfl)
          · exact Or.inl rfl
          · exact Or.inr (Or.inr ⟨hx, hk⟩)

theorem pairwise_insertByKey : ∀ {bs : List α}, bs.Pairwise (key · < key ·) →
    (insertByKey key a bs).Pairwise (key · < key ·)
  | [], _ => by simp [insertByKey]
  | b :: bs, h => by
    have hbs := (List.pairwise_cons.1 h).2
    have hb := (List.pairwise_cons.1 h).1
    rw [insertByKey]
    split
    · rename_i hlt
      refine List.pairwise_cons.2 ⟨fun x hx ↦ ?_, h⟩
      rcases List.mem_cons.1 hx with rfl | hx
      · exact hlt
      · exact Nat.lt_trans hlt (hb x hx)
    · split
      · rename_i heq
        exact List.pairwise_cons.2 ⟨fun x hx ↦ heq ▸ hb x hx, hbs⟩
      · refine List.pairwise_cons.2 ⟨fun x hx ↦ ?_, pairwise_insertByKey hbs⟩
        rcases (mem_insertByKey hbs).1 hx with rfl | ⟨hx, _⟩
        · omega
        · exact hb x hx

end insertByKey

/-- Records in increasing order of their keys. -/
structure Roster (α : Type) (key : α → Nat) where
  toList : List α
  increasing : toList.Pairwise (key · < key ·)

namespace Roster

variable {α : Type} {key : α → Nat}

def empty : Roster α key := ⟨[], List.Pairwise.nil⟩

instance : Inhabited (Roster α key) := ⟨empty⟩

instance : Membership α (Roster α key) := ⟨fun r a ↦ a ∈ r.toList⟩

/-- Files a record, in place of the one that has the same key. -/
def insert (r : Roster α key) (a : α) : Roster α key :=
  ⟨insertByKey key a r.toList, pairwise_insertByKey r.increasing⟩

/-- The record filed under a key. -/
def get? (r : Roster α key) (k : Nat) : Option α := r.toList.find? fun a ↦ key a == k

@[simp] theorem toList_empty : (empty : Roster α key).toList = [] := rfl

@[simp] theorem toList_insert (r : Roster α key) (a : α) :
    (r.insert a).toList = insertByKey key a r.toList := rfl

theorem mem_insert {r : Roster α key} {a x : α} :
    x ∈ (r.insert a).toList ↔ x = a ∨ (x ∈ r.toList ∧ key x ≠ key a) :=
  mem_insertByKey r.increasing

theorem eq_of_key_eq {r : Roster α key} {a b : α} (ha : a ∈ r.toList) (hb : b ∈ r.toList)
    (h : key a = key b) : a = b := by
  have hp := r.increasing
  revert ha hb hp
  generalize r.toList = l
  intro ha hb hp
  induction l with
  | nil => cases ha
  | cons c l ih =>
    have hc := (List.pairwise_cons.1 hp).1
    have hl := (List.pairwise_cons.1 hp).2
    rcases List.mem_cons.1 ha with rfl | ha' <;> rcases List.mem_cons.1 hb with rfl | hb'
    · rfl
    · have := hc b hb'; omega
    · have := hc a ha'; omega
    · exact ih ha' hb' hl

theorem get?_eq_some_iff {r : Roster α key} {k : Nat} {a : α} :
    r.get? k = some a ↔ a ∈ r.toList ∧ key a = k := by
  constructor
  · intro h
    have h₁ := List.find?_some h
    exact ⟨List.mem_of_find?_eq_some h, by simpa using h₁⟩
  · rintro ⟨ha, rfl⟩
    cases hf : r.get? (key a) with
    | none =>
      have := List.find?_eq_none.1 hf a ha
      simp at this
    | some b =>
      have hb : b ∈ r.toList := List.mem_of_find?_eq_some hf
      have hk : key b = key a := by simpa using List.find?_some hf
      rw [eq_of_key_eq hb ha hk]

theorem get?_insert (r : Roster α key) (a : α) (k : Nat) :
    (r.insert a).get? k = if key a = k then some a else r.get? k := by
  split
  · rename_i h
    exact get?_eq_some_iff.2 ⟨mem_insert.2 (Or.inl rfl), h⟩
  · rename_i h
    cases hr : r.get? k with
    | none =>
      refine List.find?_eq_none.2 fun x hx ↦ ?_
      rcases mem_insert.1 hx with rfl | ⟨hx, _⟩
      · simpa using h
      · exact List.find?_eq_none.1 hr x hx
    | some b =>
      obtain ⟨hb, hk⟩ := get?_eq_some_iff.1 hr
      exact get?_eq_some_iff.2 ⟨mem_insert.2 (Or.inr ⟨hb, fun e ↦ h (by omega)⟩), hk⟩

end Roster

end CodeFix
