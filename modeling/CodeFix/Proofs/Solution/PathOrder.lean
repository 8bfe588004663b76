import CodeFix.Proofs.Solution.Documents
import CodeFix.Semantic.Model
import Mathlib.Data.List.Basic

/-!
# Documents in the order of their paths

Paths are compared step by step, so their order is the lexicographic one over the order of steps.
It is strict, and two paths of which neither comes first have the same steps
(`components_eq_of_not_lt`). If no two documents of a snapshot share a path, sorting leaves no
choice: the sorted list is determined by what the documents are, however they came to be filed
(`map_file_documentsByPath`).
-/

namespace CodeFix

/-! ## The order of paths -/

namespace PathComponent

variable {a b c : PathComponent}

theorem lt_iff : a.lt b = true ↔
    a.rank < b.rank ∨ ∃ x y, a = normal x ∧ b = normal y ∧ x < y := by
  cases a <;> cases b <;> simp [lt, rank]

theorem eq_of_rank_eq (h : a.rank = b.rank) : a = b ∨ ∃ x y, a = normal x ∧ b = normal y := by
  cases a <;> cases b <;> simp_all [rank]

theorem lt_irrefl (a : PathComponent) : ¬a.lt a = true := by
  rintro h
  rcases lt_iff.1 h with h | ⟨x, y, rfl, hxy, h⟩
  · exact absurd h (Nat.lt_irrefl _)
  · cases hxy
    exact String.lt_irrefl x h

theorem lt_trans (hab : a.lt b = true) (hbc : b.lt c = true) : a.lt c = true := by
  rw [lt_iff] at hab hbc ⊢
  rcases hab with hab | ⟨x, y, rfl, rfl, hxy⟩
  · rcases hbc with hbc | ⟨y, z, rfl, rfl, -⟩
    · exact .inl (Nat.lt_trans hab hbc)
    · exact .inl hab
  · rcases hbc with hbc | ⟨y', z, hy, rfl, hyz⟩
    · exact .inl hbc
    · cases hy
      exact .inr ⟨x, z, rfl, rfl, String.lt_trans hxy hyz⟩

theorem eq_of_not_lt (hab : ¬a.lt b = true) (hba : ¬b.lt a = true) : a = b := by
  rw [lt_iff, not_or] at hab hba
  rcases eq_of_rank_eq (Nat.le_antisymm (Nat.le_of_not_lt hba.1) (Nat.le_of_not_lt hab.1)) with
    h | ⟨x, y, rfl, rfl⟩
  · exact h
  · rw [String.le_antisymm (String.not_lt.1 fun h ↦ hba.2 ⟨y, x, rfl, rfl, h⟩)
      (String.not_lt.1 fun h ↦ hab.2 ⟨x, y, rfl, rfl, h⟩)]

end PathComponent

namespace PathName

variable {p q r : PathName}

theorem lt_irrefl (p : PathName) : ¬p.lt p = true := fun h ↦
  List.lex_irrefl PathComponent.lt_irrefl p.components (lt_iff.1 h)

theorem lt_trans (hpq : p.lt q = true) (hqr : q.lt r = true) : p.lt r = true :=
  lt_iff.2 (List.lex_trans PathComponent.lt_trans (lt_iff.1 hpq) (lt_iff.1 hqr))

theorem components_eq_of_not_lt (hpq : ¬p.lt q = true) (hqp : ¬q.lt p = true) :
    p.components = q.components :=
  List.lex_trichotomous (fun _ _ ↦ PathComponent.eq_of_not_lt) (mt lt_iff.2 hqp) (mt lt_iff.2 hpq)

theorem le_iff : p.le q = true ↔ ¬q.lt p = true := by
  rw [le, Bool.not_eq_true', Bool.not_eq_true]

theorem le_total (p q : PathName) : (p.le q || q.le p) = true := by
  rw [Bool.or_eq_true, le_iff, le_iff]
  by_cases h : q.lt p = true
  · exact .inr fun h' ↦ lt_irrefl p (lt_trans h' h)
  · exact .inl h

theorem le_trans (hpq : p.le q = true) (hqr : q.le r = true) : p.le r = true := by
  rw [le_iff] at hpq hqr ⊢
  intro hrp
  by_cases hlt : q.lt r = true
  · exact hpq (lt_trans hlt hrp)
  · -- then `q` and `r` have the same steps, and what comes before `p` is `q` as well
    have hsame := components_eq_of_not_lt hlt hqr
    rw [lt_iff, hsame, ← lt_iff] at hpq
    exact hpq hrp

/-- Sorted by paths of which no two have the same steps, each record comes strictly before the next
ones. -/
theorem pairwise_mergeSort {α : Type} (path : α → PathName) {l : List α}
    (h : (l.map fun a ↦ (path a).components).Nodup) :
    (l.mergeSort fun a b ↦ (path a).le (path b)).Pairwise
      fun a b ↦ (path a).lt (path b) = true := by
  set sorted := l.mergeSort fun a b ↦ (path a).le (path b)
  have hle : sorted.Pairwise fun a b ↦ (path a).le (path b) = true := by
    have htrans : ∀ a b c : α, (path a).le (path b) = true → (path b).le (path c) = true →
        (path a).le (path c) = true := fun _ _ _ ↦ le_trans
    exact List.pairwise_mergeSort htrans (fun a b ↦ (path a).le_total (path b)) l
  have hne : sorted.Pairwise fun a b ↦ (path a).components ≠ (path b).components :=
    List.pairwise_map.1 (((List.mergeSort_perm _ _).map _).nodup_iff.2 h)
  refine (hle.and hne).imp fun {a b} ⟨hab, hsteps⟩ ↦ ?_
  by_contra hlt
  exact hsteps (components_eq_of_not_lt hlt (le_iff.1 hab))

theorem lex_append_iff {pre as bs : List PathComponent} :
    List.Lex (fun a b ↦ a.lt b = true) (pre ++ as) (pre ++ bs) ↔
      List.Lex (fun a b ↦ a.lt b = true) as bs := by
  induction pre with
  | nil => rfl
  | cons a pre ih =>
    rw [List.cons_append, List.cons_append, List.cons_lex_cons_iff, ih,
      or_iff_right (PathComponent.lt_irrefl a), and_iff_right rfl]

end PathName

/-! ## Sorted documents -/

namespace Solution

variable {s : Solution} {d : Document}

/-- No two documents have a path with the same steps. -/
def DistinctPaths (s : Solution) : Prop := (s.documents.map fun d ↦ d.path.components).Nodup

instance : Decidable s.DistinctPaths := inferInstanceAs (Decidable (List.Nodup _))

theorem documentsByPath_perm (s : Solution) : s.documentsByPath.Perm s.documents :=
  List.mergeSort_perm _ _

@[simp] theorem mem_documentsByPath_iff : d ∈ s.documentsByPath ↔ d ∈ s.documents :=
  s.documentsByPath_perm.mem_iff

theorem pairwise_documentsByPath (hs : s.DistinctPaths) :
    s.documentsByPath.Pairwise fun a b ↦ a.path.lt b.path = true :=
  PathName.pairwise_mergeSort Document.path hs

end Solution

/-- What a document is apart from its identity: its path and its tree. -/
def Document.file (d : Document) : PathName × Node := (d.path, d.root)

namespace Solution

variable {s s' : Solution}

theorem DistinctPaths.of_perm (hs : s.DistinctPaths)
    (h : (s.documents.map Document.file).Perm (s'.documents.map Document.file)) :
    s'.DistinctPaths := by
  have hpaths := h.map fun f ↦ f.1.components
  rw [List.map_map, List.map_map] at hpaths
  exact hpaths.nodup_iff.1 hs

/-- **Independence of the filing.** Two snapshots of the same files list them in the same order. -/
theorem map_file_documentsByPath (hs : s.DistinctPaths)
    (h : (s.documents.map Document.file).Perm (s'.documents.map Document.file)) :
    s.documentsByPath.map Document.file = s'.documentsByPath.map Document.file := by
  have hsorted : ∀ {t : Solution}, t.DistinctPaths →
      (t.documentsByPath.map Document.file).Pairwise fun f g ↦ f.1.lt g.1 = true := fun ht ↦
    List.pairwise_map.2 (pairwise_documentsByPath ht)
  refine List.Perm.eq_of_pairwise ?_ (hsorted hs) (hsorted (hs.of_perm h)) ?_
  · intro f g _ _ hfg hgf
    exact absurd (PathName.lt_trans hfg hgf) (PathName.lt_irrefl f.1)
  · exact ((s.documentsByPath_perm.map _).trans h).trans (s'.documentsByPath_perm.map _).symm

end Solution

end CodeFix
