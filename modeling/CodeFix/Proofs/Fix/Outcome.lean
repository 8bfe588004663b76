import CodeFix.Fix.Context

/-!
# Outcomes of computations

Edits and fixes thread a state and may fail. A computation is opened at its first step: if the step
succeeds the rest goes on from there, and if it fails the whole fails in the same way. The equations
below say so for any state and any failure, so no later proof looks into how steps are strung
together.
-/

namespace CodeFix

section Outcome

variable {ε σ α β : Type} {x : EStateM ε σ α} {f : α → EStateM ε σ β} {s s' s'' : σ} {a : α}
  {b : β} {e : ε}

theorem bind_of_ok (h : x s = .ok a s') : (x >>= f) s = f a s' := by
  change EStateM.bind x f s = f a s'
  rw [EStateM.bind, h]

theorem bind_of_error (h : x s = .error e s') : (x >>= f) s = .error e s' := by
  change EStateM.bind x f s = .error e s'
  rw [EStateM.bind, h]

theorem bind_eq_ok_iff :
    (x >>= f) s = .ok b s'' ↔ ∃ a s', x s = .ok a s' ∧ f a s' = .ok b s'' := by
  constructor
  · intro h
    cases hx : x s with
    | ok a s' => exact ⟨a, s', rfl, (bind_of_ok hx).symm.trans h⟩
    | error e s' => rw [bind_of_error hx] at h; cases h
  · rintro ⟨a, s', hx, hf⟩
    rw [bind_of_ok hx, hf]

theorem Supply.liftM_of_eq {x : StateM Supply α} {a : α} {t u : Supply} (h : x t = (a, u)) :
    (liftM x : EStateM ε Supply α) t = .ok a u := by
  change Supply.lift x t = .ok a u
  rw [Supply.lift, h]

end Outcome

/-! ## Computations of fixes -/

section Fix

variable {α : Type} {x : EditM α} {y : FixM α} {s s' : FixState} {a : α} {e : FixError} {u : Supply}

theorem FixM.ofEdit_of_ok (h : x s.supply = .ok a u) :
    FixM.ofEdit x s = .ok a { s with supply := u } := by
  rw [FixM.ofEdit, h]

theorem FixM.ofEdit_of_error (h : x s.supply = .error e u) :
    FixM.ofEdit x s = .error e { s with supply := u } := by
  rw [FixM.ofEdit, h]

theorem FixM.outcome_of_ok (h : y s = .ok a s') : FixM.outcome y s = .ok (.ok a) s' := by
  rw [FixM.outcome, h]

theorem FixM.outcome_of_error (h : y s = .error e s') :
    FixM.outcome y s = .ok (.error e) s' := by
  rw [FixM.outcome, h]

/-! What a step answered says what it was made of. -/

theorem EditM.eq_some_of_ofOption {o : Option α} {u v : Supply}
    (h : EditM.ofOption e o u = .ok a v) : o = some a := by
  cases o with
  | some b =>
    cases h
    rfl
  | none => cases h

theorem FixM.eq_ok_of_ofExcept {r : Except FixError α} (h : FixM.ofExcept r s = .ok a s') :
    r = .ok a := by
  cases r with
  | ok b =>
    cases h
    rfl
  | error e => cases h

theorem FixM.exists_of_ofEdit (h : FixM.ofEdit x s = .ok a s') : ∃ u, x s.supply = .ok a u := by
  cases hx : x s.supply with
  | ok b u =>
    rw [FixM.ofEdit_of_ok hx] at h
    cases h
    exact ⟨u, rfl⟩
  | error e u => cases (FixM.ofEdit_of_error hx).symm.trans h

theorem FixM.exists_of_outcome (h : FixM.outcome y s = .ok (.ok a) s') : y s = .ok a s' := by
  cases hy : y s with
  | ok b t =>
    rw [FixM.outcome_of_ok hy] at h
    cases h
    rfl
  | error e t => cases (FixM.outcome_of_error hy).symm.trans h

theorem FixM.checkCancelled_eq (s : FixState) :
    FixM.checkCancelled s = if s.cancelled then .error .cancelled s else .ok () s := by
  obtain ⟨supply, cancelled⟩ := s
  cases cancelled <;> rfl

theorem FixContext.fetchRoot_snapshotHost {ctx : FixContext} (hhost : ctx.host = snapshotHost)
    (hs : s.cancelled = false) (d : Document) : ctx.fetchRoot d s = .ok d.root s := by
  obtain ⟨supply, cancelled⟩ := s
  cases hs
  rw [FixContext.fetchRoot, hhost]
  rfl

end Fix

end CodeFix
