import CodeFix.Proofs.Fix.Outcome

/-!
# Two runs of one computation

Two runs from states that are related come to results that are related, or they fail in the same
way. This is said of computations (`RunsAlike`), not of results, so it goes along with the steps of
a computation: if the first steps run alike, and the rests do for all related values, so does the
whole (`RunsAlike.bind`). Which failures are admitted is a parameter. With none admitted, to run
alike includes to succeed.

What the states have in common is a parameter, too. For fixes it is a relation between the supplies,
while the cancellation flag is the same.
-/

namespace CodeFix

section TwoRuns

variable {ε σ α β γ δ : Type} {E : ε → Prop} {S : σ → σ → Prop} {R : α → β → Prop}
  {Q : γ → δ → Prop}

/-- Two results are alike: both are values that are related, or both are the same failure, which is
one of those admitted. The states are related in either case. -/
inductive ResultsAlike (E : ε → Prop) (S : σ → σ → Prop) (R : α → β → Prop) :
    EStateM.Result ε σ α → EStateM.Result ε σ β → Prop
  | ok {a : α} {b : β} {s s' : σ} (h : R a b) (hs : S s s') :
      ResultsAlike E S R (.ok a s) (.ok b s')
  | error {e : ε} {s s' : σ} (he : E e) (hs : S s s') :
      ResultsAlike E S R (.error e s) (.error e s')

/-- Two computations run alike: from related states they come to results that are alike. -/
def RunsAlike (E : ε → Prop) (S : σ → σ → Prop) (R : α → β → Prop) (x : EStateM ε σ α)
    (y : EStateM ε σ β) : Prop :=
  ∀ s s', S s s' → ResultsAlike E S R (x s) (y s')

/-- Two computations that cannot fail run alike. -/
def DrawsAlike (S : σ → σ → Prop) (R : α → β → Prop) (x : StateM σ α) (y : StateM σ β) : Prop :=
  ∀ s s', S s s' → R (x s).1 (y s').1 ∧ S (x s).2 (y s').2

namespace DrawsAlike

variable {x : StateM σ α} {y : StateM σ β} {f : α → StateM σ γ} {g : β → StateM σ δ}

theorem pure {a : α} {b : β} (h : R a b) :
    DrawsAlike S R (Pure.pure a : StateM σ α) (Pure.pure b : StateM σ β) :=
  fun _ _ hs ↦ ⟨h, hs⟩

theorem bind (h : DrawsAlike S R x y) (hfg : ∀ a b, R a b → DrawsAlike S Q (f a) (g b)) :
    DrawsAlike S Q (x >>= f) (y >>= g) := by
  intro s s' hs
  obtain ⟨hvalue, hstate⟩ := h s s' hs
  exact hfg _ _ hvalue _ _ hstate

end DrawsAlike

namespace RunsAlike

variable {x : EStateM ε σ α} {y : EStateM ε σ β} {f : α → EStateM ε σ γ} {g : β → EStateM ε σ δ}

theorem pure {a : α} {b : β} (h : R a b) :
    RunsAlike E S R (Pure.pure a : EStateM ε σ α) (Pure.pure b : EStateM ε σ β) :=
  fun _ _ hs ↦ .ok h hs

theorem throw {e : ε} (he : E e) :
    RunsAlike E S R (MonadExcept.throw e : EStateM ε σ α) (MonadExcept.throw e : EStateM ε σ β) :=
  fun _ _ hs ↦ .error he hs

theorem bind (h : RunsAlike E S R x y) (hfg : ∀ a b, R a b → RunsAlike E S Q (f a) (g b)) :
    RunsAlike E S Q (x >>= f) (y >>= g) := by
  intro s s' hs
  have hxy := h s s' hs
  change ResultsAlike E S Q (EStateM.bind x f s) (EStateM.bind y g s')
  rw [EStateM.bind, EStateM.bind]
  generalize x s = result at hxy ⊢
  generalize y s' = result' at hxy ⊢
  cases hxy with
  | ok hab ht => exact hfg _ _ hab _ _ ht
  | error he ht => exact .error he ht

theorem bind_of_ok {x : EStateM ε σ α} {f : α → EStateM ε σ γ} {g : α → EStateM ε σ δ} {a : α}
    (hx : ∀ s, x s = .ok a s) (h : RunsAlike E S Q (f a) (g a)) :
    RunsAlike E S Q (x >>= f) (x >>= g) := by
  intro s s' hs
  rw [CodeFix.bind_of_ok (hx s), CodeFix.bind_of_ok (hx s')]
  exact h s s' hs

end RunsAlike

end TwoRuns

/-! ## Edits -/

section Edit

variable {α β : Type} {E : FixError → Prop} {S : Supply → Supply → Prop} {R : α → β → Prop}

theorem DrawsAlike.liftM {x : StateM Supply α} {y : StateM Supply β} (h : DrawsAlike S R x y) :
    RunsAlike E S R (MonadLiftT.monadLift x : EditM α) (MonadLiftT.monadLift y : EditM β) := by
  intro s s' hs
  obtain ⟨hvalue, hstate⟩ := h s s' hs
  exact .ok hvalue hstate

theorem RunsAlike.ofOption {o : Option α} {o' : Option β} {e : FixError} (h : Option.Rel R o o')
    (he : o = none → E e) :
    RunsAlike E S R (EditM.ofOption e o) (EditM.ofOption e o') := by
  cases h with
  | none => exact .throw (he rfl)
  | some hab => exact .pure hab

end Edit

/-! ## Computations of fixes -/

section Fix

variable {α β : Type} {E : FixError → Prop} {S : Supply → Supply → Prop} {R : α → β → Prop}

/-- The states have related supplies, and both computations are cancelled or none is. -/
structure FixState.Alike (S : Supply → Supply → Prop) (s s' : FixState) : Prop where
  supply : S s.supply s'.supply
  cancelled : s.cancelled = s'.cancelled

/-- Outcomes as values: both succeeded with related values, or both failed in the same way. -/
inductive OutcomesAlike (R : α → β → Prop) : Except FixError α → Except FixError β → Prop
  | ok {a : α} {b : β} (h : R a b) : OutcomesAlike R (.ok a) (.ok b)
  | error (e : FixError) : OutcomesAlike R (.error e) (.error e)

namespace RunsAlike

theorem ofEdit {x : EditM α} {y : EditM β} (h : RunsAlike E S R x y) :
    RunsAlike E (FixState.Alike S) R (FixM.ofEdit x) (FixM.ofEdit y) := by
  intro s s' hs
  have hxy := h s.supply s'.supply hs.supply
  rw [FixM.ofEdit, FixM.ofEdit]
  generalize x s.supply = result at hxy ⊢
  generalize y s'.supply = result' at hxy ⊢
  cases hxy with
  | ok hab ht => exact .ok hab ⟨ht, hs.cancelled⟩
  | error he ht => exact .error he ⟨ht, hs.cancelled⟩

theorem outcome {x : FixM α} {y : FixM β} (h : RunsAlike E (FixState.Alike S) R x y) :
    RunsAlike E (FixState.Alike S) (OutcomesAlike R) (FixM.outcome x) (FixM.outcome y) := by
  intro s s' hs
  have hxy := h s s' hs
  rw [FixM.outcome, FixM.outcome]
  generalize x s = result at hxy ⊢
  generalize y s' = result' at hxy ⊢
  cases hxy with
  | ok hab ht => exact .ok (.ok hab) ht
  | error he ht => exact .ok (.error _) ht

variable (hE : ∀ e, E e)
include hE

theorem ofExcept (x : Except FixError α) :
    RunsAlike E (FixState.Alike S) Eq (FixM.ofExcept x) (FixM.ofExcept x) := by
  cases x with
  | ok a => exact .pure rfl
  | error e => exact .throw (hE e)

theorem checkCancelled :
    RunsAlike E (FixState.Alike S) Eq FixM.checkCancelled FixM.checkCancelled := by
  intro s s' hs
  rw [FixM.checkCancelled_eq, FixM.checkCancelled_eq, hs.cancelled]
  split
  · exact .error (hE _) hs
  · exact .ok rfl hs

theorem fetchRoot (ctx : FixContext) (d : Document) :
    RunsAlike E (FixState.Alike S) Eq (ctx.fetchRoot d) (ctx.fetchRoot d) := by
  rw [FixContext.fetchRoot]
  refine .bind (.checkCancelled hE) fun _ _ _ ↦ .bind (R := Eq) ?_ fun _ _ _ ↦ ?_
  · exact fun s s' hs ↦ .ok rfl ⟨hs.supply, congrArg (· || (ctx.host d).cancels) hs.cancelled⟩
  · cases (ctx.host d).answer with
    | atOnce result => exact .ofExcept hE result
    | later result => exact .bind (.checkCancelled hE) fun _ _ _ ↦ .ofExcept hE result
    | never => exact .bind (.checkCancelled hE) fun _ _ _ ↦ .throw (hE _)

end RunsAlike

end Fix

end CodeFix
