import CodeFix.Fix.Context
import CodeFix.Proofs.Fix.Outcome
import Mathlib.Data.List.Basic

/-!
# Which providers a service asks

Providers may draw identities and notice that they were cancelled, so whom a service asks, how often
and in which order shows in the state that it leaves. `Consulted` says it: the providers are run one
after another, each of them once, in the state that the one before it left, and each of them answers
with actions or with a failure. All that the service does is to run those that are listed for the
rule, and its result depends on their answers alone (`FixService.outcome_fixesFor`).

Failures are remembered but hide nothing. A provider that fails, or that is not listed, may be
registered anywhere among others that offer something, and the actions of these stay as they are.
-/

namespace CodeFix

/-- What a provider answers. -/
abbrev FixAnswer := Except FixError (List CodeAction)

/-- The providers are run one after another, each of them once, and answer in this way. -/
inductive Consulted (ctx : FixContext) :
    List FixProvider → FixState → List FixAnswer → FixState → Prop
  | nil (s : FixState) : Consulted ctx [] s [] s
  | found {p : FixProvider} {ps : List FixProvider} {s t u : FixState} {actions : List CodeAction}
      {answers : List FixAnswer} (h : p.fixes ctx s = .ok actions t)
      (rest : Consulted ctx ps t answers u) : Consulted ctx (p :: ps) s (.ok actions :: answers) u
  | failed {p : FixProvider} {ps : List FixProvider} {s t u : FixState} {e : FixError}
      {answers : List FixAnswer} (h : p.fixes ctx s = .error e t)
      (rest : Consulted ctx ps t answers u) : Consulted ctx (p :: ps) s (.error e :: answers) u

namespace FixAnswer

/-- The actions of an answer, none if it is a failure. -/
def actions : FixAnswer → List CodeAction
  | .ok found => found
  | .error _ => []

/-- The failure of an answer. -/
def failure? : FixAnswer → Option FixError
  | .ok _ => none
  | .error e => some e

/-- The actions of all answers, in their order. -/
def found (answers : List FixAnswer) : List CodeAction := answers.flatMap actions

/-- The failures among the answers, in their order. -/
def failures (answers : List FixAnswer) : List FixError := answers.filterMap failure?

/-- What answers come to: their actions if there are any or if none of them is a failure, and
otherwise the first failure. -/
inductive Verdict (answers : List FixAnswer) : FixAnswer → Prop
  | offered (h : found answers ≠ [] ∨ failures answers = []) : Verdict answers (.ok (found answers))
  | refused {e : FixError} {es : List FixError} (hnone : found answers = [])
      (h : failures answers = e :: es) : Verdict answers (.error e)

theorem Verdict.exists (answers : List FixAnswer) : ∃ result, Verdict answers result := by
  by_cases hfound : found answers = []
  · cases hfailures : failures answers with
    | nil => exact ⟨_, .offered (.inr hfailures)⟩
    | cons e es => exact ⟨_, .refused hfound hfailures⟩
  · exact ⟨_, .offered (.inl hfound)⟩

theorem found_insert_error (first others : List FixAnswer) (e : FixError) :
    found (first ++ .error e :: others) = found (first ++ others) := by
  rw [found, found, List.flatMap_append, List.flatMap_append, List.flatMap_cons]
  rfl

end FixAnswer

open FixAnswer

/-! ## Runs -/

namespace Consulted

variable {ctx : FixContext} {p : FixProvider} {ps qs : List FixProvider} {s t u : FixState}
  {answers answers' : List FixAnswer}

theorem exists_run (ctx : FixContext) (ps : List FixProvider) (s : FixState) :
    ∃ answers t, Consulted ctx ps s answers t := by
  induction ps generalizing s with
  | nil => exact ⟨[], s, .nil s⟩
  | cons p ps ih =>
    cases h : p.fixes ctx s with
    | ok actions t =>
      obtain ⟨answers, u, hrest⟩ := ih t
      exact ⟨_, u, .found h hrest⟩
    | error e t =>
      obtain ⟨answers, u, hrest⟩ := ih t
      exact ⟨_, u, .failed h hrest⟩

theorem append (h : Consulted ctx ps s answers t) (h' : Consulted ctx qs t answers' u) :
    Consulted ctx (ps ++ qs) s (answers ++ answers') u := by
  induction h with
  | nil => exact h'
  | found h _ ih => exact .found h (ih h')
  | failed h _ ih => exact .failed h (ih h')

theorem exists_of_append (h : Consulted ctx (ps ++ qs) s answers u) :
    ∃ first others t, answers = first ++ others ∧ Consulted ctx ps s first t ∧
      Consulted ctx qs t others u := by
  induction ps generalizing s answers with
  | nil => exact ⟨[], answers, s, rfl, .nil s, h⟩
  | cons p ps ih =>
    cases h with
    | found hp hrest =>
      obtain ⟨first, others, t, rfl, hfirst, hothers⟩ := ih hrest
      exact ⟨_, others, t, rfl, .found hp hfirst, hothers⟩
    | failed hp hrest =>
      obtain ⟨first, others, t, rfl, hfirst, hothers⟩ := ih hrest
      exact ⟨_, others, t, rfl, .failed hp hfirst, hothers⟩

theorem insert_failed {e : FixError} (h : Consulted ctx (ps ++ qs) s answers u)
    (hp : ∀ t, p.fixes ctx t = .error e t) :
    ∃ first others, answers = first ++ others ∧
      Consulted ctx (ps ++ p :: qs) s (first ++ .error e :: others) u := by
  obtain ⟨first, others, t, rfl, hfirst, hothers⟩ := h.exists_of_append
  exact ⟨first, others, rfl, hfirst.append (.failed (hp t) hothers)⟩

theorem collect_eq (h : Consulted ctx ps s answers t) :
    FixService.collect ctx ps s = .ok (FixAnswer.found answers, (failures answers).head?) t := by
  induction h with
  | nil s => rfl
  | found h _ ih =>
    rw [FixService.collect, bind_of_ok (FixM.outcome_of_ok h), bind_of_ok ih]
    rfl
  | failed h _ ih =>
    rw [FixService.collect, bind_of_ok (FixM.outcome_of_error h), bind_of_ok ih]
    rfl

end Consulted

/-! ## The service -/

namespace FixService

variable {service : FixService} {ctx : FixContext} {s t : FixState} {answers : List FixAnswer}
  {result : FixAnswer} {ruleId : String} {before after : List FixProvider} {q : FixProvider}

/-- The providers for which the rules of the service list a rule. -/
def listing (service : FixService) (ruleId : String) : List FixProvider :=
  ((service.providers.zip service.rules).filter fun x ↦ x.2.ruleIds.contains ruleId).map Prod.fst

theorem providersFor_eq_listing (service : FixService) (ruleId : String) :
    service.providersFor ruleId = service.listing ruleId := by
  rw [providersFor, listing, rules]
  induction service.providers with
  | nil => rfl
  | cons p ps ih =>
    rw [List.map_cons, List.zip_cons_cons, List.filter_cons, List.filter_cons]
    by_cases h : p.ruleIds.contains ruleId = true
    · rw [if_pos h, if_pos h, List.map_cons, ih]
    · rw [if_neg h, if_neg h, ih]

theorem listing_append (before after : List FixProvider) (ruleId : String) :
    (FixService.mk (before ++ after)).listing ruleId =
      (FixService.mk before).listing ruleId ++ (FixService.mk after).listing ruleId := by
  rw [← providersFor_eq_listing, ← providersFor_eq_listing, ← providersFor_eq_listing]
  exact List.filter_append ..

theorem listing_cons_of_mem (h : ruleId ∈ q.ruleIds) (after : List FixProvider) :
    (FixService.mk (q :: after)).listing ruleId = q :: (FixService.mk after).listing ruleId := by
  rw [← providersFor_eq_listing, ← providersFor_eq_listing]
  exact List.filter_cons_of_pos (List.contains_iff_mem.2 h)

theorem listing_cons_of_not_mem (h : ruleId ∉ q.ruleIds) (after : List FixProvider) :
    (FixService.mk (q :: after)).listing ruleId = (FixService.mk after).listing ruleId := by
  rw [← providersFor_eq_listing, ← providersFor_eq_listing]
  exact List.filter_cons_of_neg (mt List.contains_iff_mem.1 h)

/-- **The result is a verdict on the answers** of the providers that are listed. -/
theorem outcome_fixesFor (h : Consulted ctx (service.listing ctx.diagnostic.id) s answers t)
    (hresult : Verdict answers result) :
    FixM.outcome (service.fixesFor ctx) s = .ok result t := by
  have hrun : service.fixesFor ctx s =
      settleActions (found answers) (failures answers).head? t := by
    rw [fixesFor, providersFor_eq_listing, bind_of_ok h.collect_eq]
  cases hresult with
  | offered hoffered =>
    have hsettled : settleActions (found answers) (failures answers).head? t =
        .ok (found answers) t := by
      rcases hoffered with hne | hnone
      · obtain ⟨a, as, has⟩ := List.exists_cons_of_ne_nil hne
        rw [has]
        rfl
      · rw [hnone]
        cases found answers <;> rfl
    exact FixM.outcome_of_ok (hrun.trans hsettled)
  | refused hnone hfailures =>
    rw [hnone, hfailures] at hrun
    exact FixM.outcome_of_error hrun

theorem fixesFor_eq_ok (h : Consulted ctx (service.listing ctx.diagnostic.id) s answers t)
    (hne : found answers ≠ []) : service.fixesFor ctx s = .ok (found answers) t :=
  FixM.exists_of_outcome (outcome_fixesFor h (.offered (.inl hne)))

/-- **Routing.** A service runs exactly the providers for which its rules list the rule of the
diagnostic, each of them once and in the order of registration. Its result is the verdict on their
answers. Where it has actions, one more provider at any place neither takes any of them away nor
adds or moves one, if it is not listed for the rule, or fails without leaving a trace, or fails in a
run in which the others answer as before. -/
theorem fixesFor_routes (service : FixService) (ctx : FixContext) (s : FixState) :
    ∃ answers result t, Consulted ctx (service.listing ctx.diagnostic.id) s answers t ∧
      Verdict answers result ∧ FixM.outcome (service.fixesFor ctx) s = .ok result t ∧
      ∀ before after q, service.providers = before ++ after → found answers ≠ [] →
        (ctx.diagnostic.id ∉ q.ruleIds →
          (FixService.mk (before ++ q :: after)).fixesFor ctx s = .ok (found answers) t) ∧
        (∀ e, (∀ u, q.fixes ctx u = .error e u) →
          (FixService.mk (before ++ q :: after)).fixesFor ctx s = .ok (found answers) t) ∧
        ∀ first others e t', answers = first ++ others →
          Consulted ctx ((FixService.mk (before ++ q :: after)).listing ctx.diagnostic.id) s
            (first ++ .error e :: others) t' →
          (FixService.mk (before ++ q :: after)).fixesFor ctx s = .ok (found answers) t' := by
  obtain ⟨answers, t, hrun⟩ :=
    Consulted.exists_run ctx (service.listing ctx.diagnostic.id) s
  obtain ⟨result, hresult⟩ := Verdict.exists answers
  refine ⟨answers, result, t, hrun, hresult, outcome_fixesFor hrun hresult, ?_⟩
  intro before after q hservice hne
  have hlisting : service.listing ctx.diagnostic.id =
      (FixService.mk before).listing ctx.diagnostic.id ++
        (FixService.mk after).listing ctx.diagnostic.id := by
    rw [← listing_append, ← hservice]
  rw [hlisting] at hrun
  have hunlisted : ctx.diagnostic.id ∉ q.ruleIds →
      (FixService.mk (before ++ q :: after)).fixesFor ctx s = .ok (found answers) t := by
    intro hq
    refine fixesFor_eq_ok ?_ hne
    rwa [listing_append, listing_cons_of_not_mem hq]
  have hfailed : ∀ first others e t', answers = first ++ others →
      Consulted ctx ((FixService.mk (before ++ q :: after)).listing ctx.diagnostic.id) s
        (first ++ .error e :: others) t' →
      (FixService.mk (before ++ q :: after)).fixesFor ctx s = .ok (found answers) t' := by
    rintro first others e t' rfl hwider
    rw [← found_insert_error first others e] at hne ⊢
    exact fixesFor_eq_ok hwider hne
  refine ⟨hunlisted, fun e hq ↦ ?_, hfailed⟩
  by_cases hlisted : ctx.diagnostic.id ∈ q.ruleIds
  · obtain ⟨first, others, hanswers, hwider⟩ := hrun.insert_failed hq
    refine hfailed first others e t hanswers ?_
    rwa [listing_append, listing_cons_of_mem hlisted]
  · exact hunlisted hlisted

end FixService

end CodeFix
