import CodeFix.Proofs.Fix.Offer

/-!
# The two candidates do not get in each other's way

Excluding the field and marking its type are tried one after the other, and what the first one has
come to is settled before the host is asked for a tree. That the first candidate cannot be disturbed
by anything later is seen from its form: it is an edit (`excludeFieldAction_eq`), so it neither
looks at the cancellation flag nor raises it, and of the context it needs no more than the snapshot
and the class of its attribute. Nothing is assumed of the semantic model, of the extractor or of the
host.

How the candidates are put together is said by what succeeded and what failed, in the order of the
candidates (`candidates_of_outcomes`). What the second one does while it waits for the host shows
only in its own outcome.
-/

namespace CodeFix

/-- The contexts ask for the fixes of the same node in the same snapshot, and the attribute that
excludes a field has the same class in both. The hosts and all other answers of the semantic models
may differ. -/
structure FixContext.AgreesOnField (ctx ctx' : FixContext) : Prop where
  solution : ctx'.solution = ctx.solution
  documentId : ctx'.documentId = ctx.documentId
  node : ctx'.node = ctx.node
  attributeClass :
    ctx'.semantic.attributeClass .nonSerialized = ctx.semantic.attributeClass .nonSerialized

theorem FixContext.AgreesOnField.refl (ctx : FixContext) : ctx.AgreesOnField ctx :=
  ⟨rfl, rfl, rfl, rfl⟩

theorem FixContext.document_of_some {ctx : FixContext} {d : Document}
    (h : ctx.solution.document? ctx.documentId = some d) : ctx.document = .ok d := by
  rw [FixContext.document, h]

theorem FixContext.document_of_none {ctx : FixContext}
    (h : ctx.solution.document? ctx.documentId = none) :
    ctx.document = .error (.documentNotFound (toString ctx.documentId)) := by
  rw [FixContext.document, h]

theorem FixM.outcome_ofEdit {α : Type} (x : EditM α) (u : Supply) :
    ∃ r v, ∀ cancelled, FixM.outcome (FixM.ofEdit x) ⟨u, cancelled⟩ = .ok r ⟨v, cancelled⟩ := by
  cases hx : x u with
  | ok a v => exact ⟨.ok a, v, fun _ ↦ FixM.outcome_of_ok (FixM.ofEdit_of_ok hx)⟩
  | error e v => exact ⟨.error e, v, fun _ ↦ FixM.outcome_of_error (FixM.ofEdit_of_error hx)⟩

theorem FixM.ofEdit_bind {α β : Type} (x : EditM α) (f : α → EditM β) :
    FixM.ofEdit (x >>= f) = FixM.ofEdit x >>= fun a ↦ FixM.ofEdit (f a) := by
  funext s
  cases hx : x s.supply with
  | ok a v =>
    rw [bind_of_ok (FixM.ofEdit_of_ok hx), FixM.ofEdit, FixM.ofEdit, bind_of_ok hx]
  | error e v =>
    rw [bind_of_error (FixM.ofEdit_of_error hx), FixM.ofEdit_of_error (bind_of_error hx)]

theorem FixM.exists_outcome {α : Type} (x : FixM α) (s : FixState) :
    ∃ r s', FixM.outcome x s = .ok r s' := by
  cases hx : x s with
  | ok a s' => exact ⟨.ok a, s', FixM.outcome_of_ok hx⟩
  | error e s' => exact ⟨.error e, s', FixM.outcome_of_error hx⟩

namespace Serialization

variable {preference : NameStylePreference} {ctx ctx' : FixContext} {d : Document} {field : Node}
  {s s₁ s₂ : FixState} {first : Except FixError CodeAction}
  {second : Except FixError (Option CodeAction)}

theorem fixes_of_no_document {extract : FieldExtractor} {e : FixError} (hlive : s.cancelled = false)
    (hdocument : ctx.document = .error e) : fixes preference extract ctx s = .error e s := by
  have hcheck : FixM.checkCancelled s = .ok () s :=
    (FixM.checkCancelled_eq s).trans (if_neg (by rw [hlive]; exact Bool.false_ne_true))
  rw [fixes, bind_of_ok hcheck, hdocument]
  rfl

/-! ## The first candidate is an edit -/

/-- What excludes a field, given the snapshot and the class of the attribute. -/
def excludeFieldEdit (preference : NameStylePreference) (base : Solution)
    (class? : Option AttributeClass) (d : Document) (field : Node) : EditM CodeAction := do
  if !d.root.contains field.id then throw (.nodeNotFound field.id d.path.text)
  let cls ← EditM.ofOption (.attributeUnavailable excludeField.added.metadataName) class?
  let updated ← addAttributes field [cls] (preference.resolve d.root field.id)
  return {
    title := excludeField.title
    equivalenceKey := excludeField.key
    base := base
    producer := return .document (← d.replaceNode field.id updated) }

theorem excludeFieldAction_eq (preference : NameStylePreference) (ctx : FixContext) (d : Document)
    (field : Node) :
    excludeFieldAction preference ctx d field =
      FixM.ofEdit (excludeFieldEdit preference ctx.solution
        (ctx.semantic.attributeClass .nonSerialized) d field) := by
  -- of the semantic model only the class of the attribute is asked for
  have hclass : FixM.ofExcept (excludeField.attributeClass ctx) =
      FixM.ofEdit (EditM.ofOption (.attributeUnavailable excludeField.added.metadataName)
        (ctx.semantic.attributeClass .nonSerialized)) := by
    cases hcls : ctx.semantic.attributeClass .nonSerialized with
    | none =>
      rw [Offer.attributeClass_of_none hcls]
      rfl
    | some cls =>
      rw [Offer.attributeClass_of_some hcls]
      rfl
  rw [excludeFieldAction, excludeFieldEdit]
  cases hcontains : d.root.contains field.id with
  | false => rfl
  | true =>
    simp only [Bool.not_true, Bool.false_eq_true, if_false]
    rw [hclass, FixM.ofEdit_bind]
    refine congrArg _ (funext fun cls ↦ ?_)
    rw [FixM.ofEdit_bind]
    rfl

/-! ## Putting the candidates together -/

/-- The failure, if there is one. -/
def failure? {α : Type} : Except FixError α → Option FixError
  | .ok _ => none
  | .error e => some e

/-- What the candidates have come to offer, in their order. -/
def successes (first : Except FixError CodeAction)
    (second : Except FixError (Option CodeAction)) : List CodeAction :=
  first.toOption.toList ++ (second.toOption.bind id).toList

/-- How the candidates have failed, in their order. -/
def failures (first : Except FixError CodeAction)
    (second : Except FixError (Option CodeAction)) : List FixError :=
  (failure? first).toList ++ (failure? second).toList

/-- **Failure policy.** Whatever succeeded is offered; if nothing did, the first failure counts. -/
theorem candidates_of_outcomes
    (hfirst : FixM.outcome (excludeFieldAction preference ctx d field) s = .ok first s₁)
    (hsecond : FixM.outcome (markTypeAction? preference ctx) s₁ = .ok second s₂) :
    candidates preference ctx d field s =
      match successes first second, failures first second with
      | [], e :: _ => .error e s₂
      | actions, _ => .ok actions s₂ := by
  rw [candidates, bind_of_ok hfirst, bind_of_ok hsecond]
  cases first with
  | ok a => cases second <;> rfl
  | error e =>
    cases second with
    | ok b => cases b <;> rfl
    | error e' => rfl

/-- **The candidates are independent.** A computation that was cancelled before it began fails, and
so does one whose document is gone; outside of a field there is nothing to offer. Else the outcome
of the first candidate is the same in all contexts that agree on the field, whatever their hosts
and their semantic models do and whether or not the computation is cancelled after its beginning,
and the result is made of that outcome and the one of the second candidate. -/
theorem fixes_independent (preference : NameStylePreference) (extract : FieldExtractor)
    (ctx : FixContext) (u : Supply) :
    fixes preference extract ctx ⟨u, true⟩ = .error .cancelled ⟨u, true⟩ ∧
    (ctx.solution.document? ctx.documentId = none →
      fixes preference extract ctx ⟨u, false⟩ =
        .error (.documentNotFound (toString ctx.documentId)) ⟨u, false⟩) ∧
    ∀ d, ctx.solution.document? ctx.documentId = some d →
      (extract d.root ctx.node = none →
        fixes preference extract ctx ⟨u, false⟩ = .ok [] ⟨u, false⟩) ∧
      ∀ field, extract d.root ctx.node = some field →
        ∃ first v, ∀ ctx', ctx.AgreesOnField ctx' →
          fixes preference extract ctx' ⟨u, false⟩ = candidates preference ctx' d field ⟨u, false⟩ ∧
          ∀ cancelled,
            FixM.outcome (excludeFieldAction preference ctx' d field) ⟨u, cancelled⟩ =
              .ok first ⟨v, cancelled⟩ ∧
            ∃ second s', FixM.outcome (markTypeAction? preference ctx') ⟨v, cancelled⟩ =
                .ok second s' ∧
              candidates preference ctx' d field ⟨u, cancelled⟩ =
                match successes first second, failures first second with
                | [], e :: _ => .error e s'
                | actions, _ => .ok actions s' := by
  refine ⟨fixes_of_cancelled rfl, fun hnone ↦ ?_, fun d hd ↦
    ⟨fun hfield ↦ ?_, fun field hfield ↦ ?_⟩⟩
  · exact fixes_of_no_document rfl (FixContext.document_of_none hnone)
  · exact fixes_of_no_field rfl (FixContext.document_of_some hd) hfield
  · obtain ⟨first, v, hfirst⟩ := FixM.outcome_ofEdit (excludeFieldEdit preference ctx.solution
      (ctx.semantic.attributeClass .nonSerialized) d field) u
    refine ⟨first, v, fun ctx' hagrees ↦ ⟨?_, fun cancelled ↦ ?_⟩⟩
    · have hd' : ctx'.solution.document? ctx'.documentId = some d := by
        rw [hagrees.solution, hagrees.documentId, hd]
      rw [fixes_of_live rfl (FixContext.document_of_some hd'), hagrees.node, hfield]
    · have hfirst' : FixM.outcome (excludeFieldAction preference ctx' d field) ⟨u, cancelled⟩ =
          .ok first ⟨v, cancelled⟩ := by
        rw [excludeFieldAction_eq, hagrees.solution, hagrees.attributeClass]
        exact hfirst cancelled
      obtain ⟨second, s', hsecond⟩ :=
        FixM.exists_outcome (markTypeAction? preference ctx') ⟨v, cancelled⟩
      exact ⟨hfirst', second, s', hsecond, candidates_of_outcomes hfirst' hsecond⟩

/-- The field of `Holder` can be excluded whatever the host does with the request for a tree. -/
theorem fixes_independent_holder :
    ∃ a, a.title = excludeField.title ∧ ∀ host, ∃ rest s',
      fixes .auto enclosingField { Holder.context with host } ⟨⟨100⟩, false⟩ =
        .ok (a :: rest) s' := by
  have hdocument : Holder.document ∈ Holder.context.solution.documents := by decide
  have hlookup : Holder.context.solution.document? Holder.context.documentId =
      some Holder.document := by decide
  have hfield : Holder.field ∈ Holder.document.root.preorder := by decide
  obtain ⟨a, u, hrun, hmade⟩ := excludeFieldAction_of_class .auto hdocument hfield rfl rfl
    ⟨⟨100⟩, false⟩
  obtain ⟨-, -, hcandidates⟩ := fixes_independent .auto enclosingField Holder.context ⟨100⟩
  obtain ⟨-, hfound⟩ := hcandidates Holder.document hlookup
  obtain ⟨first, v, hall⟩ := hfound Holder.field (by decide)
  refine ⟨a, hmade.title_eq, fun host ↦ ?_⟩
  obtain ⟨-, hsame⟩ := hall Holder.context (.refl _)
  obtain ⟨hfixes, hrest⟩ := hall { Holder.context with host } ⟨rfl, rfl, rfl, rfl⟩
  obtain ⟨hfirst, second, s', -, hresult⟩ := hrest false
  cases (FixM.outcome_of_ok hrun).symm.trans (hsame false).1
  exact ⟨_, s', hfixes.trans hresult⟩

end Serialization

end CodeFix
