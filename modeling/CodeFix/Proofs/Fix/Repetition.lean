import CodeFix.Proofs.Attribute.Renumbering
import CodeFix.Proofs.Fix.Offer
import CodeFix.Proofs.Solution.Twins

/-!
# Computing the fixes again

Asking for the fixes of one context twice, under supplies that may be anywhere above what the
snapshot holds, has the same outcome: the same failure, or as many actions with the same titles and
keys (`fixes_repeat`). What two actions of the same place compute, whenever that is, differs in
stamps and in the ids of the nodes that were synthesized (`CodeAction.Repeats`). What one action
computes differs in stamps only, since its nodes were synthesized when it was built and are not
synthesized again.

Nothing is assumed of the semantic model, of the extractor or of the host, which may answer with any
tree, fail or cancel the computation, as long as it does so in both runs. Nor is an id assumed to
belong to one node or to one document only.
-/

namespace CodeFix

variable {r : NodeId → NodeId → Prop} {u u' : Supply} {base : Solution}

/-! ## Payloads -/

/-- The payloads have the same form, and what they hold is touched by both runs alike. -/
inductive Payload.Twin (r : NodeId → NodeId → Prop) (u u' : Supply) (base : Solution) :
    Payload → Payload → Prop
  | document {d d' : Document} (h : d.Twin r u u' d') (hfiled : base.project? d.project ≠ none) :
      Twin r u u' base (.document d) (.document d')
  | solution {s s' : Solution} (h : s.Twin r u u' s') :
      Twin r u u' base (.solution s) (.solution s')

namespace CodeAction

variable {a a' : CodeAction}

theorem layoutDocuments_twin (hr : ∀ id, r id id) {produced produced' s s' : Solution}
    (hproduced : produced.Twin r u u' produced') (hs : s.Twin r u u' s')
    (hfiled : ∀ d ∈ produced.documents, s.project? d.project ≠ none) (ids : List DocumentId) :
    RunsAlike (fun _ ↦ False) (u.After u') (Solution.Twin r u u')
      (layoutDocuments produced ids s) (layoutDocuments produced' ids s') := by
  induction ids generalizing s s' with
  | nil => exact .pure hs
  | cons id ids ih =>
    rw [layoutDocuments, layoutDocuments]
    rcases rel_cases (hproduced.document? hr id) with ⟨hnone, hnone'⟩ | ⟨d, d', hd, hd', htwin⟩
    · rw [hnone, hnone']
      exact ih hs hfiled
    · rw [hd, hd']
      refine .bind (htwin.layout hr).liftM fun x x' hx ↦ ?_
      have hproject : s.project? x.project ≠ none :=
        hx.2 ▸ hfiled d (List.mem_of_find?_eq_some hd)
      rcases rel_cases (hs.withDocument? hr hx.1) with ⟨hnone, -⟩ | ⟨s₁, s₁', h₁, h₁', hs₁⟩
      · exact absurd hnone (Solution.withDocument?_ne_none hproject)
      · rw [h₁, h₁']
        exact ih hs₁ fun b hb ↦ Solution.project?_withDocument?_ne_none h₁ (hfiled b hb)

section

variable (hr : ∀ id, r id id) (hu : base.DrawnBefore u) (hu' : base.DrawnBefore u')
  (ha : a.base = base) (ha' : a'.base = base)
  (h : RunsAlike (fun _ ↦ False) (u.After u') (Payload.Twin r u u' base) a.producer a'.producer)
include hr hu hu' ha ha' h

theorem compute_twin :
    RunsAlike (fun _ ↦ False) (u.After u') (Payload.Twin r u u' base) a.compute a'.compute := by
  rw [compute, compute, ha, ha']
  refine .bind h fun payload payload' hpayload ↦ ?_
  cases hpayload with
  | document hd hfiled =>
    exact .bind (hd.layout hr).liftM fun x x' hx ↦ .pure (.document hx.1 (hx.2 ▸ hfiled))
  | @solution s s' hs =>
    change RunsAlike _ _ _ (layoutDocuments s (s.changedIds base) s >>= _)
      (layoutDocuments s' (s'.changedIds base) s' >>= _)
    rw [hs.changedIds_eq hr hu hu']
    refine .bind (layoutDocuments_twin hr hs hs (fun d ↦ Solution.project?_ne_none) _) ?_
    exact fun x x' hx ↦ .pure (.solution hx)

/-- **Computing** two actions whose producers run alike succeeds, and they report twins. -/
theorem changedDocuments_twin :
    RunsAlike (fun _ ↦ False) (u.After u') (List.Forall₂ (Document.Twin r u u'))
      a.changedDocuments a'.changedDocuments := by
  have hsolution : RunsAlike (fun _ ↦ False) (u.After u') (Solution.Twin r u u')
      a.changedSolution a'.changedSolution := by
    rw [changedSolution, changedSolution, ha, ha']
    refine .bind (compute_twin hr hu hu' ha ha' h) fun payload payload' hpayload ↦ ?_
    cases hpayload with
    | @document d d' hd hfiled =>
      change RunsAlike _ _ _ (EditM.ofOption (.documentNotFound d.path.text) _) _
      rw [(hd.alike hr).path_eq]
      exact .ofOption ((Solution.Twin.refl base).withDocument? hr hd)
        fun hnone ↦ Solution.withDocument?_ne_none hfiled hnone
    | solution hs => exact .pure hs
  rw [changedDocuments, changedDocuments, ha, ha']
  exact .bind hsolution fun s s' hs ↦ .pure (hs.changedDocuments hr hu hu')

end

/-! ## Actions -/

/-- Whenever the actions are computed after the supplies were at `u` and `u'`, both report the same
documents, whose trees differ in stamps, and in ids as the relation says. -/
def Agrees (r : NodeId → NodeId → Prop) (u u' : Supply) (a a' : CodeAction) : Prop :=
  ∀ t t', u.next ≤ t.next → u'.next ≤ t'.next → ∃ docs docs' v v',
    a.changedDocuments t = .ok docs v ∧ a'.changedDocuments t' = .ok docs' v' ∧
    List.Forall₂ (fun d d' ↦ d.Alike r d' ∧ d.text = d'.text) docs docs'

/-- The actions of two runs that began with the supplies `u` and `u'` are the same for a user. Their
documents differ in the ids of nodes that were synthesized, and what either of them computes does
not change from one computation to another, ids included. -/
structure Repeats (u u' : Supply) (a a' : CodeAction) : Prop where
  title_eq : a.title = a'.title
  key_eq : a.equivalenceKey = a'.equivalenceKey
  agrees : a.Agrees (u.Renumbered u') u u' a'
  agrees_self : a.Agrees Eq u u a
  agrees_self' : a'.Agrees Eq u' u' a'

theorem agrees_of_producer (hr : ∀ id, r id id) (hu : base.DrawnBefore u)
    (hu' : base.DrawnBefore u') (ha : a.base = base) (ha' : a'.base = base)
    (h : RunsAlike (fun _ ↦ False) (u.After u') (Payload.Twin r u u' base) a.producer
      a'.producer) : a.Agrees r u u' a' := by
  intro t t' ht ht'
  have hrun := changedDocuments_twin hr hu hu' ha ha' h t t' ⟨ht, ht'⟩
  generalize hx : a.changedDocuments t = x at hrun ⊢
  generalize hx' : a'.changedDocuments t' = x' at hrun ⊢
  cases hrun with
  | ok hdocs _ =>
    refine ⟨_, _, _, _, rfl, rfl, hdocs.imp fun d d' hd ↦ ?_⟩
    exact ⟨hd.alike hr, (hd.alike hr).text_eq⟩
  | error hfalse _ => exact hfalse.elim

/-- Producers that use nothing of a node but what is alike make actions that repeat. -/
theorem repeats_of_producer (hu : base.DrawnBefore u) (hu' : base.DrawnBefore u')
    (produce : Node → EditM Payload)
    (h : ∀ {r : NodeId → NodeId → Prop} {u u' : Supply} {new new' : Node}, (∀ id, r id id) →
      new.Reissued r u u' new' → RunsAlike (fun _ ↦ False) (u.After u')
        (Payload.Twin r u u' base) (produce new) (produce new'))
    {new new' : Node} (hnew : new.Reissued (u.Renumbered u') u u' new') (title key : String) :
    Repeats u u' ⟨title, key, base, produce new⟩ ⟨title, key, base, produce new'⟩ where
  title_eq := rfl
  key_eq := rfl
  agrees := agrees_of_producer Supply.Renumbered.refl hu hu' rfl rfl
    (h Supply.Renumbered.refl hnew)
  agrees_self := agrees_of_producer (fun _ ↦ rfl) hu hu rfl rfl
    (h (fun _ ↦ rfl) ⟨.refl (fun _ ↦ rfl) new, hnew.le_edit, hnew.le_edit⟩)
  agrees_self' := agrees_of_producer (fun _ ↦ rfl) hu' hu' rfl rfl
    (h (fun _ ↦ rfl) ⟨.refl (fun _ ↦ rfl) new', hnew.le_edit', hnew.le_edit'⟩)

end CodeAction

/-! ## Fixes -/

namespace Serialization

variable {ctx : FixContext} {d : Document} {field : Node}

section

variable (preference : NameStylePreference) (hu : ctx.solution.DrawnBefore u)
  (hu' : ctx.solution.DrawnBefore u')
include hu hu'

theorem excludeFieldAction_repeats (hd : d ∈ ctx.solution.documents) :
    RunsAlike (fun _ ↦ True) (FixState.Alike (u.Abreast u')) (CodeAction.Repeats u u')
      (excludeFieldAction preference ctx d field) (excludeFieldAction preference ctx d field) := by
  rw [excludeFieldAction]
  cases hcontains : d.root.contains field.id with
  | false => exact .throw trivial
  | true =>
    refine .bind (.ofExcept (fun _ ↦ trivial) _) fun cls _ hcls ↦ hcls ▸ ?_
    refine .bind (runsAlike_addAttributes field (List.cons_ne_nil cls []) _).ofEdit
      fun new new' hnew ↦ .pure ?_
    refine CodeAction.repeats_of_producer hu hu'
      (fun new ↦ do return .document (← d.replaceNode field.id new)) (fun hr hnew ↦ ?_) hnew _ _
    have hold : field.id ∈ d.root.ids := Node.contains_iff.1 hcontains
    exact .bind (Document.replaceIn_twin hr d hold hnew) fun x x' hx ↦
      .pure (.document hx.1 (hx.2 ▸ Solution.project?_ne_none hd))

theorem markTypeAction?_repeats :
    RunsAlike (fun _ ↦ True) (FixState.Alike (u.Abreast u')) (Option.Rel (CodeAction.Repeats u u'))
      (markTypeAction? preference ctx) (markTypeAction? preference ctx) := by
  cases href : referenceToMark? ctx with
  | none =>
    intro s s' hs
    rw [markTypeAction?_of_none preference href, markTypeAction?_of_none preference href]
    exact .ok .none hs
  | some reference =>
    rw [referenceToMark?] at href
    rw [markTypeAction?, href]
    simp only []
    cases howner : ctx.solution.documentOwning? reference.node.id with
    | none => exact .throw trivial
    | some d =>
      refine .bind_of_ok (a := d) (fun _ ↦ rfl) ?_
      refine .bind (.fetchRoot (fun _ ↦ trivial) ctx d) fun root _ hroot ↦ hroot ▸ ?_
      cases hfound : root.find? reference.node.id with
      | none => exact .throw trivial
      | some declaration =>
        refine .bind_of_ok (a := declaration) (fun _ ↦ rfl) ?_
        refine .bind (.ofExcept (fun _ ↦ trivial) _) fun cls _ hcls ↦ hcls ▸ ?_
        refine .bind (runsAlike_addAttributes declaration (List.cons_ne_nil cls []) _).ofEdit
          fun new new' hnew ↦ .pure (.some ?_)
        refine CodeAction.repeats_of_producer hu hu'
          (fun new ↦ do return .solution (← ctx.solution.replaceNode root reference.node.id new))
          (fun hr hnew ↦ ?_) hnew _ _
        have hold : reference.node.id ∈ root.ids :=
          Node.contains_iff.1 (Option.isSome_of_eq_some hfound)
        exact .bind (Solution.replaceNode_twin hr howner hold hnew) fun s s' hs ↦
          .pure (.solution hs)

theorem candidates_repeat (hd : d ∈ ctx.solution.documents) :
    RunsAlike (fun _ ↦ True) (FixState.Alike (u.Abreast u'))
      (List.Forall₂ (CodeAction.Repeats u u'))
      (candidates preference ctx d field) (candidates preference ctx d field) := by
  rw [candidates]
  refine .bind (excludeFieldAction_repeats preference hu hu' hd).outcome
    fun first first' hfirst ↦ ?_
  refine .bind (markTypeAction?_repeats preference hu hu').outcome fun second second' hsecond ↦ ?_
  cases hfirst with
  | ok ha =>
    cases hsecond with
    | ok hb =>
      cases hb with
      | none => exact .pure (.cons ha .nil)
      | some hb => exact .pure (.cons ha (.cons hb .nil))
    | error e => exact .pure (.cons ha .nil)
  | error e =>
    cases hsecond with
    | ok hb =>
      cases hb with
      | none => exact .throw trivial
      | some hb => exact .pure (.cons hb .nil)
    | error e' => exact .throw trivial

/-- **Computing the fixes again.** Two runs for one context, with supplies above all that the
snapshot holds and with the same cancellation flag, fail in the same way or offer as many actions,
which repeat one by one. -/
theorem fixes_repeat (extract : FieldExtractor) (cancelled : Bool) :
    (∃ e s s', fixes preference extract ctx ⟨u, cancelled⟩ = .error e s ∧
      fixes preference extract ctx ⟨u', cancelled⟩ = .error e s') ∨
    ∃ actions actions' s s', fixes preference extract ctx ⟨u, cancelled⟩ = .ok actions s ∧
      fixes preference extract ctx ⟨u', cancelled⟩ = .ok actions' s' ∧
      List.Forall₂ (CodeAction.Repeats u u') actions actions' := by
  have hruns : RunsAlike (fun _ ↦ True) (FixState.Alike (u.Abreast u'))
      (List.Forall₂ (CodeAction.Repeats u u')) (fixes preference extract ctx)
      (fixes preference extract ctx) := by
    rw [fixes]
    refine .bind (.checkCancelled fun _ ↦ trivial) fun _ _ _ ↦ ?_
    cases hdocument : ctx.document with
    | error e => exact .throw trivial
    | ok d =>
      refine .bind_of_ok (a := d) (fun _ ↦ rfl) ?_
      cases extract d.root ctx.node with
      | none => exact .pure .nil
      | some field => exact candidates_repeat preference hu hu' (FixContext.mem_documents hdocument)
  have hresults := hruns ⟨u, cancelled⟩ ⟨u', cancelled⟩ ⟨.refl u u', rfl⟩
  generalize fixes preference extract ctx ⟨u, cancelled⟩ = result at hresults ⊢
  generalize fixes preference extract ctx ⟨u', cancelled⟩ = result' at hresults ⊢
  cases hresults with
  | ok h _ => exact Or.inr ⟨_, _, _, _, rfl, rfl, h⟩
  | error _ _ => exact Or.inl ⟨_, _, _, rfl, rfl⟩

end

/-- In the file of `Holder` both fixes are offered in either run. -/
theorem fixes_repeat_holder : ∃ a b a' b' s s',
    fixes .auto enclosingField Holder.context ⟨⟨100⟩, false⟩ = .ok [a, b] s ∧
    fixes .auto enclosingField Holder.context ⟨⟨200⟩, false⟩ = .ok [a', b'] s' ∧
    a.Repeats ⟨100⟩ ⟨200⟩ a' ∧ b.Repeats ⟨100⟩ ⟨200⟩ b' := by
  have hdistinct : Holder.context.solution.Distinct := by decide
  have hdocument : Holder.document ∈ Holder.context.solution.documents := by decide
  have hfield : Holder.field ∈ Holder.document.root.preorder := by decide
  have htype : Holder.type ∈ Holder.document.root.preorder := by decide
  have hreference : referenceToMark? Holder.context = some ⟨Holder.document.id, Holder.type⟩ := by
    decide +kernel
  have hrun : ∀ u, ∃ a b s,
      fixes .auto enclosingField Holder.context ⟨u, false⟩ = .ok [a, b] s := by
    intro u
    obtain ⟨a, v, hfirst, -⟩ := excludeFieldAction_of_class .auto hdocument hfield rfl rfl
      ⟨u, false⟩
    obtain ⟨b, w, hsecond, -⟩ := markTypeAction?_of_class .auto hdistinct rfl hreference
      hdocument htype rfl (by decide) rfl (s := ⟨v, false⟩) rfl
    exact ⟨a, b, _, fixes_of_candidates rfl rfl (by decide) hfirst hsecond⟩
  obtain ⟨a, b, s, hab⟩ := hrun ⟨100⟩
  obtain ⟨a', b', s', hab'⟩ := hrun ⟨200⟩
  have hu : Holder.context.solution.DrawnBefore ⟨100⟩ := by decide
  have hu' : Holder.context.solution.DrawnBefore ⟨200⟩ := by decide
  rcases fixes_repeat .auto hu hu' enclosingField false with
    ⟨e, t, t', herror, -⟩ | ⟨actions, actions', t, t', hactions, hactions', hrepeat⟩
  · cases hab.symm.trans herror
  · cases hab.symm.trans hactions
    cases hab'.symm.trans hactions'
    obtain ⟨ha, hrest⟩ := List.forall₂_cons.1 hrepeat
    obtain ⟨hb, -⟩ := List.forall₂_cons.1 hrest
    exact ⟨a, b, a', b', s, s', hab, hab', ha, hb⟩

end Serialization

end CodeFix
