import CodeFix.Proofs.Fix.Runs
import CodeFix.Proofs.Solution.Tracking
import CodeFix.Proofs.Syntax.Occurrence

/-!
# Versions after an application

An action numbers the document that it leaves when it is computed, two above the document of its
base, and an application puts that document in as it is. The document that it takes the place of may
have been given other trees since, and its version went up by one each time (`Solution.Rewritten`);
what decides whether the action may be applied is the tree alone. So the version goes up with the
application exactly if the document was rewritten at most once, and a document that was rewritten
more often, and got its tree of the base back, stays at its version or falls behind it.

Nothing is assumed here of hosts, of the semantic model or of the ids of nodes: an edit that was
computed has found the node that it replaces, and the first node with that id is enough.
-/

namespace CodeFix

/-! ## Rewriting documents in place -/

namespace Solution

/-- The snapshot was derived from the base by giving documents that it holds other trees, one after
another; their ids are listed, the last one first. -/
inductive Rewritten (base : Solution) : Solution → List DocumentId → Prop
  | base : Rewritten base base []
  | step {s s' : Solution} {updated : List DocumentId} {d : Document} {root : Node}
      (hs : Rewritten base s updated) (hd : d ∈ s.documents)
      (h : s.withDocument? (d.withRoot root) = some s') : Rewritten base s' (d.id :: updated)

namespace Rewritten

variable {base s : Solution} {updated : List DocumentId} {b : Document}

theorem derived (h : base.Rewritten s updated) : base.Derived s updated := by
  induction h with
  | base => exact .base
  | step _ hd hstep ih => exact .update ih ih hd hstep

theorem exists_document (hbase : base.DistinctDocuments) (h : base.Rewritten s updated)
    (hb : b ∈ base.documents) :
    ∃ d, s.document? b.id = some d ∧ d.version = b.version + updated.count b.id := by
  induction h with
  | base => exact ⟨b, document?_of_mem hbase hb, rfl⟩
  | @step s s' updated d root hs hd hstep ih =>
    obtain ⟨x, hx, hversion⟩ := ih
    have hdistinct := (hs.derived.tracks hbase).distinctDocuments hbase
    obtain ⟨s'', hs'', -, -, hdocument, hothers⟩ :=
      hs.derived.update_succeeds hbase hs.derived hd root
    cases hs''.symm.trans hstep
    by_cases hid : b.id = d.id
    · rw [hid, document?_of_mem hdistinct hd] at hx
      cases hx
      refine ⟨d.withRoot root, hid ▸ hdocument, ?_⟩
      rw [Document.withRoot_version, hversion, hid, List.count_cons_self, Nat.add_assoc]
    · refine ⟨x, (hothers b.id hid).trans hx, ?_⟩
      rw [List.count_cons_of_ne (Ne.symm hid), hversion]

/-- A document can be rewritten any number of times and have its tree still. -/
theorem exists_same_tree (hbase : base.DistinctDocuments) (hb : b ∈ base.documents) (n : Nat) :
    ∃ s d, base.Rewritten s (List.replicate n b.id) ∧ s.document? b.id = some d ∧
      d.root = b.root := by
  induction n with
  | zero => exact ⟨base, b, .base, document?_of_mem hbase hb, rfl⟩
  | succ n ih =>
    obtain ⟨s, d, hs, hd, hroot⟩ := ih
    have hdistinct := (hs.derived.tracks hbase).distinctDocuments hbase
    obtain ⟨hmem, hid⟩ := (document?_eq_some_iff hdistinct).1 hd
    obtain ⟨s', hs', -, -, hdocument, -⟩ :=
      hs.derived.update_succeeds hbase hs.derived hmem d.root
    rw [hid] at hdocument
    refine ⟨s', d.withRoot d.root, ?_, hdocument, hroot⟩
    rw [List.replicate_succ, ← hid]
    exact .step (hid ▸ hs) hmem hs'

end Rewritten

end Solution

/-! ## Actions that number their document -/

/-- One document is touched, in a later version. -/
structure Payload.Touches (payload : Payload) (base : Solution) (d : Document) : Prop where
  within : payload.Within base
  touched : payload.touched base = [d]

namespace Payload.Touches

variable {base s : Solution} {b d : Document} (hbase : base.DistinctDocuments)
  (hb : b ∈ base.documents) (hid : d.id = b.id) (hproject : d.project = b.project)
  (hversion : b.version ≠ d.version)
include hbase hb hid hproject hversion

theorem of_document : (Payload.document d).Touches base d where
  within := ⟨b, hb, hid.symm, hproject.symm⟩
  touched := List.filter_cons_of_pos (Solution.isChange_of_version_ne hbase hb hid hversion)

theorem of_solution (hs : s.documents = base.documents.map fun x ↦ x.updatedBy [d]) :
    (Payload.solution s).Touches base d where
  within := Solution.knows_of_updatedBy ⟨b, hb, hid.symm, hproject.symm⟩ hs
  touched := by
    rw [Payload.touched, hs]
    exact Solution.filter_isChange_of_version_ne hbase hb hid hproject hversion

end Payload.Touches

namespace CodeAction

/-- Whenever the action is computed, it touches one document of its base and leaves it two versions
later. -/
structure Advances (a : CodeAction) (base : Solution) (b : Document) : Prop where
  base_eq : a.base = base
  document : b ∈ base.documents
  compute : ∀ t, ∃ payload u d, a.compute t = .ok payload u ∧ payload.Touches base d ∧
    d.id = b.id ∧ d.version = b.version + 2

variable {a : CodeAction} {base : Solution} {b : Document} {root new : Node} {id : NodeId}

theorem advances_of_replaceNode (hs : base.DistinctDocuments) (hb : b ∈ base.documents)
    (hbase : a.base = base) (hid : id ∈ b.root.ids) (hmarked : new.marked = true)
    (hproducer : a.producer = (do return .document (← b.replaceNode id new))) :
    a.Advances base b := by
  refine ⟨hbase, hb, fun t ↦ ?_⟩
  obtain ⟨c, n, hroot, rfl, hfirst⟩ := TreeContext.exists_first_fill hid
  have hproduce : a.producer t =
      .ok (.document (b.withRoot ((c.restamp ⟨t.next, []⟩).fill new))) ⟨t.next + 1⟩ := by
    rw [hproducer, Document.replaceNode, hroot]
    exact bind_of_ok (b.replaceIn_fill hfirst new t)
  have hcompute : a.compute t = .ok (.document (b.revision c new t)) ⟨t.next + 2⟩ := by
    rw [compute, bind_of_ok hproduce]
    exact bind_of_ok (Supply.liftM_of_eq (b.layout_of_marked hmarked t))
  have hversion : b.version ≠ (b.revision c new t).version := by
    rw [Document.revision_version]
    omega
  exact ⟨_, _, _, hcompute, .of_document hs hb rfl rfl hversion, rfl, rfl⟩

theorem advances_of_solution_replaceNode (hs : base.DistinctDocuments)
    (howner : base.documentOwning? id = some b) (hbase : a.base = base) (hid : id ∈ root.ids)
    (hmarked : new.marked = true)
    (hproducer : a.producer = (do return .solution (← base.replaceNode root id new))) :
    a.Advances base b := by
  have hb := List.mem_of_find?_eq_some howner
  refine ⟨hbase, hb, fun t ↦ ?_⟩
  obtain ⟨c, n, rfl, rfl, hfirst⟩ := TreeContext.exists_first_fill hid
  obtain ⟨s, hreplace, -, hdocuments⟩ := Solution.replaceNode_of_owner hs howner hfirst new t
  have hproduce : a.producer t = .ok (.solution s) ⟨t.next + 1⟩ := by
    rw [hproducer]
    exact bind_of_ok hreplace
  obtain ⟨s', hcompute, hdocuments'⟩ :=
    compute_of_solution hs hb hmarked hbase hproduce hdocuments
  have hversion : b.version ≠ (b.revision c new t).version := by
    rw [Document.revision_version]
    omega
  exact ⟨_, _, b.revision c new t, hcompute,
    .of_solution hs hb rfl rfl hversion hdocuments', rfl, rfl⟩

namespace Advances

variable {current : Solution} (hs : base.DistinctDocuments) (h : a.Advances base b)
include hs h

theorem changedDocuments (t : Supply) :
    ∃ d u, a.changedDocuments t = .ok [d] u ∧ d.id = b.id := by
  obtain ⟨payload, u, d, hcompute, htouches, hid, -⟩ := h.compute t
  obtain ⟨hwithin, htouched⟩ := htouches
  have hbase := h.base_eq
  subst hbase
  exact ⟨d, u, by rw [changedDocuments_of_compute hs hcompute hwithin, htouched], hid⟩

theorem touches_iff (i : DocumentId) : a.Touches i ↔ i = b.id := by
  constructor
  · rintro ⟨t, ds, u, hrun, hmem⟩
    obtain ⟨d, v, hchanged, hid⟩ := h.changedDocuments hs t
    cases hchanged.symm.trans hrun
    rw [← hid]
    exact List.mem_singleton.1 hmem
  · rintro rfl
    obtain ⟨d, v, hchanged, hid⟩ := h.changedDocuments hs ⟨0⟩
    exact ⟨_, _, _, hchanged, List.mem_singleton.2 hid.symm⟩

/-- Whether the action can be applied is decided by the tree; what it leaves has the number that was
computed. -/
theorem apply_tracked {updated : List DocumentId} (hcurrent : base.Tracks current updated)
    {found : Document} (hfound : current.document? b.id = some found) (t : Supply) :
    ((∃ result u, a.apply current t = .ok result u) ↔ found.root = b.root) ∧
      ∀ result u, a.apply current t = .ok result u →
        (∃ d, result.document? b.id = some d ∧ d.version = b.version + 2) ∧
          ∀ i, i ≠ b.id → result.document? i = current.document? i := by
  obtain ⟨payload, u, d, hcompute, ⟨hwithin, htouched⟩, hid, hversion⟩ := h.compute t
  have hbase := h.base_eq
  subst hbase
  have hb := Solution.document?_of_mem hs h.document
  -- the tree decides
  have hfresh : a.Fresh current d ↔ found.root = b.root := by
    rw [Fresh, hid, hb, hfound]
    constructor
    · rintro ⟨b', f, hb', hf, hroot⟩
      cases hb'
      cases hf
      exact hroot.symm
    · exact fun hroot ↦ ⟨b, found, rfl, rfl, hroot.symm⟩
  rcases apply_cases hs (hcurrent.distinctDocuments hs) (hcurrent.sameProjects hs) hcompute
      hwithin with
    ⟨hall, result, happly, hdocuments⟩ | ⟨before, x, after, e, hsplit, -, hobstacle, happly⟩
  · rw [htouched] at hall hdocuments
    refine ⟨⟨fun _ ↦ hfresh.1 (hall d List.mem_cons_self), fun _ ↦ ⟨result, u, happly⟩⟩, ?_⟩
    intro result' u' happly'
    cases happly.symm.trans happly'
    refine ⟨⟨d, ?_, hversion⟩, fun i hi ↦ ?_⟩
    · rw [← hid]
      exact Solution.document?_of_updatedBy hdocuments (List.nodup_singleton _)
        List.mem_cons_self (hid ▸ hfound)
    · refine Solution.document?_of_not_updatedBy hdocuments fun m hm ↦ ?_
      rw [List.mem_singleton.1 hm, hid]
      exact Ne.symm hi
  · rw [htouched] at hsplit
    have hx : x ∈ [d] := hsplit ▸ List.mem_append_cons_self
    rw [List.mem_singleton.1 hx] at hobstacle
    refine ⟨⟨?_, fun hroot ↦ absurd (hfresh.2 hroot) hobstacle.not_fresh⟩, ?_⟩
    · rintro ⟨result, v, hresult⟩
      cases happly.symm.trans hresult
    · intro result v hresult
      cases happly.symm.trans hresult

end Advances

end CodeAction

/-! ## The actions of the provider -/

theorem marked_of_addAttributes {n new : Node} {cls : AttributeClass} {style : NameStyle}
    {u v : Supply} (h : addAttributes n [cls] style u = .ok new v) : new.marked = true := by
  cases hkind : Kind.isAttributable n.kind with
  | false => cases (addAttributes_of_not_attributable hkind [cls] style u).symm.trans h
  | true =>
    obtain ⟨list, new', w, hrun, hextended⟩ := addAttributes_extended hkind cls style u
    cases hrun.symm.trans h
    exact hextended.marked

namespace Serialization

variable {preference : NameStylePreference} {extract : FieldExtractor} {ctx : FixContext}
  {d : Document} {field : Node} {s s' : FixState} {a : CodeAction} {actions : List CodeAction}

theorem advances_of_excludeFieldAction (hs : ctx.solution.DistinctDocuments)
    (hd : d ∈ ctx.solution.documents)
    (h : excludeFieldAction preference ctx d field s = .ok a s') :
    a.Advances ctx.solution d := by
  obtain ⟨hcontains, cls, new, u, v, hnew, rfl⟩ := exists_of_excludeFieldAction h
  exact CodeAction.advances_of_replaceNode hs hd rfl (Node.contains_iff.1 hcontains)
    (marked_of_addAttributes hnew) rfl

theorem advances_of_markTypeAction? (hs : ctx.solution.DistinctDocuments)
    (h : markTypeAction? preference ctx s = .ok (some a) s') :
    ∃ d, a.Advances ctx.solution d := by
  cases href : referenceToMark? ctx with
  | none => cases (markTypeAction?_of_none preference href s).symm.trans h
  | some reference =>
    rw [referenceToMark?] at href
    rw [markTypeAction?, href] at h
    obtain ⟨d, s₁, howner, h⟩ := bind_eq_ok_iff.1 h
    obtain ⟨root, s₂, -, h⟩ := bind_eq_ok_iff.1 h
    obtain ⟨declaration, s₃, hfound, h⟩ := bind_eq_ok_iff.1 h
    obtain ⟨cls, s₄, -, h⟩ := bind_eq_ok_iff.1 h
    obtain ⟨new, s₅, hadd, h⟩ := bind_eq_ok_iff.1 h
    obtain ⟨u, hnew⟩ := FixM.exists_of_ofEdit hadd
    obtain ⟨v, howning⟩ := FixM.exists_of_ofEdit howner
    obtain ⟨w, hfind⟩ := FixM.exists_of_ofEdit hfound
    cases h
    have hcontains : root.contains reference.node.id = true := by
      rw [Node.contains, EditM.eq_some_of_ofOption hfind]
      rfl
    exact ⟨d, CodeAction.advances_of_solution_replaceNode hs
      (EditM.eq_some_of_ofOption howning) rfl (Node.contains_iff.1 hcontains)
      (marked_of_addAttributes hnew) rfl⟩

theorem advances_of_mem_fixes (hs : ctx.solution.DistinctDocuments)
    (h : fixes preference extract ctx s = .ok actions s') (ha : a ∈ actions) :
    ∃ b, a.Advances ctx.solution b := by
  rcases exists_candidate_of_mem_fixes h ha with
    ⟨d, field, s₁, s₂, hdocument, hexclude⟩ | ⟨s₁, s₂, hmark⟩
  · exact ⟨d, advances_of_excludeFieldAction hs (FixContext.mem_documents hdocument) hexclude⟩
  · exact advances_of_markTypeAction? hs hmark

/-- **Versions after an application.** An action that the provider offers touches one document. In a
snapshot that was derived from its base by rewriting documents it can be applied exactly if that
document has its tree of the base, however often it was rewritten in between. The document then has
the version two above the base, which is larger than the one it had in the snapshot exactly if it
was rewritten at most once, and every other document is left as it was. -/
theorem fixes_apply_version (hs : ctx.solution.DistinctDocuments)
    (h : fixes preference extract ctx s = .ok actions s') (ha : a ∈ actions) {current : Solution}
    {updated : List DocumentId} (hcurrent : ctx.solution.Rewritten current updated) :
    ∃ b ∈ ctx.solution.documents, (∀ id, a.Touches id ↔ id = b.id) ∧
      ∃ found, current.document? b.id = some found ∧
        found.version = b.version + updated.count b.id ∧
        ∀ t, ((∃ result u, a.apply current t = .ok result u) ↔ found.root = b.root) ∧
          ∀ result u, a.apply current t = .ok result u →
            (∃ d, result.document? b.id = some d ∧ d.version = b.version + 2 ∧
              (found.version < d.version ↔ updated.count b.id ≤ 1)) ∧
            ∀ id, id ≠ b.id → result.document? id = current.document? id := by
  obtain ⟨b, hadvances⟩ := advances_of_mem_fixes hs h ha
  obtain ⟨found, hfound, hversion⟩ := hcurrent.exists_document hs hadvances.document
  refine ⟨b, hadvances.document, hadvances.touches_iff hs, found, hfound, hversion, fun t ↦ ?_⟩
  obtain ⟨happlies, hresult⟩ :=
    hadvances.apply_tracked hs (hcurrent.derived.tracks hs) hfound t
  refine ⟨happlies, fun result u happly ↦ ?_⟩
  obtain ⟨⟨d, hd, hnumber⟩, hothers⟩ := hresult result u happly
  refine ⟨⟨d, hd, hnumber, ?_⟩, hothers⟩
  rw [hversion, hnumber]
  omega

/-! ### A tree that was written again -/

private theorem exists_fixes_holder : ∃ a b s',
    fixes .auto enclosingField Holder.context ⟨⟨100⟩, false⟩ = .ok [a, b] s' := by
  have hdistinct : Holder.context.solution.Distinct := by decide
  have hdocument : Holder.document ∈ Holder.context.solution.documents := by decide
  have hfield : Holder.field ∈ Holder.document.root.preorder := by decide
  have htype : Holder.type ∈ Holder.document.root.preorder := by decide
  have hreference : referenceToMark? Holder.context = some ⟨Holder.document.id, Holder.type⟩ := by
    decide +kernel
  obtain ⟨a, v, hfirst, -⟩ :=
    excludeFieldAction_of_class .auto hdocument hfield rfl rfl ⟨⟨100⟩, false⟩
  obtain ⟨b, w, hsecond, -⟩ := markTypeAction?_of_class .auto hdistinct rfl hreference hdocument
    htype rfl (by decide) rfl (s := ⟨v, false⟩) rfl
  exact ⟨a, b, _, fixes_of_candidates rfl rfl (by decide) hfirst hsecond⟩

/-- Once the file of `Holder` was given its own tree, the action makes version two of version one.
-/
theorem fixes_apply_version_holder : ∃ a b s' current result u d,
    fixes .auto enclosingField Holder.context ⟨⟨100⟩, false⟩ = .ok [a, b] s' ∧
      Holder.solution.Rewritten current [⟨0⟩] ∧ a.apply current ⟨200⟩ = .ok result u ∧
      result.document? ⟨0⟩ = some d ∧ d.version = 2 := by
  have hdistinct : Holder.context.solution.DistinctDocuments := by decide
  have hdocument : Holder.document ∈ Holder.context.solution.documents := by decide
  obtain ⟨a, b, s', hfixes⟩ := exists_fixes_holder
  obtain ⟨current, x, hcurrent, hx, hroot⟩ :=
    Solution.Rewritten.exists_same_tree hdistinct hdocument 1
  obtain ⟨d₀, hd₀, -, found, hfound, -, hresult⟩ :=
    fixes_apply_version hdistinct hfixes List.mem_cons_self hcurrent
  obtain rfl : d₀ = Holder.document := List.mem_singleton.1 hd₀
  cases hx.symm.trans hfound
  obtain ⟨happlies, happlied⟩ := hresult ⟨200⟩
  obtain ⟨result, u, happly⟩ := happlies.2 hroot
  obtain ⟨⟨d, hd, hversion, -⟩, -⟩ := happlied result u happly
  exact ⟨a, b, s', current, result, u, d, hfixes, hcurrent, happly, hd, hversion⟩

/-- Once it was given its own tree three times, the action makes version two of version three. -/
theorem fixes_apply_version_falls : ∃ a b s' current found result u d,
    fixes .auto enclosingField Holder.context ⟨⟨100⟩, false⟩ = .ok [a, b] s' ∧
      Holder.solution.Rewritten current [⟨0⟩, ⟨0⟩, ⟨0⟩] ∧ a.apply current ⟨200⟩ = .ok result u ∧
      a.Touches ⟨0⟩ ∧ current.document? ⟨0⟩ = some found ∧ result.document? ⟨0⟩ = some d ∧
      found.version = 3 ∧ d.version = 2 := by
  have hdistinct : Holder.context.solution.DistinctDocuments := by decide
  have hdocument : Holder.document ∈ Holder.context.solution.documents := by decide
  obtain ⟨a, b, s', hfixes⟩ := exists_fixes_holder
  obtain ⟨d₀, hadvances⟩ := advances_of_mem_fixes hdistinct hfixes List.mem_cons_self
  obtain rfl : d₀ = Holder.document := List.mem_singleton.1 hadvances.document
  obtain ⟨current, x, hcurrent, hx, hroot⟩ :=
    Solution.Rewritten.exists_same_tree hdistinct hdocument 3
  obtain ⟨found, hfound, hversion⟩ := hcurrent.exists_document hdistinct hdocument
  cases hx.symm.trans hfound
  obtain ⟨happlies, happlied⟩ :=
    hadvances.apply_tracked hdistinct (hcurrent.derived.tracks hdistinct) hx ⟨200⟩
  obtain ⟨result, u, happly⟩ := happlies.2 hroot
  obtain ⟨⟨d, hd, hnumber⟩, -⟩ := happlied result u happly
  exact ⟨a, b, s', current, x, result, u, d, hfixes, hcurrent, happly,
    (hadvances.touches_iff hdistinct _).2 rfl, hx, hd, hversion, hnumber⟩

end Serialization

end CodeFix
