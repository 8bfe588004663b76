import CodeFix.Proofs.Fix.Revision

/-!
# Actions of one snapshot, applied one after another

All actions that a snapshot admits were derived from its trees. Applied in turn to a running
solution, each of them meets what the earlier ones have left, and an action that fails is skipped.

What a run has come to is said by the documents it has put in (`Running.Holds`): they are revisions
of different documents, each with another tree than in the base, and all other documents still are
those of the base. One application keeps this form, whether it succeeds or not, and it succeeds
exactly if its document is not among those put in before. Everything about whole runs follows by
induction from these two steps.

A service strings together what its providers offer, so each of its actions is one that a provider
for the rule of the diagnostic has computed.
-/

namespace CodeFix

/-- The action is among those that the provider computes for a context of the snapshot. -/
def CodeAction.OfferedOver (a : CodeAction) (base : Solution) : Prop :=
  ∃ preference ctx s actions s', ctx.solution = base ∧ ctx.host = snapshotHost ∧
    Serialization.fixes preference enclosingField ctx s = .ok actions s' ∧ a ∈ actions

/-- The action reports the document as changed. -/
def CodeAction.Touches (a : CodeAction) (id : DocumentId) : Prop :=
  ∃ t ds u, a.changedDocuments t = .ok ds u ∧ id ∈ ds.map Document.id

/-- A solution that actions are applied to, and the supply that the next one draws from. -/
structure Running where
  solution : Solution
  supply : Supply

namespace Running

/-- The action can be applied. -/
def Accepts (r : Running) (a : CodeAction) : Prop :=
  ∃ s u, a.apply r.solution r.supply = .ok s u

/-- What the action leaves; an action that fails leaves the solution as it was. -/
def next (r : Running) (a : CodeAction) : Running :=
  match a.apply r.solution r.supply with
  | .ok s u => ⟨s, u⟩
  | .error _ u => ⟨r.solution, u⟩

/-- What some actions leave, applied one after another. -/
def after (r : Running) (as : List CodeAction) : Running := as.foldl next r

/-- The applications of some actions, each with what it met. -/
def log : Running → List CodeAction → List (Running × CodeAction)
  | _, [] => []
  | r, a :: as => (r, a) :: (r.next a).log as

variable {base : Solution} {r : Running} {a b : CodeAction} {d : Document} {c : TreeContext}
  {node : Node} {new : List Document} {as : List CodeAction} {id : DocumentId}

/-! ## The invariant -/

/-- The documents of the base with some of them exchanged for versions with other trees. -/
structure Holds (base : Solution) (new : List Document) (r : Running) : Prop where
  documents : r.solution.documents = base.documents.map fun x ↦ x.updatedBy new
  distinct : (new.map Document.id).Nodup
  changed : ∀ m ∈ new, ∃ b ∈ base.documents,
    m.id = b.id ∧ m.project = b.project ∧ m.root ≠ b.root

theorem holds_start (base : Solution) (t : Supply) : Holds base [] ⟨base, t⟩ :=
  ⟨(List.map_id _).symm, List.nodup_nil, by simp⟩

namespace Holds

theorem sameProjects (hs : base.DistinctDocuments) (h : Holds base new r) :
    base.SameProjects r.solution := by
  intro x hx y hy hid
  rw [h.documents] at hy
  obtain ⟨z, hz, rfl⟩ := List.mem_map.1 hy
  rw [Document.updatedBy_id] at hid
  rw [Solution.eq_of_id_eq hs hx hz hid]
  by_cases hmem : z.id ∈ new.map Document.id
  · obtain ⟨m, hm, hmid⟩ := List.mem_map.1 hmem
    obtain ⟨b, hb, hbid, hproject, -⟩ := h.changed m hm
    rw [Document.updatedBy_of_mem h.distinct hm hmid, hproject,
      Solution.eq_of_id_eq hs hz hb (hmid.symm.trans hbid)]
  · rw [Document.updatedBy_of_not_mem fun m hm hmid ↦ hmem (List.mem_map.2 ⟨m, hm, hmid⟩)]

theorem fresh_iff (hs : base.DistinctDocuments) (h : Holds base new r) (hbase : a.base = base)
    (hd : d ∈ base.documents) {x : Document} (hx : x.id = d.id) :
    a.Fresh r.solution x ↔ d.id ∉ new.map Document.id := by
  have hfound : r.solution.document? d.id = some (d.updatedBy new) := by
    rw [Solution.document?_updatedBy h.documents, Solution.document?_of_mem hs hd, Option.map_some]
  constructor
  · rintro ⟨b, f, hb, hf, hroot⟩ hmem
    obtain ⟨m, hm, hmid⟩ := List.mem_map.1 hmem
    obtain ⟨b', hb', hbid, -, hne⟩ := h.changed m hm
    rw [hx, hbase, Solution.document?_of_mem hs hd] at hb
    rw [hx, hfound, Document.updatedBy_of_mem h.distinct hm hmid] at hf
    cases hb
    cases hf
    rw [← Solution.eq_of_id_eq hs hd hb' (hmid.symm.trans hbid)] at hne
    exact hne hroot.symm
  · intro hmem
    rw [Document.updatedBy_of_not_mem fun m hm hmid ↦
      hmem (List.mem_map.2 ⟨m, hm, hmid⟩)] at hfound
    exact ⟨d, d, by rw [hx, hbase, Solution.document?_of_mem hs hd], by rw [hx, hfound], rfl⟩

/-! ## One application -/

/-- An application succeeds or fails by whether something was put in for its document before. -/
theorem apply_cases (hs : base.DistinctDocuments) (h : Holds base new r)
    (ha : a.Revises base d c node) :
    (d.id ∉ new.map Document.id ∧ ∃ s u, a.apply r.solution r.supply = .ok s u ∧
        s.documents = r.solution.documents.map fun x ↦ x.updatedBy [d.revision c node r.supply]) ∨
      d.id ∈ new.map Document.id ∧ ∃ e u, a.apply r.solution r.supply = .error e u := by
  have hcurrent := Solution.distinctDocuments_of_updatedBy hs h.documents
  have hprojects := h.sameProjects hs
  obtain ⟨payload, hcompute, hwithin, htouched⟩ := ha.compute r.supply
  have hfresh := h.fresh_iff hs ha.base_eq ha.document (x := d.revision c node r.supply) rfl
  rw [← ha.base_eq] at hs hprojects hwithin htouched
  rcases CodeAction.apply_cases hs hcurrent hprojects hcompute hwithin with
    ⟨hall, s, happly, hdocuments⟩ | ⟨before, x, after, e, hsplit, -, he, happly⟩
  · rw [htouched] at hall hdocuments
    exact Or.inl ⟨hfresh.1 (hall _ (List.mem_singleton_self _)), s, _, happly, hdocuments⟩
  · have hx : x ∈ [d.revision c node r.supply] := by
      rw [← htouched, hsplit]
      exact List.mem_append_cons_self
    rw [List.mem_singleton.1 hx] at he
    exact Or.inr ⟨not_not.1 fun hd ↦ he.not_fresh (hfresh.2 hd), e, _, happly⟩

theorem next_of_fresh (hs : base.DistinctDocuments) (h : Holds base new r)
    (ha : a.Revises base d c node) (hd : d.id ∉ new.map Document.id) :
    r.Accepts a ∧ Holds base (d.revision c node r.supply :: new) (r.next a) := by
  rcases h.apply_cases hs ha with ⟨-, s, u, happly, hdocuments⟩ | ⟨hmem, -⟩
  · refine ⟨⟨s, u, happly⟩, ?_⟩
    rw [next, happly]
    refine ⟨?_, List.nodup_cons.2 ⟨hd, h.distinct⟩, ?_⟩
    · rw [hdocuments, h.documents, List.map_map]
      refine List.map_congr_left fun x _ ↦ ?_
      rw [Function.comp_apply, Document.updatedBy_cons, Document.updatedBy_nil,
        Document.updatedBy_id, Document.updatedBy_cons]
    · intro m hm
      rcases List.mem_cons.1 hm with rfl | hm
      · exact ⟨d, ha.document, rfl, rfl, ha.root_ne _⟩
      · exact h.changed m hm
  · exact absurd hmem hd

theorem next_of_stale (hs : base.DistinctDocuments) (h : Holds base new r)
    (ha : a.Revises base d c node) (hd : d.id ∈ new.map Document.id) :
    ¬r.Accepts a ∧ Holds base new (r.next a) := by
  rcases h.apply_cases hs ha with ⟨hnot, -⟩ | ⟨-, e, u, happly⟩
  · exact absurd hd hnot
  · constructor
    · rintro ⟨s, u', hok⟩
      cases happly.symm.trans hok
    · rw [next, happly]
      exact ⟨h.documents, h.distinct, h.changed⟩

end Holds

/-! ## Whole runs -/

theorem touches_iff (hs : base.DistinctDocuments) (ha : a.Revises base d c node) :
    a.Touches id ↔ id = d.id := by
  constructor
  · rintro ⟨t, ds, u, hchanged, hid⟩
    cases (ha.changedDocuments hs t).symm.trans hchanged
    exact List.mem_singleton.1 hid
  · rintro rfl
    exact ⟨⟨0⟩, _, _, ha.changedDocuments hs ⟨0⟩, List.mem_singleton_self _⟩

/-- Within a run an action succeeds exactly if its document has not been exchanged, neither before
the run nor in it. -/
theorem accepts_iff_of_log (hs : base.DistinctDocuments) (h : Holds base new r)
    (has : ∀ a ∈ as, ∃ d c node, a.Revises base d c node)
    {before after : List (Running × CodeAction)} {p : Running × CodeAction}
    (hlog : r.log as = before ++ p :: after) :
    p.1.Accepts p.2 ↔ ∀ id, p.2.Touches id → id ∉ new.map Document.id ∧
      ∀ q ∈ before, q.1.Accepts q.2 → ¬q.2.Touches id := by
  induction as generalizing r new before with
  | nil => exact absurd hlog.symm (List.append_ne_nil_of_right_ne_nil _ (List.cons_ne_nil _ _))
  | cons a as ih =>
    obtain ⟨d, c, node, ha⟩ := has a List.mem_cons_self
    have has' : ∀ a ∈ as, ∃ d c node, a.Revises base d c node :=
      fun b hb ↦ has b (List.mem_cons_of_mem a hb)
    cases before with
    | nil =>
      -- the first application of the run
      obtain ⟨rfl, -⟩ := List.cons.inj hlog
      constructor
      · intro haccepts id hid
        rw [(touches_iff hs ha).1 hid]
        refine ⟨fun hd ↦ (h.next_of_stale hs ha hd).1 haccepts, ?_⟩
        simp
      · intro hall
        exact (h.next_of_fresh hs ha (hall d.id ((touches_iff hs ha).2 rfl)).1).1
    | cons q before =>
      -- the first application decides what counts as exchanged for the rest of the run
      obtain ⟨rfl, hrest⟩ := List.cons.inj hlog
      by_cases hd : d.id ∈ new.map Document.id
      · obtain ⟨hfails, hnext⟩ := h.next_of_stale hs ha hd
        refine (ih hnext has' hrest).trans (forall_congr' fun id ↦ imp_congr_right fun _ ↦ ?_)
        rw [List.forall_mem_cons]
        exact and_congr_right fun _ ↦
          ⟨fun hbefore ↦ ⟨fun hok ↦ absurd hok hfails, hbefore⟩, And.right⟩
      · obtain ⟨hok, hnext⟩ := h.next_of_fresh hs ha hd
        refine (ih hnext has' hrest).trans (forall_congr' fun id ↦ imp_congr_right fun _ ↦ ?_)
        rw [List.forall_mem_cons, List.map_cons, List.mem_cons, not_or, touches_iff hs ha,
          Document.revision_id]
        exact ⟨fun ⟨⟨hne, hnew⟩, hbefore⟩ ↦ ⟨hnew, fun _ ↦ hne, hbefore⟩,
          fun ⟨hnew, hne, hbefore⟩ ↦ ⟨⟨hne hok, hnew⟩, hbefore⟩⟩

/-- A run puts in what its successful actions have computed, and nothing else. -/
theorem holds_after (hs : base.DistinctDocuments) (h : Holds base new r)
    (has : ∀ a ∈ as, ∃ d c node, a.Revises base d c node) :
    ∃ added, Holds base (added ++ new) (r.after as) ∧
      (∀ m ∈ added, ∃ p ∈ r.log as, p.1.Accepts p.2 ∧
        ∃ u, p.2.changedDocuments p.1.supply = .ok [m] u) ∧
      ∀ p ∈ r.log as, p.1.Accepts p.2 → ∀ id, p.2.Touches id → id ∈ added.map Document.id := by
  induction as generalizing r new with
  | nil => exact ⟨[], h, by simp, by simp [log]⟩
  | cons a as ih =>
    obtain ⟨d, c, node, ha⟩ := has a List.mem_cons_self
    have has' : ∀ a ∈ as, ∃ d c node, a.Revises base d c node :=
      fun b hb ↦ has b (List.mem_cons_of_mem a hb)
    by_cases hd : d.id ∈ new.map Document.id
    · obtain ⟨hfails, hnext⟩ := h.next_of_stale hs ha hd
      obtain ⟨added, hafter, hadded, hlog⟩ := ih hnext has'
      refine ⟨added, hafter, fun m hm ↦ ?_, ?_⟩
      · obtain ⟨p, hp, hrest⟩ := hadded m hm
        exact ⟨p, List.mem_cons_of_mem _ hp, hrest⟩
      · rintro p (_ | ⟨_, hp⟩) hok
        · exact absurd hok hfails
        · exact hlog p hp hok
    · obtain ⟨hok, hnext⟩ := h.next_of_fresh hs ha hd
      obtain ⟨added, hafter, hadded, hlog⟩ := ih hnext has'
      refine ⟨added ++ [d.revision c node r.supply], ?_, ?_, ?_⟩
      · rw [List.append_assoc]
        exact hafter
      · intro m hm
        rcases List.mem_append.1 hm with hm | hm
        · obtain ⟨p, hp, hrest⟩ := hadded m hm
          exact ⟨p, List.mem_cons_of_mem _ hp, hrest⟩
        · rw [List.mem_singleton.1 hm]
          exact ⟨(r, a), List.mem_cons_self, hok, _, ha.changedDocuments hs r.supply⟩
      · rw [List.map_append]
        rintro p (_ | ⟨_, hp⟩) hok id hid
        · rw [(touches_iff hs ha).1 hid]
          exact List.mem_append_right _ (List.mem_singleton_self _)
        · exact List.mem_append_left _ (hlog p hp hok id hid)

/-- From the base, an action succeeds exactly if no earlier success touched its document. -/
theorem accepts_iff_of_start (hs : base.DistinctDocuments)
    (has : ∀ a ∈ as, ∃ d c node, a.Revises base d c node) (t : Supply)
    {before after : List (Running × CodeAction)} {p : Running × CodeAction}
    (hlog : log ⟨base, t⟩ as = before ++ p :: after) :
    p.1.Accepts p.2 ↔
      ∀ q ∈ before, q.1.Accepts q.2 → ∀ id, q.2.Touches id → ¬p.2.Touches id := by
  refine (accepts_iff_of_log hs (holds_start base t) has hlog).trans ?_
  exact ⟨fun h q hq hok id hqid hpid ↦ (h id hpid).2 q hq hok hqid,
    fun h id hpid ↦ ⟨by simp, fun q hq hok hqid ↦ h q hq hok id hqid hpid⟩⟩

/-- From the base, a document stays until one action, the only one, has changed it. -/
theorem document?_after (hs : base.DistinctDocuments)
    (has : ∀ a ∈ as, ∃ d c node, a.Revises base d c node) (t : Supply) {b : Document}
    (hb : b ∈ base.documents) :
    ((after ⟨base, t⟩ as).solution.document? b.id = some b ∧
        ∀ p ∈ log ⟨base, t⟩ as, p.1.Accepts p.2 → ¬p.2.Touches b.id) ∨
      ∃ before p rest d u, log ⟨base, t⟩ as = before ++ p :: rest ∧ p.1.Accepts p.2 ∧
        p.2.changedDocuments p.1.supply = .ok [d] u ∧ d.id = b.id ∧ d.root ≠ b.root ∧
        (after ⟨base, t⟩ as).solution.document? b.id = some d ∧
        ∀ q ∈ before ++ rest, q.1.Accepts q.2 → ¬q.2.Touches b.id := by
  obtain ⟨added, hafter, hadded, hlog⟩ := holds_after hs (holds_start base t) has
  rw [List.append_nil] at hafter
  have hfound : (after ⟨base, t⟩ as).solution.document? b.id = some (b.updatedBy added) := by
    rw [Solution.document?_updatedBy hafter.documents, Solution.document?_of_mem hs hb,
      Option.map_some]
  by_cases hmem : b.id ∈ added.map Document.id
  · obtain ⟨m, hm, hmid⟩ := List.mem_map.1 hmem
    obtain ⟨p, hp, hok, u, hchanged⟩ := hadded m hm
    obtain ⟨before, rest, hsplit⟩ := List.append_of_mem hp
    obtain ⟨b', hb', hmb', -, hroot⟩ := hafter.changed m hm
    rw [← Solution.eq_of_id_eq hs hb hb' (hmid.symm.trans hmb')] at hroot
    have htouches : p.2.Touches b.id :=
      ⟨p.1.supply, [m], u, hchanged, List.mem_singleton.2 hmid.symm⟩
    refine Or.inr ⟨before, p, rest, m, u, hsplit, hok, hchanged, hmid, hroot, ?_, ?_⟩
    · rw [hfound, Document.updatedBy_of_mem hafter.distinct hm hmid]
    · intro q hq hqok hqid
      rcases List.mem_append.1 hq with hq | hq
      · -- an earlier success on the document would have made `p` fail
        exact (accepts_iff_of_start hs has t hsplit).1 hok q hq hqok b.id hqid htouches
      · -- and after `p` a later action on it fails
        obtain ⟨between, behind, rfl⟩ := List.append_of_mem hq
        have hlater : log ⟨base, t⟩ as = (before ++ p :: between) ++ q :: behind := by
          simp [hsplit]
        exact (accepts_iff_of_start hs has t hlater).1 hqok p (by simp) hok b.id htouches hqid
  · rw [Document.updatedBy_of_not_mem fun m hm hmid ↦ hmem (List.mem_map.2 ⟨m, hm, hmid⟩)]
      at hfound
    exact Or.inl ⟨hfound, fun p hp hok hid ↦ hmem (hlog p hp hok b.id hid)⟩

/-! ## Two orders -/

theorem after_two (hs : base.DistinctDocuments) {d' : Document} {c' : TreeContext} {node' : Node}
    (ha : a.Revises base d c node) (hb : b.Revises base d' c' node') (hne : d'.id ≠ d.id)
    (t : Supply) :
    Accepts ⟨base, t⟩ a ∧ (next ⟨base, t⟩ a).Accepts b ∧
      ∃ u, (after ⟨base, t⟩ [a, b]).solution.documents = base.documents.map fun x ↦
        x.updatedBy [d'.revision c' node' u, d.revision c node t] := by
  obtain ⟨hoka, hnext⟩ := (holds_start base t).next_of_fresh hs ha (by simp)
  obtain ⟨hokb, hnext'⟩ := hnext.next_of_fresh hs hb (by simpa using hne)
  exact ⟨hoka, hokb, _, hnext'.documents⟩

/-- New versions of different documents show the same in either order. -/
theorem shown_updatedBy_comm {x m n m' n' : Document} (hne : m.id ≠ n.id)
    (hm : m.shown = m'.shown) (hn : n.shown = n'.shown) :
    (x.updatedBy [m, n]).shown = (x.updatedBy [n', m']).shown := by
  have hmid : m'.id = m.id := (congrArg Prod.fst hm).symm
  have hnid : n'.id = n.id := (congrArg Prod.fst hn).symm
  rw [Document.updatedBy_cons, Document.updatedBy_cons, Document.updatedBy_nil,
    Document.updatedBy_cons, Document.updatedBy_cons, Document.updatedBy_nil, hmid, hnid]
  by_cases hx : n.id = x.id
  · have hx' : m.id ≠ x.id := fun h ↦ hne (h.trans hx.symm)
    rw [if_neg hx', if_pos hx, if_pos hx]
    exact hn
  · rw [if_neg hx, if_neg hx]
    by_cases hx' : m.id = x.id
    · rw [if_pos hx', if_pos hx']
      exact hm
    · rw [if_neg hx', if_neg hx']

theorem after_comm (hs : base.DistinctDocuments) {d' : Document} {c' : TreeContext} {node' : Node}
    (ha : a.Revises base d c node) (hb : b.Revises base d' c' node') (hne : d'.id ≠ d.id)
    (t u : Supply) :
    Accepts ⟨base, t⟩ a ∧ (next ⟨base, t⟩ a).Accepts b ∧
      Accepts ⟨base, u⟩ b ∧ (next ⟨base, u⟩ b).Accepts a ∧
      (after ⟨base, t⟩ [a, b]).solution.documents.map (fun x ↦ (x.id, x.version, x.text)) =
        (after ⟨base, u⟩ [b, a]).solution.documents.map fun x ↦ (x.id, x.version, x.text) := by
  obtain ⟨hok, hok', v, hdocuments⟩ := after_two hs ha hb hne t
  obtain ⟨hok₂, hok₂', v₂, hdocuments₂⟩ := after_two hs hb ha hne.symm u
  refine ⟨hok, hok', hok₂, hok₂', ?_⟩
  rw [hdocuments, hdocuments₂, List.map_map, List.map_map]
  exact List.map_congr_left fun x _ ↦ shown_updatedBy_comm hne
    (d'.shown_revision_eq c' node' v u) (d.shown_revision_eq c node t v₂)

end Running

/-! ## No lost update -/

theorem CodeAction.OfferedOver.revises {base : Solution} {a : CodeAction} (hs : base.Distinct)
    (h : a.OfferedOver base) : ∃ d c node, a.Revises base d c node := by
  obtain ⟨preference, ctx, s, actions, s', rfl, hhost, hfixes, ha⟩ := h
  obtain ⟨o, d, n, name, -, hmade⟩ := Serialization.made_of_mem_fixes hs hhost hfixes ha
  obtain ⟨c, updated, -, -, hrevises⟩ := hmade.revises hs
  exact ⟨d, c, updated, hrevises⟩

/-- **No update is lost, in whatever order.** Each action offered over a snapshot touches one
document of it. In a run that starts from the snapshot an action succeeds exactly if no earlier
action that succeeded touched its document. In the end a document is the one of the snapshot and no
action that succeeded touched it, or it is what the one such action computed. Two actions on
different documents can be applied in both orders, with the same documents in the end. -/
theorem Running.no_lost_update {base : Solution} {as : List CodeAction} (hs : base.Distinct)
    (has : ∀ a ∈ as, a.OfferedOver base) (t : Supply) :
    (∀ a ∈ as, ∃ b ∈ base.documents, ∀ id, a.Touches id ↔ id = b.id) ∧
    (∀ before p after, log ⟨base, t⟩ as = before ++ p :: after →
      (p.1.Accepts p.2 ↔
        ∀ q ∈ before, q.1.Accepts q.2 → ∀ id, q.2.Touches id → ¬p.2.Touches id)) ∧
    (after ⟨base, t⟩ as).solution.documents.map Document.id = base.documents.map Document.id ∧
    (∀ b ∈ base.documents,
      ((after ⟨base, t⟩ as).solution.document? b.id = some b ∧
        ∀ p ∈ log ⟨base, t⟩ as, p.1.Accepts p.2 → ¬p.2.Touches b.id) ∨
      ∃ before p rest d u, log ⟨base, t⟩ as = before ++ p :: rest ∧ p.1.Accepts p.2 ∧
        p.2.changedDocuments p.1.supply = .ok [d] u ∧ d.id = b.id ∧ d.root ≠ b.root ∧
        (after ⟨base, t⟩ as).solution.document? b.id = some d ∧
        ∀ q ∈ before ++ rest, q.1.Accepts q.2 → ¬q.2.Touches b.id) ∧
    ∀ a b : CodeAction, a.OfferedOver base → b.OfferedOver base →
      (∀ id, a.Touches id → ¬b.Touches id) → ∀ u,
        Accepts ⟨base, t⟩ a ∧ (next ⟨base, t⟩ a).Accepts b ∧
        Accepts ⟨base, u⟩ b ∧ (next ⟨base, u⟩ b).Accepts a ∧
        (after ⟨base, t⟩ [a, b]).solution.documents.map (fun x ↦ (x.id, x.version, x.text)) =
          (after ⟨base, u⟩ [b, a]).solution.documents.map fun x ↦ (x.id, x.version, x.text) := by
  have hrevises : ∀ a ∈ as, ∃ d c node, a.Revises base d c node :=
    fun a ha ↦ (has a ha).revises hs
  refine ⟨fun a ha ↦ ?_, fun before p rest hlog ↦
    accepts_iff_of_start hs.documents hrevises t hlog, ?_,
    fun b hb ↦ document?_after hs.documents hrevises t hb, fun a b ha hb hdisjoint u ↦ ?_⟩
  · obtain ⟨d, c, node, hd⟩ := hrevises a ha
    exact ⟨d, hd.document, fun id ↦ touches_iff hs.documents hd⟩
  · obtain ⟨added, hafter, -⟩ := holds_after hs.documents (holds_start base t) hrevises
    rw [hafter.documents, List.map_map]
    exact List.map_congr_left fun x _ ↦ x.updatedBy_id _
  · obtain ⟨d, c, node, hda⟩ := ha.revises hs
    obtain ⟨d', c', node', hdb⟩ := hb.revises hs
    have hne : d'.id ≠ d.id := fun h ↦ hdisjoint d.id ((touches_iff hs.documents hda).2 rfl)
      ((touches_iff hs.documents hdb).2 h.symm)
    exact after_comm hs.documents hda hdb hne t u

/-- Applied twice, the action that excludes the field of `Holder` succeeds once. -/
theorem Running.twice_succeeds_once :
    ∃ a : CodeAction, a.OfferedOver Holder.solution ∧ Accepts ⟨Holder.solution, ⟨100⟩⟩ a ∧
      ¬(next ⟨Holder.solution, ⟨100⟩⟩ a).Accepts a := by
  have hdistinct : Holder.context.solution.Distinct := by decide
  have hdocument : Holder.document ∈ Holder.context.solution.documents := by decide
  have hfield : Holder.field ∈ Holder.document.root.preorder := by decide
  have htype : Holder.type ∈ Holder.document.root.preorder := by decide
  have hreference : Serialization.referenceToMark? Holder.context =
      some ⟨Holder.document.id, Holder.type⟩ := by decide +kernel
  obtain ⟨a, u, hfirst, -⟩ := Serialization.excludeFieldAction_of_class .auto hdocument hfield rfl
    rfl ⟨⟨100⟩, false⟩
  obtain ⟨b, u', hsecond, -⟩ := Serialization.markTypeAction?_of_class .auto hdistinct rfl
    hreference hdocument htype rfl (by decide) rfl (s := ⟨u, false⟩) rfl
  have ha : a.OfferedOver Holder.solution :=
    ⟨.auto, Holder.context, _, _, _, rfl, rfl, Serialization.fixes_of_candidates
      (s := ⟨⟨100⟩, false⟩) rfl rfl (by decide) hfirst hsecond, List.mem_cons_self⟩
  have hall : ∀ x ∈ [a, a], x.OfferedOver Holder.solution := by simpa using ha
  have h := no_lost_update hdistinct hall ⟨100⟩
  have hok := (h.2.1 [] _ _ rfl).2 (by simp)
  refine ⟨a, ha, hok, fun hagain ↦ ?_⟩
  obtain ⟨b, -, htouches⟩ := h.1 a List.mem_cons_self
  exact (h.2.1 [_] _ _ rfl).1 hagain _ List.mem_cons_self hok b.id ((htouches b.id).2 rfl)
    ((htouches b.id).2 rfl)

end CodeFix

/-! ## The actions of a service -/

namespace CodeFix.FixService

variable {service : FixService} {ctx : FixContext} {ps : List FixProvider} {s s' : FixState}
  {actions : List CodeAction} {a : CodeAction} {firstError : Option FixError}

theorem exists_of_mem_collect (h : collect ctx ps s = .ok (actions, firstError) s')
    (ha : a ∈ actions) :
    ∃ p ∈ ps, ∃ t found t', p.fixes ctx t = .ok found t' ∧ a ∈ found := by
  induction ps generalizing s s' actions firstError with
  | nil =>
    cases h
    cases ha
  | cons p ps ih =>
    rw [collect] at h
    obtain ⟨here, t, houtcome, hrest⟩ := bind_eq_ok_iff.1 h
    obtain ⟨⟨others, e⟩, t', hcollect, hreturn⟩ := bind_eq_ok_iff.1 hrest
    have hothers : a ∈ others → ∃ p' ∈ p :: ps, ∃ t found t', p'.fixes ctx t = .ok found t' ∧
        a ∈ found := by
      intro ha
      obtain ⟨p', hp', hfound⟩ := ih hcollect ha
      exact ⟨p', List.mem_cons_of_mem p hp', hfound⟩
    cases hfixes : p.fixes ctx s with
    | error e =>
      -- a provider that fails has found nothing
      rw [FixM.outcome_of_error hfixes] at houtcome
      cases houtcome
      cases hreturn
      exact hothers ha
    | ok found t₁ =>
      rw [FixM.outcome_of_ok hfixes] at houtcome
      cases houtcome
      cases hreturn
      rcases List.mem_append.1 ha with ha | ha
      · exact ⟨p, List.mem_cons_self, s, found, _, hfixes, ha⟩
      · exact hothers ha

/-- **Every action comes from a provider** for the rule of the diagnostic. -/
theorem exists_of_mem_fixesFor (h : service.fixesFor ctx s = .ok actions s') (ha : a ∈ actions) :
    ∃ p ∈ service.providersFor ctx.diagnostic.id, ∃ t found t', p.fixes ctx t = .ok found t' ∧
      a ∈ found := by
  rw [fixesFor] at h
  obtain ⟨⟨found, e⟩, t, hcollect, hsettle⟩ := bind_eq_ok_iff.1 h
  have hsame : found = actions := by
    cases found <;> cases e <;> cases hsettle <;> rfl
  exact exists_of_mem_collect hcollect (hsame ▸ ha)

theorem offeredOver_of_mem_fixesFor {preference : NameStylePreference}
    (hhost : ctx.host = snapshotHost)
    (h : (builtIn preference).fixesFor ctx s = .ok actions s') (ha : a ∈ actions) :
    a.OfferedOver ctx.solution := by
  obtain ⟨p, hp, t, found, t', hfixes, hfound⟩ := exists_of_mem_fixesFor h ha
  obtain rfl := List.mem_singleton.1 (List.mem_filter.1 hp).1
  exact ⟨preference, ctx, t, found, t', rfl, hhost, hfixes, hfound⟩

end CodeFix.FixService
