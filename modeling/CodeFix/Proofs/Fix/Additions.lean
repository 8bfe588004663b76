import CodeFix.Proofs.Fix.Apply
import CodeFix.Proofs.Fix.Offer
import CodeFix.Proofs.Syntax.Sketch

/-!
# Payloads that add documents

A payload may hold documents that the base does not have. Layout takes them like any other, and they
are reported as changed. Applying does not: every document that is put in is first looked up in the
current solution, and one that the payload adds is nowhere to be found, not even in the base itself.
So an action can be applied to the snapshot that it was derived from exactly if it adds no document
(`apply_base_iff`), and the first document that it adds is the one that the failure names.

What is asked of a payload is only that it can be filed: ids are not used twice, and a document of
the base stays in its project (`Payload.Filed`). Then computing it cannot fail.
-/

namespace CodeFix

variable {base s s' : Solution} {b d x : Document} {t : Supply}

/-! ## Where documents are filed -/

/-- What says where a document is filed. -/
def Document.filing (d : Document) : DocumentId × ProjectId := (d.id, d.project)

namespace Solution

theorem map_filing_updatedBy (hs : s.DistinctDocuments) (hd : s.Knows d)
    (h : s'.documents = s.documents.map fun x ↦ x.updatedBy [d]) :
    s'.documents.map Document.filing = s.documents.map Document.filing := by
  obtain ⟨b, hb, hid, hproject⟩ := hd
  rw [h, List.map_map]
  refine List.map_congr_left fun x hx ↦ ?_
  rcases updatedBy_cases hs hb hid.symm hx with ⟨rfl, hupdated⟩ | ⟨-, hupdated⟩
  · rw [Function.comp_apply, hupdated, Document.filing, Document.filing, hid, hproject]
  · rw [Function.comp_apply, hupdated]

theorem distinctDocuments_of_map_filing_eq (hs : s.DistinctDocuments)
    (h : s'.documents.map Document.filing = s.documents.map Document.filing) :
    s'.DistinctDocuments := by
  have hids := congrArg (List.map Prod.fst) h
  rw [List.map_map, List.map_map] at hids
  exact (congrArg List.Nodup hids).mpr hs

theorem sameProjects_of_map_filing_eq (hs : s.SameProjects base)
    (h : s'.documents.map Document.filing = s.documents.map Document.filing) :
    s'.SameProjects base := by
  intro x hx y hy hid
  have hmem : x.filing ∈ s.documents.map Document.filing := h ▸ List.mem_map_of_mem hx
  obtain ⟨x', hx', hfiling⟩ := List.mem_map.1 hmem
  obtain ⟨hid', hproject'⟩ := Prod.mk.inj hfiling
  exact hproject'.symm.trans (hs x' hx' y hy (hid'.trans hid))

theorem knows_of_map_filing_eq
    (h : s'.documents.map Document.filing = s.documents.map Document.filing) (hd : s.Knows d) :
    s'.Knows d := by
  obtain ⟨b, hb, hid, hproject⟩ := hd
  have hmem : b.filing ∈ s'.documents.map Document.filing := h ▸ List.mem_map_of_mem hb
  obtain ⟨b', hb', hfiling⟩ := List.mem_map.1 hmem
  obtain ⟨hid', hproject'⟩ := Prod.mk.inj hfiling
  exact ⟨b', hb', hid'.trans hid, hproject'.trans hproject⟩

theorem exists_withDocument? (hs : s.DistinctDocuments) (hproject : (s.project? d.project).isSome)
    (hsame : ∀ b ∈ s.documents, d.id = b.id → d.project = b.project) :
    ∃ s', s.withDocument? d = some s' ∧ s'.DistinctDocuments ∧ s'.SameProjects s := by
  obtain ⟨p, hp⟩ := Option.isSome_iff_exists.1 hproject
  have hwith := withDocument?_eq_some hp
  refine ⟨_, hwith, distinctDocuments_iff.2 fun x hx y hy hid ↦ ?_, fun x hx y hy hid ↦ ?_⟩
  · rcases mem_documents_withDocument? hwith hx with hxd | hx' <;>
      rcases mem_documents_withDocument? hwith hy with hyd | hy'
    · rw [hxd, hyd]
    · rw [hxd] at hid ⊢
      exact hsame y hy' hid
    · rw [hyd] at hid ⊢
      exact (hsame x hx' hid.symm).symm
    · exact sameProjects_self hs x hx' y hy' hid
  · rcases mem_documents_withDocument? hwith hx with rfl | hx
    · exact hsame y hy hid
    · exact sameProjects_self hs x hx y hy hid

theorem knows_of_isSome (hprojects : s.SameProjects base) (hd : d ∈ s.documents)
    (h : (base.document? d.id).isSome) : base.Knows d := by
  obtain ⟨b, hb⟩ := Option.isSome_iff_exists.1 h
  have hmem : b ∈ base.documents := List.mem_of_find?_eq_some hb
  have hid : b.id = d.id := by simpa using List.find?_some hb
  exact ⟨b, hmem, hid, (hprojects d hd b hmem hid.symm).symm⟩

end Solution

/-! ## Payloads that can be filed -/

/-- The payload can be filed along with the base: no id is used twice, the documents that the base
has are in the projects that it has them in, and a document that comes alone is for one of them. -/
def Payload.Filed (base : Solution) : Payload → Prop
  | .document d => (base.project? d.project).isSome ∧
      ∀ b ∈ base.documents, d.id = b.id → d.project = b.project
  | .solution s => s.DistinctDocuments ∧ s.SameProjects base

namespace CodeAction

variable {a : CodeAction} {payload produced : Payload} {u : Supply}

/-- **Layout cannot fail**, and it leaves every document where it is filed. -/
theorem layoutDocuments_ok {original : Solution} (horiginal : original.DistinctDocuments)
    (ids : List DocumentId)
    (hs : s.documents.map Document.filing = original.documents.map Document.filing) (t : Supply) :
    ∃ s' u, layoutDocuments original ids s t = .ok s' u ∧
      s'.documents.map Document.filing = original.documents.map Document.filing := by
  induction ids generalizing s t with
  | nil => exact ⟨s, t, rfl, hs⟩
  | cons id ids ih =>
    cases hd : original.document? id with
    | none =>
      rw [layoutDocuments, hd]
      exact ih hs t
    | some d =>
      obtain ⟨hlaidId, hlaidProject, -⟩ := d.layout_fields t
      have hdistinct := Solution.distinctDocuments_of_map_filing_eq horiginal hs
      obtain ⟨b, hb, hid, hproject⟩ := Solution.knows_of_map_filing_eq hs <|
        Solution.knows_of_mem ((Solution.document?_eq_some_iff horiginal).1 hd).1
      have hknows : s.Knows (d.layout t).1 :=
        ⟨b, hb, hid.trans hlaidId.symm, hproject.trans hlaidProject.symm⟩
      obtain ⟨next, hwith, hdocuments⟩ := Solution.documents_withDocument? hdistinct hb
        (hid.trans hlaidId.symm) (hproject.trans hlaidProject.symm)
      obtain ⟨s', u, hrun, hfiling⟩ := ih
        ((Solution.map_filing_updatedBy hdistinct hknows hdocuments).trans hs) (d.layout t).2
      refine ⟨s', u, ?_, hfiling⟩
      have hlayout : (liftM d.layout : EditM Document) t = .ok (d.layout t).1 (d.layout t).2 :=
        Supply.liftM_of_eq rfl
      rw [layoutDocuments, hd]
      refine (bind_of_ok hlayout).trans ?_
      rw [hwith]
      exact hrun

/-- A payload that can be filed is computed and filed, whatever documents it adds. -/
theorem changedSolution_of_filed (hbase : a.base.DistinctDocuments)
    (hproduce : a.producer t = .ok produced u) (hfiled : produced.Filed a.base) :
    ∃ payload changed v, a.compute t = .ok payload v ∧ a.changedSolution t = .ok changed v ∧
      changed.DistinctDocuments ∧ changed.SameProjects a.base := by
  cases produced with
  | document d =>
    obtain ⟨hproject, hsame⟩ := hfiled
    obtain ⟨hlaidId, hlaidProject, -⟩ := d.layout_fields u
    have hlaid : ∀ b ∈ a.base.documents, (d.layout u).1.id = b.id →
        (d.layout u).1.project = b.project := by
      rw [hlaidId, hlaidProject]
      exact hsame
    obtain ⟨changed, hwith, hdistinct, hprojects⟩ :=
      Solution.exists_withDocument? hbase (hlaidProject ▸ hproject) hlaid
    have hcompute : a.compute t = .ok (.document (d.layout u).1) (d.layout u).2 := by
      rw [compute, bind_of_ok hproduce]
      exact bind_of_ok (Supply.liftM_of_eq rfl)
    refine ⟨_, changed, _, hcompute, ?_, hdistinct, hprojects⟩
    rw [changedSolution, bind_of_ok hcompute]
    change EditM.ofOption _ (a.base.withDocument? (d.layout u).1) _ = _
    rw [hwith]
    rfl
  | solution s =>
    obtain ⟨changed, v, hlayout, hfiling⟩ := layoutDocuments_ok hfiled.1 (s.changedIds a.base) rfl u
    have hcompute : a.compute t = .ok (.solution changed) v := by
      rw [compute, bind_of_ok hproduce]
      exact bind_of_ok hlayout
    refine ⟨_, changed, v, hcompute, ?_,
      Solution.distinctDocuments_of_map_filing_eq hfiled.1 hfiling,
      Solution.sameProjects_of_map_filing_eq hfiled.2 hfiling⟩
    rw [changedSolution, bind_of_ok hcompute]
    rfl

/-! ## Applying to the base -/

section Base

variable {changed : Solution} {v : Supply}

theorem apply_base_eq (hsolution : a.changedSolution t = .ok changed v)
    (hdistinct : changed.DistinctDocuments) :
    a.apply a.base t =
      match a.putDocuments a.base (changed.documents.filter a.base.isChange) a.base with
      | .ok result => .ok result v
      | .error e => .error e v := by
  refine apply_of_changedDocuments ?_ a.base
  rw [changedDocuments, bind_of_ok hsolution, Solution.changedDocuments_eq_filter hdistinct]
  rfl

theorem apply_base_of_no_addition (hbase : a.base.DistinctDocuments)
    (hsolution : a.changedSolution t = .ok changed v) (hdistinct : changed.DistinctDocuments)
    (hprojects : changed.SameProjects a.base)
    (hknown : ∀ d ∈ changed.documents, (a.base.document? d.id).isSome) :
    ∃ result, a.apply a.base t = .ok result v ∧ ∀ d ∈ changed.documents,
      ∃ r, result.document? d.id = some r ∧ r.root = d.root ∧ r.version = d.version := by
  have hknows : ∀ d ∈ changed.documents.filter a.base.isChange, a.base.Knows d := fun d hd ↦
    Solution.knows_of_isSome hprojects (List.mem_of_mem_filter hd)
      (hknown d (List.mem_of_mem_filter hd))
  have hnodup : ((changed.documents.filter a.base.isChange).map Document.id).Nodup :=
    hdistinct.sublist (List.filter_sublist.map Document.id)
  obtain ⟨result, hput, hdocuments⟩ := putDocuments_of_fresh hknows
    (fun d hd ↦ fresh_base (hknows d hd)) hnodup hbase hknows
  refine ⟨result, by rw [apply_base_eq hsolution hdistinct, hput], fun d hd ↦ ?_⟩
  obtain ⟨b, hb⟩ := Option.isSome_iff_exists.1 (hknown d hd)
  by_cases hchange : a.base.isChange d = true
  · exact ⟨d, Solution.document?_of_updatedBy hdocuments hnodup
      (List.mem_filter.2 ⟨hd, hchange⟩) hb, rfl, rfl⟩
  · -- what is not put in is in the base, with the same version and tree
    have hothers : ∀ n ∈ changed.documents.filter a.base.isChange, n.id ≠ d.id := by
      intro n hn hid
      obtain ⟨hmem, hn⟩ := List.mem_filter.1 hn
      rw [Solution.eq_of_id_eq hdistinct hmem hd hid] at hn
      exact hchange hn
    have hsame : (b.version != d.version || b.root != d.root) = false := by
      rw [Solution.isChange, hb] at hchange
      exact Bool.eq_false_iff.2 hchange
    obtain ⟨hversion, hroot⟩ := Bool.or_eq_false_iff.1 hsame
    refine ⟨b, (Solution.document?_of_not_updatedBy hdocuments hothers).trans hb, ?_, ?_⟩
    · simpa using hroot
    · simpa using hversion

theorem apply_base_of_addition (hbase : a.base.DistinctDocuments)
    (hsolution : a.changedSolution t = .ok changed v) (hdistinct : changed.DistinctDocuments)
    (hprojects : changed.SameProjects a.base) {before after : List Document}
    (hsplit : changed.documents = before ++ d :: after)
    (hbefore : ∀ n ∈ before, (a.base.document? n.id).isSome) (hd : a.base.document? d.id = none) :
    a.apply a.base t = .error (.documentNotFound d.path.text) v := by
  have hchange : a.base.isChange d = true := by rw [Solution.isChange, hd]
  have hknows : ∀ n ∈ before.filter a.base.isChange, a.base.Knows n := fun n hn ↦
    Solution.knows_of_isSome hprojects (hsplit ▸ List.mem_append_left _ (List.mem_of_mem_filter hn))
      (hbefore n (List.mem_of_mem_filter hn))
  have hnodup : ((before.filter a.base.isChange).map Document.id).Nodup := by
    rw [Solution.DistinctDocuments, hsplit, List.map_append] at hdistinct
    exact hdistinct.of_append_left.sublist (List.filter_sublist.map Document.id)
  have hobstacle : a.obstacle? a.base d = some (.documentNotFound d.path.text) := by
    rw [obstacle?, hd]
  rw [apply_base_eq hsolution hdistinct, hsplit, List.filter_append,
    List.filter_cons_of_pos hchange, putDocuments_of_obstacle hknows
      (fun n hn ↦ fresh_base (hknows n hn)) hnodup hbase hknows hobstacle]

end Base

/-- **An action on its own base.** A payload that can be filed is computed, whatever it adds.
Applied to the base the action succeeds exactly if the payload adds no document; then every document
of the changed solution is in the result, with its tree and its version. Otherwise the first added
document is reported as missing. -/
theorem apply_base_iff (hbase : a.base.DistinctDocuments)
    (hproduce : a.producer t = .ok produced u) (hfiled : produced.Filed a.base) :
    ∃ payload changed v,
      a.compute t = .ok payload v ∧ a.changedSolution t = .ok changed v ∧
      ((∃ result w, a.apply a.base t = .ok result w) ↔
        ∀ d ∈ changed.documents, (a.base.document? d.id).isSome) ∧
      (∀ result w, a.apply a.base t = .ok result w → ∀ d ∈ changed.documents,
        ∃ r, result.document? d.id = some r ∧ r.root = d.root ∧ r.version = d.version) ∧
      ∀ before d after, changed.documents = before ++ d :: after →
        (∀ n ∈ before, (a.base.document? n.id).isSome) → a.base.document? d.id = none →
        ∃ w, a.apply a.base t = .error (.documentNotFound d.path.text) w := by
  obtain ⟨payload, changed, v, hcompute, hsolution, hdistinct, hprojects⟩ :=
    changedSolution_of_filed hbase hproduce hfiled
  have hadded : ∀ before d after, changed.documents = before ++ d :: after →
      (∀ n ∈ before, (a.base.document? n.id).isSome) → a.base.document? d.id = none →
      a.apply a.base t = .error (.documentNotFound d.path.text) v := fun before d after hsplit ↦
    apply_base_of_addition hbase hsolution hdistinct hprojects hsplit
  have hknown : ∀ result w, a.apply a.base t = .ok result w →
      ∀ d ∈ changed.documents, (a.base.document? d.id).isSome := by
    intro result w happly
    -- the first document that the base does not have would have made it fail
    cases hfirst : changed.documents.find? fun d ↦ (a.base.document? d.id).isNone with
    | none =>
      exact fun d hd ↦ by simpa [Option.isSome_iff_ne_none] using List.find?_eq_none.1 hfirst d hd
    | some d =>
      obtain ⟨hd, before, after, hsplit, hbefore⟩ := List.find?_eq_some_iff_append.1 hfirst
      have hfails := hadded before d after hsplit (fun n hn ↦ by simpa using hbefore n hn)
        (Option.isNone_iff_eq_none.1 hd)
      cases hfails.symm.trans happly
  refine ⟨payload, changed, v, hcompute, hsolution,
    ⟨fun ⟨result, w, happly⟩ ↦ hknown result w happly, fun hall ↦ ?_⟩, fun result w happly ↦ ?_,
    fun before d after hsplit hbefore hd ↦ ⟨v, hadded before d after hsplit hbefore hd⟩⟩
  · obtain ⟨result, happly, -⟩ :=
      apply_base_of_no_addition hbase hsolution hdistinct hprojects hall
    exact ⟨result, v, happly⟩
  · obtain ⟨result', happly', hcontains⟩ :=
      apply_base_of_no_addition hbase hsolution hdistinct hprojects (hknown result w happly)
    cases happly.symm.trans happly'
    exact hcontains

/-! ### A file beside the one of `Holder` -/

private def rewrittenHolder : Document :=
  Holder.document.withRoot { Holder.document.root with head.stamp := ⟨50, []⟩ }

private def besideHolder : Document :=
  .create ⟨1⟩ ⟨0⟩ ⟨"Foo.cs"⟩ ⟨⟨⟨100⟩, ⟨100, []⟩, Kind.compilationUnit, false⟩, [.node Holder.type]⟩

private def rewrittenProject : Project :=
  (Project.create "Holder" ⟨0⟩).1.withDocument rewrittenHolder rfl

private def splitHolder (p : Project) : CodeAction where
  title := "Split"
  equivalenceKey := "Split"
  base := Holder.solution
  producer := return .solution (Solution.empty.withProject p)

/-- Rewriting the file of `Holder` can be applied to the snapshot it was derived from. -/
theorem apply_base_iff_holder :
    ∃ result w, (splitHolder rewrittenProject).apply Holder.solution ⟨200⟩ = .ok result w := by
  have hdistinct : Holder.solution.DistinctDocuments := by decide
  have hfiled : (Payload.solution (Solution.empty.withProject rewrittenProject)).Filed
      Holder.solution := ⟨by decide, by decide⟩
  obtain ⟨payload, changed, v, -, hsolution, happly, -⟩ :=
    apply_base_iff (a := splitHolder rewrittenProject) (t := ⟨200⟩) hdistinct rfl hfiled
  refine happly.2 fun d hd ↦ ?_
  have hchanged : (splitHolder rewrittenProject).changedSolution ⟨200⟩ =
      .ok (Solution.empty.withProject rewrittenProject) ⟨200⟩ := rfl
  cases hsolution.symm.trans hchanged
  have hmem : d ∈ [rewrittenHolder] := hd
  rw [List.mem_singleton.1 hmem]
  rfl

/-- With the file `Foo.cs` added to the project the action still computes, but on its own base it
fails. -/
theorem apply_base_fails_of_added_file :
    (Payload.solution (Solution.empty.withProject
      (rewrittenProject.withDocument besideHolder rfl))).Filed Holder.solution ∧
    (∃ payload u, (splitHolder (rewrittenProject.withDocument besideHolder rfl)).compute ⟨200⟩ =
      .ok payload u) ∧
    (splitHolder (rewrittenProject.withDocument besideHolder rfl)).apply Holder.solution ⟨200⟩ =
      .error (.documentNotFound "Foo.cs") ⟨200⟩ :=
  ⟨⟨by decide, by decide⟩, ⟨_, _, rfl⟩, rfl⟩

end CodeAction

end CodeFix
