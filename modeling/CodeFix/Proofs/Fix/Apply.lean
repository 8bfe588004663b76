import CodeFix.Proofs.Fix.Outcome
import CodeFix.Proofs.Solution.Documents

/-!
# Applying an action: all documents or none

An action is applied to a solution that may have moved on since the action was computed. Whether a
document may be replaced is decided by its tree alone (`Fresh`): it must be there, and it must hold
the very tree that the base has. The first document of the payload that is not fresh decides how the
application fails (`Obstacle`).

The documents are put in one after another, so the solution that is built up is, for a while, one in
which only the first few were replaced. What keeps this from showing is that the obstacles are
looked for in the *current* solution and never in the one being built: putting in a document cannot
make a later one look fresh or stale, and a failure drops everything that was built.
-/

namespace CodeFix

/-! ## What a payload touches -/

namespace Payload

/-- The documents that the payload changes, in their order. -/
def touched (base : Solution) : Payload → List Document
  | .document d => [d].filter base.isChange
  | .solution s => s.documents.filter base.isChange

/-- The payload holds versions of documents of the base and nothing else. -/
def Within (base : Solution) : Payload → Prop
  | .document d => base.Knows d
  | .solution s => ∀ d ∈ s.documents, base.Knows d

variable {base : Solution} {payload : Payload} {d : Document}

theorem knows_of_mem_touched (h : payload.Within base) (hd : d ∈ payload.touched base) :
    base.Knows d := by
  cases payload with
  | document n =>
    rw [List.mem_singleton.1 (List.mem_of_mem_filter hd)]
    exact h
  | solution s => exact h d (List.mem_of_mem_filter hd)

theorem nodup_touched (hbase : base.DistinctDocuments) (h : payload.Within base) :
    ((payload.touched base).map Document.id).Nodup := by
  cases payload with
  | document n => exact (List.nodup_singleton n.id).sublist (List.filter_sublist.map Document.id)
  | solution s =>
    exact (Solution.distinctDocuments_of_knows hbase h).sublist
      (List.filter_sublist.map Document.id)

end Payload

namespace CodeAction

variable {a : CodeAction} {current result : Solution} {d : Document} {ds : List Document}
  {payload : Payload} {t t' : Supply}

/-- What a payload touches is what its action reports as changed. -/
theorem changedDocuments_of_compute (hbase : a.base.DistinctDocuments)
    (hcompute : a.compute t = .ok payload t') (hwithin : payload.Within a.base) :
    a.changedDocuments t = .ok (payload.touched a.base) t' := by
  cases payload with
  | document d =>
    obtain ⟨b, hb, hid, hproject⟩ := hwithin
    obtain ⟨s, hs, hdocuments⟩ := Solution.documents_withDocument? hbase hb hid hproject
    have hsolution : a.changedSolution t = .ok s t' := by
      rw [changedSolution, bind_of_ok hcompute]
      change EditM.ofOption _ (a.base.withDocument? d) t' = _
      rw [hs]
      rfl
    have hdistinct := Solution.distinctDocuments_of_updatedBy hbase hdocuments
    rw [changedDocuments, bind_of_ok hsolution, Solution.changedDocuments_eq_filter hdistinct,
      hdocuments, Solution.filter_isChange_updatedBy hbase ⟨b, hb, hid, hproject⟩]
    rfl
  | solution s =>
    have hsolution : a.changedSolution t = .ok s t' := by
      rw [changedSolution, bind_of_ok hcompute]
      rfl
    have hdistinct := Solution.distinctDocuments_of_knows hbase hwithin
    rw [changedDocuments, bind_of_ok hsolution, Solution.changedDocuments_eq_filter hdistinct]
    rfl

/-! ## Fresh documents and obstacles -/

/-- The current solution still holds the tree that the base has for the document. Versions do not
matter. -/
def Fresh (a : CodeAction) (current : Solution) (d : Document) : Prop :=
  ∃ b f, a.base.document? d.id = some b ∧ current.document? d.id = some f ∧ b.root = f.root

/-- Why a document must not be put into the current solution. -/
inductive Obstacle (a : CodeAction) (current : Solution) (d : Document) : FixError → Prop
  /-- The document is gone. -/
  | missing (h : current.document? d.id = none) :
      Obstacle a current d (.documentNotFound d.path.text)
  /-- The document holds another tree than in the base. -/
  | stale {b f : Document} (hb : a.base.document? d.id = some b)
      (hf : current.document? d.id = some f) (h : b.root ≠ f.root) :
      Obstacle a current d (.staleSnapshot d.path.text b.version f.version)

theorem Obstacle.isStale {e : FixError} (h : a.Obstacle current d e) : e.isStale = true := by
  cases h <;> rfl

theorem Obstacle.not_fresh {e : FixError} (h : a.Obstacle current d e) : ¬a.Fresh current d := by
  rintro ⟨b, f, hb, hf, hroot⟩
  cases h with
  | missing h => rw [hf] at h; cases h
  | stale hb' hf' h =>
    cases hb.symm.trans hb'
    cases hf.symm.trans hf'
    exact h hroot

theorem obstacle?_cases (current : Solution) (hd : a.base.Knows d) :
    (a.obstacle? current d = none ∧ a.Fresh current d) ∨
      ∃ e, a.obstacle? current d = some e ∧ a.Obstacle current d e := by
  obtain ⟨b, hb, hid, -⟩ := hd
  rw [obstacle?]
  cases hf : current.document? d.id with
  | none => exact Or.inr ⟨_, rfl, .missing hf⟩
  | some f =>
    cases hb' : a.base.document? d.id with
    | none => exact absurd hid (Solution.document?_eq_none_iff.1 hb' b hb)
    | some b' =>
      by_cases hroot : b'.root = f.root
      · exact Or.inl ⟨if_pos hroot, b', f, hb', hf, hroot⟩
      · exact Or.inr ⟨_, if_neg hroot, .stale hb' hf hroot⟩

theorem obstacle?_eq_none (hd : a.base.Knows d) (h : a.Fresh current d) :
    a.obstacle? current d = none := by
  rcases obstacle?_cases current hd with ⟨hnone, -⟩ | ⟨e, -, he⟩
  · exact hnone
  · exact absurd h he.not_fresh

theorem Fresh.knows (hcurrent : current.DistinctDocuments)
    (hprojects : a.base.SameProjects current) (hd : a.base.Knows d) (h : a.Fresh current d) :
    current.Knows d := by
  obtain ⟨b, hb, hid, hproject⟩ := hd
  obtain ⟨-, f, -, hf, -⟩ := h
  obtain ⟨hfmem, hfid⟩ := (Solution.document?_eq_some_iff hcurrent).1 hf
  exact ⟨f, hfmem, hfid, (hprojects b hb f hfmem (hid.trans hfid.symm)).symm.trans hproject⟩

/-! ## Putting documents in -/

theorem putDocuments_of_fresh (hknown : ∀ d ∈ ds, a.base.Knows d)
    (hfresh : ∀ d ∈ ds, a.Fresh current d) (hds : (ds.map Document.id).Nodup)
    (hresult : result.DistinctDocuments) (hknows : ∀ d ∈ ds, result.Knows d) :
    ∃ result', a.putDocuments current ds result = .ok result' ∧
      result'.documents = result.documents.map fun x ↦ x.updatedBy ds := by
  induction ds generalizing result with
  | nil => exact ⟨result, rfl, (List.map_id _).symm⟩
  | cons d ds ih =>
    rw [List.map_cons, List.nodup_cons] at hds
    have hne : ∀ n ∈ ds, n.id ≠ d.id := fun n hn h ↦ hds.1 (List.mem_map.2 ⟨n, hn, h⟩)
    obtain ⟨b, hb, hid, hproject⟩ := hknows d List.mem_cons_self
    obtain ⟨next, hnext, hdocuments⟩ := Solution.documents_withDocument? hresult hb hid hproject
    obtain ⟨result', hput, hresult'⟩ := ih
      (fun n hn ↦ hknown n (List.mem_cons_of_mem d hn))
      (fun n hn ↦ hfresh n (List.mem_cons_of_mem d hn)) hds.2
      (Solution.distinctDocuments_of_updatedBy hresult hdocuments)
      (fun n hn ↦ (hknows n (List.mem_cons_of_mem d hn)).of_updatedBy (hne n hn).symm hdocuments)
    -- the obstacle is looked for in `current`, so the step to `next` does not bear on it
    refine ⟨result', ?_, ?_⟩
    · rw [putDocuments, obstacle?_eq_none (hknown d List.mem_cons_self)
        (hfresh d List.mem_cons_self), hnext]
      exact hput
    · rw [hresult', hdocuments, List.map_map]
      exact List.map_congr_left fun x _ ↦ (Document.updatedBy_cons_eq hne).symm

/-- The first obstacle fails the whole, whatever comes behind it. -/
theorem putDocuments_of_obstacle {before after : List Document} {e : FixError}
    (hknown : ∀ n ∈ before, a.base.Knows n) (hfresh : ∀ n ∈ before, a.Fresh current n)
    (hbefore : (before.map Document.id).Nodup) (hresult : result.DistinctDocuments)
    (hknows : ∀ n ∈ before, result.Knows n) (he : a.obstacle? current d = some e) :
    a.putDocuments current (before ++ d :: after) result = .error e := by
  induction before generalizing result with
  | nil => rw [List.nil_append, putDocuments, he]
  | cons n ns ih =>
    rw [List.map_cons, List.nodup_cons] at hbefore
    have hne : ∀ m ∈ ns, n.id ≠ m.id := fun m hm h ↦ hbefore.1 (List.mem_map.2 ⟨m, hm, h.symm⟩)
    obtain ⟨b, hb, hid, hproject⟩ := hknows n List.mem_cons_self
    obtain ⟨next, hnext, hdocuments⟩ := Solution.documents_withDocument? hresult hb hid hproject
    rw [List.cons_append, putDocuments, obstacle?_eq_none (hknown n List.mem_cons_self)
      (hfresh n List.mem_cons_self), hnext]
    exact ih (fun m hm ↦ hknown m (List.mem_cons_of_mem n hm))
      (fun m hm ↦ hfresh m (List.mem_cons_of_mem n hm)) hbefore.2
      (Solution.distinctDocuments_of_updatedBy hresult hdocuments)
      (fun m hm ↦ (hknows m (List.mem_cons_of_mem n hm)).of_updatedBy (hne m hm) hdocuments)

/-- Either every document is fresh and all are put in, or the first one that is not decides the
failure. -/
theorem putDocuments_cases (hcurrent : current.DistinctDocuments)
    (hprojects : a.base.SameProjects current) (hknown : ∀ d ∈ ds, a.base.Knows d)
    (hds : (ds.map Document.id).Nodup) :
    ((∀ d ∈ ds, a.Fresh current d) ∧ ∃ result, a.putDocuments current ds current = .ok result ∧
        result.documents = current.documents.map fun x ↦ x.updatedBy ds) ∨
      ∃ before d after e, ds = before ++ d :: after ∧ (∀ n ∈ before, a.Fresh current n) ∧
        a.Obstacle current d e ∧ a.putDocuments current ds current = .error e := by
  have hfresh : ∀ l : List Document, (∀ d ∈ l, a.base.Knows d) →
      (∀ d ∈ l, (a.obstacle? current d).isNone) → ∀ d ∈ l, a.Fresh current d := by
    intro l hl hnone d hd
    rcases obstacle?_cases current (hl d hd) with ⟨-, h⟩ | ⟨e, he, -⟩
    · exact h
    · have := hnone d hd
      rw [he] at this
      cases this
  cases hfirst : ds.find? fun d ↦ (a.obstacle? current d).isSome with
  | none =>
    have hall := hfresh ds hknown fun d hd ↦ by
      simpa using List.find?_eq_none.1 hfirst d hd
    exact Or.inl ⟨hall, putDocuments_of_fresh hknown hall hds hcurrent fun d hd ↦
      (hall d hd).knows hcurrent hprojects (hknown d hd)⟩
  | some d =>
    obtain ⟨hd, before, after, rfl, hbefore⟩ := List.find?_eq_some_iff_append.1 hfirst
    have hknown' : ∀ n ∈ before, a.base.Knows n :=
      fun n hn ↦ hknown n (List.mem_append_left _ hn)
    have hall := hfresh before hknown' fun n hn ↦ by simpa using hbefore n hn
    have hnodup : (before.map Document.id).Nodup := by
      rw [List.map_append] at hds
      exact hds.of_append_left
    rcases obstacle?_cases current (hknown d List.mem_append_cons_self)
      with ⟨hnone, -⟩ | ⟨e, he, hobstacle⟩
    · rw [hnone] at hd
      cases hd
    · exact Or.inr ⟨before, d, after, e, rfl, hall, hobstacle,
        putDocuments_of_obstacle hknown' hall hnodup hcurrent
          (fun n hn ↦ (hall n hn).knows hcurrent hprojects (hknown' n hn)) he⟩

/-! ## All or none -/

theorem apply_of_changedDocuments (h : a.changedDocuments t = .ok ds t') (current : Solution) :
    a.apply current t =
      match a.putDocuments current ds current with
      | .ok result => .ok result t'
      | .error e => .error e t' := by
  rw [apply, bind_of_ok h]
  cases a.putDocuments current ds current <;> rfl

theorem apply_of_compute (hbase : a.base.DistinctDocuments)
    (hcompute : a.compute t = .ok payload t') (hwithin : payload.Within a.base)
    (current : Solution) :
    a.apply current t =
      match a.putDocuments current (payload.touched a.base) current with
      | .ok result => .ok result t'
      | .error e => .error e t' :=
  apply_of_changedDocuments (changedDocuments_of_compute hbase hcompute hwithin) current

/-- Either everything that the action touches is fresh and is exchanged, or the first document that
is not decides the failure. -/
theorem apply_cases (hbase : a.base.DistinctDocuments) (hcurrent : current.DistinctDocuments)
    (hprojects : a.base.SameProjects current) (hcompute : a.compute t = .ok payload t')
    (hwithin : payload.Within a.base) :
    ((∀ d ∈ payload.touched a.base, a.Fresh current d) ∧
        ∃ result, a.apply current t = .ok result t' ∧ result.documents =
          current.documents.map fun x ↦ x.updatedBy (payload.touched a.base)) ∨
      ∃ before d after e, payload.touched a.base = before ++ d :: after ∧
        (∀ n ∈ before, a.Fresh current n) ∧ a.Obstacle current d e ∧
        a.apply current t = .error e t' := by
  have happly := apply_of_compute hbase hcompute hwithin current
  rcases putDocuments_cases hcurrent hprojects
      (fun d hd ↦ Payload.knows_of_mem_touched hwithin hd)
      (Payload.nodup_touched hbase hwithin) with
    ⟨hall, result, hput, hdocuments⟩ | ⟨before, d, after, e, hsplit, hall, he, hput⟩
  · exact Or.inl ⟨hall, result, by rw [happly, hput], hdocuments⟩
  · exact Or.inr ⟨before, d, after, e, hsplit, hall, he, by rw [happly, hput]⟩

theorem fresh_base (hd : a.base.Knows d) : a.Fresh a.base d := by
  obtain ⟨b, hb, hid, -⟩ := hd
  cases h : a.base.document? d.id with
  | none => exact absurd hid (Solution.document?_eq_none_iff.1 h b hb)
  | some b' => exact ⟨b', b', h, h, rfl⟩

theorem apply_base_of_compute (hbase : a.base.DistinctDocuments)
    (hcompute : a.compute t = .ok payload t') (hwithin : payload.Within a.base) :
    ∃ result, a.apply a.base t = .ok result t' ∧ result.documents =
      a.base.documents.map fun x ↦ x.updatedBy (payload.touched a.base) := by
  rcases apply_cases hbase hbase (Solution.sameProjects_self hbase) hcompute hwithin with
    ⟨-, h⟩ | ⟨before, x, after, e, hsplit, -, hobstacle, -⟩
  · exact h
  · exact absurd (fresh_base (Payload.knows_of_mem_touched hwithin
      (hsplit ▸ List.mem_append_cons_self))) hobstacle.not_fresh

/-- **All documents or none.** An action whose payload computes, and holds only documents of the
base, is applied exactly if every document it touches still holds the tree of the base, whatever the
versions are. Then these documents are exchanged for the computed ones and all others stay, so on
the base itself an action always succeeds. Otherwise the first document that is not fresh decides
the failure, which is one that asks for the fixes to be computed again. -/
theorem apply_all_or_none (hbase : a.base.DistinctDocuments) (hcurrent : current.DistinctDocuments)
    (hprojects : a.base.SameProjects current) (hcompute : a.compute t = .ok payload t')
    (hwithin : payload.Within a.base) :
    a.changedDocuments t = .ok (payload.touched a.base) t' ∧
    ((∃ result u, a.apply current t = .ok result u) ↔
      ∀ d ∈ payload.touched a.base, a.Fresh current d) ∧
    (∀ result u, a.apply current t = .ok result u →
      result.documents.map Document.id = current.documents.map Document.id ∧
      (∀ d ∈ payload.touched a.base, result.document? d.id = some d) ∧
      ∀ id, (∀ d ∈ payload.touched a.base, d.id ≠ id) →
        result.document? id = current.document? id) ∧
    (∀ e u, a.apply current t = .error e u → e.isStale = true ∧
      ∃ before d after, payload.touched a.base = before ++ d :: after ∧
        (∀ n ∈ before, a.Fresh current n) ∧ a.Obstacle current d e) ∧
    (∀ d ∈ payload.touched a.base, ∀ b f, a.base.document? d.id = some b →
      current.document? d.id = some f → b.root ≠ f.root → ∃ e u, a.apply current t = .error e u) ∧
    ∃ result u, a.apply a.base t = .ok result u := by
  have hcases := apply_cases hbase hcurrent hprojects hcompute hwithin
  refine ⟨changedDocuments_of_compute hbase hcompute hwithin, ?_, ?_, ?_, ?_, ?_⟩
  · rcases hcases with ⟨hall, result, happly, -⟩ | ⟨before, d, after, e, hsplit, -, he, happly⟩
    · exact ⟨fun _ ↦ hall, fun _ ↦ ⟨result, t', happly⟩⟩
    · constructor
      · rintro ⟨result, u, h⟩
        cases happly.symm.trans h
      · intro hall
        exact absurd (hall d (hsplit ▸ List.mem_append_cons_self)) he.not_fresh
  · intro result u h
    rcases hcases with ⟨hall, result', happly, hdocuments⟩ | ⟨-, -, -, e, -, -, -, happly⟩
    · cases happly.symm.trans h
      refine ⟨?_, fun d hd ↦ ?_, fun id hid ↦ ?_⟩
      · rw [hdocuments, List.map_map]
        exact List.map_congr_left fun x _ ↦ x.updatedBy_id _
      · obtain ⟨-, f, -, hf, -⟩ := hall d hd
        exact Solution.document?_of_updatedBy hdocuments
          (Payload.nodup_touched hbase hwithin) hd hf
      · exact Solution.document?_of_not_updatedBy hdocuments hid
    · cases happly.symm.trans h
  · intro e u h
    rcases hcases with ⟨-, result, happly, -⟩ | ⟨before, d, after, e', hsplit, hall, he, happly⟩
    · cases happly.symm.trans h
    · cases happly.symm.trans h
      exact ⟨he.isStale, before, d, after, hsplit, hall, he⟩
  · intro d hd b f hb hf hroot
    rcases hcases with ⟨hall, -⟩ | ⟨-, -, -, e, -, -, -, happly⟩
    · exact absurd (hall d hd) (Obstacle.stale hb hf hroot).not_fresh
    · exact ⟨e, t', happly⟩
  · rcases apply_cases hbase hbase (Solution.sameProjects_self hbase) hcompute hwithin with
      ⟨-, result, happly, -⟩ | ⟨before, d, after, e, hsplit, -, he, -⟩
    · exact ⟨result, t', happly⟩
    · have hd : d ∈ payload.touched a.base := hsplit ▸ List.mem_append_cons_self
      exact absurd (fresh_base (Payload.knows_of_mem_touched hwithin hd)) he.not_fresh

/-! ### Two snapshots that were forked from one -/

private def forkedFile (file edit version : Nat) (text : String) : Document :=
  ⟨⟨file⟩, ⟨0⟩, ⟨"File.cs"⟩,
    ⟨⟨⟨file⟩, ⟨edit, []⟩, Kind.compilationUnit, false⟩,
      [.token ⟨Kind.identifier, "", text⟩]⟩, version⟩

private def forkedSolution (edit₀ edit₁ version : Nat) (text : String) : Solution :=
  Solution.empty.withProject
    (((Project.create "fork" ⟨0⟩).1.withDocument
      (forkedFile 0 edit₀ version text) rfl).withDocument (forkedFile 1 edit₁ version text) rfl)

private def forkedAction : CodeAction where
  title := "Rename"
  equivalenceKey := "Rename"
  base := forkedSolution 2 3 1 "a"
  producer := return .solution (forkedSolution 5 6 2 "z")

/-- Of two documents the first is fresh and the second was edited elsewhere, under the same version
number: nothing is applied. -/
theorem apply_sibling_fails :
    (∃ e u, forkedAction.apply (forkedSolution 2 4 1 "a") ⟨7⟩ = .error e u) ∧
      ∃ result u, forkedAction.apply forkedAction.base ⟨7⟩ = .ok result u := by
  have hcurrent : (forkedSolution 2 4 1 "a").DistinctDocuments := by decide
  have hcompute : forkedAction.compute ⟨7⟩ = .ok (.solution (forkedSolution 5 6 2 "z")) ⟨7⟩ := rfl
  have hwithin : (Payload.solution (forkedSolution 5 6 2 "z")).Within forkedAction.base := by
    intro d hd
    have hmem : d ∈ [forkedFile 0 5 2 "z", forkedFile 1 6 2 "z"] := hd
    rcases List.mem_cons.1 hmem with rfl | hmem
    · exact ⟨forkedFile 0 2 1 "a", List.mem_cons_self, rfl, rfl⟩
    · rw [List.mem_singleton.1 hmem]
      exact ⟨forkedFile 1 3 1 "a", List.mem_cons_of_mem _ List.mem_cons_self, rfl, rfl⟩
  have h := apply_all_or_none (by decide) hcurrent (by decide) hcompute hwithin
  have hstale := h.2.2.2.2.1 (forkedFile 1 6 2 "z") (by decide) (forkedFile 1 3 1 "a")
    (forkedFile 1 4 1 "a") rfl rfl (by decide)
  exact ⟨hstale, h.2.2.2.2.2⟩

end CodeAction

end CodeFix
