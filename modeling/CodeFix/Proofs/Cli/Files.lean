import CodeFix.Cli.Session
import CodeFix.Proofs.Disk
import CodeFix.Proofs.Fix.Outcome

/-!
# Commands and files

Most steps of a command read the disk and leave it alone. `CommandM.Quiet` says so of a step, and it
is kept by sequencing, so a command that never writes is seen to be quiet from its parts. The one
step that does write is described by what it leaves behind (`CommandState.Wrote`).
-/

namespace CodeFix

/-! ## States before and after -/

namespace CommandState

/-- The disk and the record of what was written are the same. -/
def SameFiles (σ σ' : CommandState) : Prop := σ'.disk = σ.disk ∧ σ'.written = σ.written

theorem SameFiles.refl (σ : CommandState) : σ.SameFiles σ := ⟨rfl, rfl⟩

theorem SameFiles.trans {σ σ₁ σ₂ : CommandState} (h : σ.SameFiles σ₁) (h' : σ₁.SameFiles σ₂) :
    σ.SameFiles σ₂ := ⟨h'.1.trans h.1, h'.2.trans h.2⟩

/-- The files were written in this order and hold what was written; every other file is what it
was. -/
structure Wrote (σ σ' : CommandState) (files : List FileChange) : Prop where
  written : σ'.written = σ.written ++ files
  content : ∀ f ∈ files, σ'.disk.readBytes f.path = .ok f.text.toUTF8
  others : ∀ names content, σ.disk.entry? names = some (.file content) →
    (∀ f ∈ files, f.path ≠ Disk.pathOf names) → σ'.disk.entry? names = some (.file content)

theorem SameFiles.wrote {σ σ₁ σ₂ : CommandState} {files : List FileChange} (h : σ.SameFiles σ₁)
    (h' : σ₁.Wrote σ₂ files) : σ.Wrote σ₂ files := by
  obtain ⟨hdisk, hwritten⟩ := h
  refine ⟨hwritten ▸ h'.written, h'.content, fun names content hentry hother ↦ ?_⟩
  exact h'.others names content (by rw [hdisk, hentry]) hother

end CommandState

namespace CommandM

variable {α β : Type} {σ σ' : CommandState} {x : CommandM α} {f : α → CommandM β}

/-! ## Steps that write nothing -/

/-- Whatever comes out, the files stay. -/
def Quiet (x : CommandM α) : Prop :=
  ∀ σ, match x σ with
    | .ok _ σ' => σ.SameFiles σ'
    | .error _ σ' => σ.SameFiles σ'

theorem Quiet.of_ok (h : Quiet x) {a : α} (hx : x σ = .ok a σ') : σ.SameFiles σ' := by
  have hσ := h σ
  rw [hx] at hσ
  exact hσ

theorem Quiet.of_error (h : Quiet x) {e : CommandFailure} (hx : x σ = .error e σ') :
    σ.SameFiles σ' := by
  have hσ := h σ
  rw [hx] at hσ
  exact hσ

theorem Quiet.bind (hx : Quiet x) (hf : ∀ a, Quiet (f a)) : Quiet (x >>= f) := by
  intro σ
  cases h : x σ with
  | error e σ₁ =>
    rw [bind_of_error h]
    exact hx.of_error h
  | ok a σ₁ =>
    rw [bind_of_ok h]
    have hfirst := hx.of_ok h
    cases h' : f a σ₁ with
    | ok b σ₂ => exact hfirst.trans ((hf a).of_ok h')
    | error e σ₂ => exact hfirst.trans ((hf a).of_error h')

theorem quiet_pure (a : α) : Quiet (pure a) := fun σ ↦ .refl σ

theorem quiet_get : Quiet get := fun σ ↦ .refl σ

theorem quiet_ofDrawing {ε : Type} (failure : ε → CommandFailure) (x : EStateM ε Supply α) :
    Quiet (ofDrawing failure x) := by
  intro σ
  rw [ofDrawing]
  cases x σ.supply <;> exact ⟨rfl, rfl⟩

theorem quiet_ofFix (x : FixM α) : Quiet (ofFix x) := by
  intro σ
  rw [ofFix]
  cases x ⟨σ.supply, false⟩ <;> exact ⟨rfl, rfl⟩

theorem quiet_ofExcept {ε : Type} (failure : ε → CommandFailure) (r : Except ε α) :
    Quiet (ofExcept failure r) := by
  intro σ
  cases r <;> exact .refl σ

/-! ## Steps that succeed -/

theorem ofExcept_eq_ok {ε : Type} {failure : ε → CommandFailure} {r : Except ε α} {a : α}
    (h : ofExcept failure r σ = .ok a σ') : r = .ok a ∧ σ' = σ := by
  cases r with
  | error e => cases h
  | ok b =>
    cases h
    exact ⟨rfl, rfl⟩

theorem exists_of_ofFix_eq_ok {x : FixM α} {a : α} (h : ofFix x σ = .ok a σ') :
    ∃ t, x ⟨σ.supply, false⟩ = .ok a t := by
  rw [ofFix] at h
  cases hx : x ⟨σ.supply, false⟩ with
  | error e t => rw [hx] at h; cases h
  | ok b t =>
    rw [hx] at h
    cases h
    exact ⟨t, rfl⟩

theorem ofDrawing_of_ok {ε : Type} {failure : ε → CommandFailure} {x : EStateM ε Supply α} {a : α}
    {t : Supply} (h : x σ.supply = .ok a t) :
    ofDrawing failure x σ = .ok a { σ with supply := t } := by
  rw [ofDrawing, h]

theorem exists_of_ofDrawing_eq_ok {ε : Type} {failure : ε → CommandFailure}
    {x : EStateM ε Supply α} {a : α} (h : ofDrawing failure x σ = .ok a σ') :
    ∃ t, x σ.supply = .ok a t := by
  rw [ofDrawing] at h
  cases hx : x σ.supply with
  | error e t => rw [hx] at h; cases h
  | ok b t =>
    rw [hx] at h
    cases h
    exact ⟨t, rfl⟩

/-! ## Writing -/

variable {change : FileChange} {names : List String} {content : ByteArray} {d : Disk}

theorem write_of_ok (h : σ.disk.write change.path change.text.toUTF8 = .ok d) :
    write change σ = .ok () { σ with disk := d, written := σ.written ++ [change] } := by
  have hget : (get : CommandM CommandState) σ = .ok σ σ := rfl
  rw [write, bind_of_ok hget, h]
  rfl

theorem write_of_error {e : DiskError}
    (h : σ.disk.write change.path change.text.toUTF8 = .error e) :
    write change σ = .error (.workspace (.disk e)) σ := by
  have hget : (get : CommandM CommandState) σ = .ok σ σ := rfl
  rw [write, bind_of_ok hget, h]
  rfl

/-- **Writing a file** that is there. -/
theorem write_wrote (hnames : ∀ n ∈ names, IsName n) (hpath : change.path = Disk.pathOf names)
    (h : σ.disk.entry? names = some (.file content)) :
    ∃ σ', write change σ = .ok () σ' ∧ σ.Wrote σ' [change] := by
  have hwrite : σ.disk.write change.path change.text.toUTF8 =
      .ok (σ.disk.put names (.file change.text.toUTF8)) := by
    rw [hpath]
    exact Disk.write_file hnames h _
  refine ⟨_, write_of_ok hwrite, rfl, fun f hf ↦ ?_, fun names' content' h' hother ↦ ?_⟩
  · rw [List.mem_singleton.1 hf, hpath]
    exact Disk.readBytes_pathOf hnames (Disk.entry?_put_self h _)
  · refine Disk.entry?_put_of_ne h h' (fun hsame ↦ ?_) _
    exact hother change List.mem_cons_self (hsame ▸ hpath)

end CommandM

end CodeFix
