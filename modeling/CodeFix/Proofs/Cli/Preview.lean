import CodeFix.Cli.Run
import CodeFix.Proofs.Cli.Files
import CodeFix.Proofs.Fix.Runs
import CodeFix.Proofs.Ignore.Walk
import CodeFix.Proofs.Workspace

/-!
# Previewing and executing a fix

The two modes of applying a fix choose the action in the same way and then part: a preview asks the
action for its changed documents, executing applies it to the snapshot and compares. Both come to
the same list (`CodeAction.OfferedOver.preview_eq_execute`).

What is left is to write the list. Below a directory every document is kept in a file that is there,
so the list is written as it was previewed. The root of a workspace may also be a file; the only
document is then kept at the root with a slash behind it, which cannot be written.
-/

namespace CodeFix

/-! ## One list for both modes -/

/-- **Preview and execution agree** on the changes, as long as nothing is written. -/
theorem CodeAction.OfferedOver.preview_eq_execute {a : CodeAction} {base : Solution}
    (hs : base.Distinct) (h : a.OfferedOver base) (t : Supply) :
    ∃ d ∈ base.documents, ∃ x : Document, x.path = d.path ∧ ∃ u,
      a.preview t = .ok [.ofDocument x] u ∧ a.execute base t = .ok [.ofDocument x] u := by
  obtain ⟨d, c, new, hrevises⟩ := h.revises hs
  obtain ⟨s, happly, hdocuments⟩ := hrevises.apply_base hs.documents t
  have hdistinct := Solution.distinctDocuments_of_updatedBy hs.documents hdocuments
  have hversion : d.version ≠ (d.revision c new t).version := by
    rw [Document.revision_version]
    omega
  have hchanged : s.changedDocuments base = [d.revision c new t] := by
    rw [Solution.changedDocuments_eq_filter hdistinct, hdocuments]
    exact Solution.filter_isChange_of_version_ne hs.documents hrevises.document rfl rfl hversion
  refine ⟨d, hrevises.document, d.revision c new t, rfl, ⟨t.next + 2⟩, ?_, ?_⟩
  · rw [preview, bind_of_ok (hrevises.changedDocuments hs.documents t)]
    rfl
  · rw [execute, bind_of_ok happly, hchanged]
    rfl

namespace Session

variable {s : Session} {l : Location} {index : Nat} {rule : String} {σ σ' : CommandState}
  {w : Workspace} {a : CodeAction}

/-! ## Choosing the action -/

/-- The workspace and the action with an index. -/
def fixAt (s : Session) (l : Location) (index : Nat) (rule : String) :
    CommandM (Workspace × CodeAction) := do
  let w ← s.loadWorkspace
  let a ← CommandM.ofExcept id (selectFix (← s.fixesAt w l rule) index l)
  return (w, a)

theorem applyFix_eq (s : Session) (l : Location) (index : Nat) (rule : String) (execute : Bool) :
    s.applyFix l index rule execute =
      s.fixAt l index rule >>= fun (w, a) ↦ if execute then s.executeFix w a else previewFix a := by
  simp only [applyFix, fixAt, bind_assoc, pure_bind]

theorem quiet_loadWorkspace (s : Session) : CommandM.Quiet s.loadWorkspace :=
  .bind CommandM.quiet_get fun _ ↦ CommandM.quiet_ofDrawing _ _

theorem quiet_fixesAt (s : Session) (w : Workspace) (l : Location) (rule : String) :
    CommandM.Quiet (s.fixesAt w l rule) :=
  .bind CommandM.quiet_get fun _ ↦ .bind (CommandM.quiet_ofExcept _ _) fun _ ↦
    .bind (CommandM.quiet_ofExcept _ _) fun _ ↦ CommandM.quiet_ofFix _

theorem quiet_fixAt (s : Session) (l : Location) (index : Nat) (rule : String) :
    CommandM.Quiet (s.fixAt l index rule) :=
  .bind s.quiet_loadWorkspace fun w ↦ .bind (s.quiet_fixesAt w l rule) fun _ ↦
    .bind (CommandM.quiet_ofExcept _ _) fun _ ↦ CommandM.quiet_pure _

theorem exists_of_loadWorkspace (h : s.loadWorkspace σ = .ok w σ') :
    ∃ limit u, Workspace.load s.tools σ.disk s.settings limit s.root σ.supply = .ok w u := by
  rw [loadWorkspace] at h
  obtain ⟨σ₁, σ₂, hget, hload⟩ := bind_eq_ok_iff.1 h
  cases hget
  exact ⟨_, CommandM.exists_of_ofDrawing_eq_ok hload⟩

theorem atDiagnostic_eq_ok {solution : Solution} {diagnostic : Diagnostic}
    {semantic : SemanticModel} {host : DocumentHost} {ctx : FixContext}
    (h : FixContext.atDiagnostic solution diagnostic semantic host = .ok ctx) :
    ctx.solution = solution ∧ ctx.host = host := by
  rw [FixContext.atDiagnostic] at h
  split at h
  · cases h
  · split at h
    · cases h
    · cases h
      exact ⟨rfl, rfl⟩

theorem offeredOver_of_mem_fixesAt {actions : List CodeAction}
    (h : s.fixesAt w l rule σ = .ok actions σ') (ha : a ∈ actions) :
    a.OfferedOver w.solution := by
  rw [fixesAt] at h
  obtain ⟨σ₁, σ₂, hget, h⟩ := bind_eq_ok_iff.1 h
  obtain ⟨file, σ₃, hfile, h⟩ := bind_eq_ok_iff.1 h
  obtain ⟨ctx, σ₄, hctx, h⟩ := bind_eq_ok_iff.1 h
  obtain ⟨hsolution, hhost⟩ := atDiagnostic_eq_ok (CommandM.ofExcept_eq_ok hctx).1
  obtain ⟨t, hfixes⟩ := CommandM.exists_of_ofFix_eq_ok h
  exact hsolution ▸ FixService.offeredOver_of_mem_fixesFor hhost hfixes ha

theorem fixAt_eq_ok (h : s.fixAt l index rule σ = .ok (w, a) σ') :
    (∃ σ₀, s.loadWorkspace σ = .ok w σ₀) ∧ a.OfferedOver w.solution := by
  rw [fixAt] at h
  obtain ⟨w', σ₁, hload, h⟩ := bind_eq_ok_iff.1 h
  obtain ⟨actions, σ₂, hactions, h⟩ := bind_eq_ok_iff.1 h
  obtain ⟨a', σ₃, hselect, h⟩ := bind_eq_ok_iff.1 h
  cases h
  refine ⟨⟨σ₁, hload⟩, offeredOver_of_mem_fixesAt hactions ?_⟩
  have hchosen := (CommandM.ofExcept_eq_ok hselect).1
  rw [selectFix] at hchosen
  split at hchosen
  · next hget =>
    cases hchosen
    exact List.mem_of_getElem? hget
  · cases hchosen

/-! ## The two modes -/

variable {c : FileChange} {t : Supply}

theorem previewFix_of_ok {changes : List FileChange} (h : a.preview σ.supply = .ok changes t) :
    previewFix a σ =
      .ok (applyReport a.title true (changes.map fun c ↦ ⟨c.path.text, some c.text⟩))
        { σ with supply := t } := by
  rw [previewFix, bind_of_ok (CommandM.ofDrawing_of_ok h)]
  rfl

theorem executeFix_of_ok (h : a.execute w.solution σ.supply = .ok [c] t)
    (hwrite : CommandM.write ⟨w.root.join c.path, c.text⟩ { σ with supply := t } = .ok () σ') :
    s.executeFix w a σ =
      .ok (applyReport a.title false [⟨(s.output.relative (w.root.join c.path)).text, none⟩])
        σ' := by
  have hfiles : [FileChange.mk (w.root.join c.path) c.text].forM CommandM.write
      { σ with supply := t } = .ok () σ' := bind_of_ok hwrite
  rw [executeFix, bind_of_ok (CommandM.ofDrawing_of_ok h)]
  exact bind_of_ok hfiles

theorem executeFix_of_error {e : CommandFailure} (h : a.execute w.solution σ.supply = .ok [c] t)
    (hwrite : CommandM.write ⟨w.root.join c.path, c.text⟩ { σ with supply := t } = .error e σ') :
    s.executeFix w a σ = .error e σ' := by
  have hfiles : [FileChange.mk (w.root.join c.path) c.text].forM CommandM.write
      { σ with supply := t } = .error e σ' := bind_of_error hwrite
  rw [executeFix, bind_of_ok (CommandM.ofDrawing_of_ok h)]
  exact bind_of_error hfiles

/-- **Previewed and written.** Applying a fix fails in the same way in both modes, or the preview
succeeds with a list of changes and writes nothing. Then, if the root is a directory, executing
writes the same changes in the same order, each to the file of its document, and nothing else. If
the root is itself a file, executing fails and writes nothing. All that is asked of the libraries is
that walks go down from the root. -/
theorem applyFix_modes (hdisk : σ.disk.WellFormed) (s : Session)
    (hwalk : s.tools.WalksDown σ.disk) (l : Location) (index : Nat) (rule : String) :
    (∃ e σ', σ.SameFiles σ' ∧ s.applyFix l index rule false σ = .error e σ' ∧
      s.applyFix l index rule true σ = .error e σ') ∨
    ∃ (w : Workspace) (title : String) (changes files : List FileChange) (σ₀ σ₁ : CommandState),
      s.loadWorkspace σ = .ok w σ₀ ∧
      (∀ c ∈ changes, ∃ d ∈ w.solution.documents, c.path = d.path) ∧
      files = changes.map (fun c ↦ FileChange.mk (w.root.join c.path) c.text) ∧
      s.applyFix l index rule false σ = .ok (applyReport title true
        (changes.map fun c ↦ ⟨c.path.text, some c.text⟩)) σ₁ ∧ σ.SameFiles σ₁ ∧
      (σ.disk.isDirectory s.root = true →
        ∃ σ₂, s.applyFix l index rule true σ = .ok (applyReport title false
          (files.map fun f ↦ ⟨(s.output.relative f.path).text, none⟩)) σ₂ ∧ σ.Wrote σ₂ files) ∧
      (σ.disk.isDirectory s.root = false →
        ∃ σ₂, s.applyFix l index rule true σ = .error (.workspace (.disk .isDirectory)) σ₂ ∧
          σ.SameFiles σ₂) := by
  cases hfix : s.fixAt l index rule σ with
  | error e σ' =>
    refine Or.inl ⟨e, σ', (s.quiet_fixAt l index rule).of_error hfix, ?_, ?_⟩
    · rw [applyFix_eq, bind_of_error hfix]
    · rw [applyFix_eq, bind_of_error hfix]
  | ok r σ' =>
    -- from here on both modes have the same workspace and the same action
    obtain ⟨w, a⟩ := r
    obtain ⟨⟨σ₀, hload⟩, hoffered⟩ := fixAt_eq_ok hfix
    obtain ⟨hsameDisk, hsameWritten⟩ := (s.quiet_fixAt l index rule).of_ok hfix
    obtain ⟨limit, u, hloaded⟩ := exists_of_loadWorkspace hload
    obtain ⟨names, -, -, hdistinct, -⟩ := Workspace.load_spec hdisk hwalk hloaded
    obtain ⟨d, hd, x, hxpath, t, hpreview, hexecute⟩ :=
      hoffered.preview_eq_execute hdistinct σ'.supply
    have hsame : σ.SameFiles { σ' with supply := t } := ⟨hsameDisk, hsameWritten⟩
    refine Or.inr ⟨w, a.title, [.ofDocument x], _, σ₀, _, hload, fun c hc ↦ ⟨d, hd, ?_⟩, rfl, ?_,
      hsame, fun hdir ↦ ?_, fun hfile ↦ ?_⟩
    · rw [List.mem_singleton.1 hc]
      exact hxpath
    · rw [applyFix_eq, bind_of_ok hfix]
      exact previewFix_of_ok hpreview
    · obtain ⟨names, content, hnames, hentry, hjoin⟩ :=
        Workspace.join_of_directory hdisk hwalk hloaded hd hdir
      rw [← hxpath] at hjoin
      rw [← hsameDisk] at hentry
      obtain ⟨σ₂, hwrite, hwrote⟩ : ∃ σ₂, CommandM.write ⟨w.root.join x.path, x.text⟩
          { σ' with supply := t } = .ok () σ₂ ∧ CommandState.Wrote _ σ₂ _ :=
        CommandM.write_wrote hnames hjoin hentry
      refine ⟨σ₂, ?_, hsame.wrote hwrote⟩
      rw [applyFix_eq, bind_of_ok hfix]
      exact executeFix_of_ok hexecute hwrite
    · obtain ⟨names, content, hnames, hentry, hjoin⟩ :=
        Workspace.join_of_file hdisk hwalk hloaded hd hfile
      rw [← hxpath] at hjoin
      rw [← hsameDisk] at hentry
      have hwrite : CommandM.write ⟨w.root.join x.path, x.text⟩ { σ' with supply := t } =
          .error (.workspace (.disk .isDirectory)) { σ' with supply := t } := by
        refine CommandM.write_of_error ?_
        rw [hjoin]
        exact Disk.write_slash hnames hentry _
      refine ⟨_, ?_, hsame⟩
      rw [applyFix_eq, bind_of_ok hfix]
      exact executeFix_of_error hexecute hwrite

/-! ### The file of `Holder` on a disk -/

private def holderFile : DiskEntry :=
  .file "class Foo \x7b \x7d\nclass Holder\n\x7b\n    Foo data;\n\x7d\n".toUTF8

private def holderDisk : Disk := ⟨[("ws", .directory [("Holder.cs", holderFile)])]⟩

private def holderSession : Session where
  environment := fun _ ↦ none
  directory := ⟨"/ws"⟩
  root := ⟨"/ws"⟩
  settings := .initial
  output := ⟨⟨"/ws"⟩, .json⟩
  tools := .installed (fun _ ↦ none) ⟨"/ws"⟩

private def holderState : CommandState := ⟨.start, holderDisk, []⟩

/-- In the directory of `Holder` the first fix for its field is written. -/
theorem applyFix_modes_holder :
    ∃ report σ files, holderSession.applyFix ⟨⟨"Holder.cs"⟩, 4, 9⟩ 0 Serialization.rule true
      holderState = .ok report σ ∧ holderState.Wrote σ files := by
  have hdisk : holderState.disk.WellFormed :=
    .cons (by decide) (by decide) (.cons (by decide) (by decide) (.file _) .nil) .nil
  have hwalk : holderSession.tools.WalksDown holderState.disk := fun _ _ hnames _ hp ↦
    Ignore.exists_of_mem_walk hdisk hnames hp
  have hpreviewed : (match holderSession.applyFix ⟨⟨"Holder.cs"⟩, 4, 9⟩ 0 Serialization.rule false
      holderState with | .ok _ _ => true | .error _ _ => false) = true := by decide +kernel
  rcases applyFix_modes hdisk holderSession hwalk ⟨⟨"Holder.cs"⟩, 4, 9⟩ 0 Serialization.rule with
    ⟨e, σ', -, herror, -⟩ | ⟨w, title, changes, files, σ₀, σ₁, -, -, -, -, -, hdirectory, -⟩
  · rw [herror] at hpreviewed
    cases hpreviewed
  · obtain ⟨σ₂, hexecuted, hwrote⟩ := hdirectory (by decide +kernel)
    exact ⟨_, σ₂, files, hexecuted, hwrote⟩

/-- With the file itself as root the same fix is previewed, but it is not written. -/
theorem applyFix_file_root_fails :
    let s : Session := { holderSession with root := ⟨"/ws/Holder.cs"⟩ }
    let l : Location := ⟨⟨"Holder.cs"⟩, 4, 9⟩
    (∃ report σ, s.applyFix l 0 Serialization.rule false holderState = .ok report σ) ∧
      ∃ σ, s.applyFix l 0 Serialization.rule true holderState =
        .error (.workspace (.disk .isDirectory)) σ ∧ σ.written = [] := by
  intro s l
  have hpreviewed : (match s.applyFix l 0 Serialization.rule false holderState with
      | .ok _ _ => true | .error _ _ => false) = true := by decide +kernel
  have hexecuted : (match s.applyFix l 0 Serialization.rule true holderState with
      | .ok _ _ => false
      | .error e σ => e == .workspace (.disk .isDirectory) && σ.written == []) = true := by
    decide +kernel
  constructor
  · cases h : s.applyFix l 0 Serialization.rule false holderState with
    | ok report σ => exact ⟨report, σ, rfl⟩
    | error e σ => rw [h] at hpreviewed; cases hpreviewed
  · cases h : s.applyFix l 0 Serialization.rule true holderState with
    | ok report σ => rw [h] at hexecuted; cases hexecuted
    | error e σ =>
      simp only [h, Bool.and_eq_true, beq_iff_eq] at hexecuted
      obtain ⟨rfl, hwritten⟩ := hexecuted
      exact ⟨σ, rfl, hwritten⟩

end Session

end CodeFix
