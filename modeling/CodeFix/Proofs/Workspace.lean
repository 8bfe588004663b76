import CodeFix.Proofs.Fix.Outcome
import CodeFix.Proofs.Solution.Ownership
import CodeFix.Proofs.Workspace.Discovery

/-!
# Where the documents of a workspace are kept

Every document of a workspace was read from a file that a walk found. As long as walks go down from
where they begin, its path is spelled from the names that lead from the root of the workspace to the
file (`Workspace.load_spec`). Below a directory it leads from the root back to the file; if the root
is itself a file there are no such names and the path is empty.

The parser may be any: whatever concrete trees it gives, the ids of the nodes are drawn for them, so
every workspace was put together from trees with ids of their own.
-/

namespace CodeFix

namespace Workspace

open Solution

variable {d : Disk} {w : Workspace} {y : Document} {p p' : Project} {u v : Supply}
  {files : List PathName} {root path : PathName} {limit : Nat} {settings : Settings}
  {tools : Toolkit} {parse : Parser} {source : String} {tree : Node}

/-! ## Adding documents -/

theorem parseSource_eq_ok (h : parseSource parse path source u = .ok tree v) :
    ∃ t, parse source = some t ∧ t.toNode source u = (tree, v) := by
  rw [parseSource] at h
  cases ht : parse source with
  | none => rw [ht] at h; cases h
  | some t =>
    rw [ht] at h
    cases h
    exact ⟨t, rfl, rfl⟩

/-- What holds of a project, and stays so when a document is added for one of the files, holds of
the project with documents for all files. -/
theorem addFiles_induction {motive : Project → Supply → Prop}
    (add : ∀ p u f tree v, f ∈ files → motive p u → u.Draws v tree.ids →
      motive (p.addDocument ((f.below? root).getD f) tree v).1.1
        (p.addDocument ((f.below? root).getD f) tree v).2)
    (start : motive p u) (h : addFiles parse d root limit files p u = .ok p' v) : motive p' v := by
  induction files generalizing p u with
  | nil =>
    cases h
    exact start
  | cons f fs ih =>
    have hadd : ∀ p u g tree v, g ∈ fs → motive p u → u.Draws v tree.ids →
        motive (p.addDocument ((g.below? root).getD g) tree v).1.1
          (p.addDocument ((g.below? root).getD g) tree v).2 :=
      fun p u g tree v hg ↦ add p u g tree v (List.mem_cons_of_mem f hg)
    rw [addFiles] at h
    cases hsource : readSource d limit f with
    | error e =>
      -- the file is passed over, or else nothing is loaded
      simp only [hsource] at h
      split at h
      · exact ih hadd start h
      · cases h
    | ok source =>
      simp only [hsource] at h
      obtain ⟨tree, v₁, htree, h⟩ := bind_eq_ok_iff.1 h
      obtain ⟨t, -, ht⟩ := parseSource_eq_ok htree
      have hdraws : u.Draws v₁ tree.ids := by
        have := t.toNode_draws source u
        rwa [ht] at this
      obtain ⟨⟨q, y⟩, v₂, hdocument, h⟩ := bind_eq_ok_iff.1 h
      cases hdocument
      exact ih hadd (add p u f tree v₁ List.mem_cons_self start hdraws) h

theorem mem_addFiles (h : addFiles parse d root limit files p u = .ok p' v)
    (hy : y ∈ p'.documents.toList) :
    y ∈ p.documents.toList ∨ ∃ f ∈ files, y.path = (f.below? root).getD f := by
  refine addFiles_induction (motive := fun q _ ↦ ∀ y ∈ q.documents.toList,
    y ∈ p.documents.toList ∨ ∃ f ∈ files, y.path = (f.below? root).getD f)
    (fun q u f tree v hf hq _ y hy ↦ ?_) (fun _ ↦ Or.inl) h y hy
  rcases Roster.mem_insert.1 hy with rfl | ⟨hy, -⟩
  · exact Or.inr ⟨f, hf, rfl⟩
  · exact hq y hy

theorem loaded_addDocument (h : Loaded (Solution.empty.withProject p) u) (path : PathName)
    (htree : u.Draws v tree.ids) :
    Loaded (Solution.empty.withProject (p.addDocument path tree v).1.1)
      (p.addDocument path tree v).2 := by
  have hrun := Loaded.document h List.mem_cons_self path htree
  have hid : p.id = (p.addDocument path tree v).1.1.id := rfl
  rwa [withProject_withProject hid] at hrun

theorem loaded_addFiles (hp : Loaded (Solution.empty.withProject p) u)
    (h : addFiles parse d root limit files p u = .ok p' v) :
    Loaded (Solution.empty.withProject p') v :=
  addFiles_induction (motive := fun q t ↦ Loaded (Solution.empty.withProject q) t)
    (fun _ _ _ _ _ _ hq htree ↦ loaded_addDocument hq _ htree) hp h

/-! ## Loading -/

theorem ofFiles_eq_ok (h : ofFiles tools d settings limit root files u = .ok w v) :
    w.root = root ∧ Loaded w.solution v ∧
      ∀ y ∈ w.solution.documents, ∃ f ∈ files, y.path = (f.below? root).getD f := by
  rw [ofFiles] at h
  obtain ⟨parse, u₁, -, hproject⟩ := bind_eq_ok_iff.1 h
  obtain ⟨p, u₂, hcreate, hfiles⟩ := bind_eq_ok_iff.1 hproject
  obtain ⟨p', u₃, hadd, hworkspace⟩ := bind_eq_ok_iff.1 hfiles
  cases hworkspace
  cases hcreate
  refine ⟨rfl, loaded_addFiles (.project (.empty u₁) _) hadd, fun y hy ↦ ?_⟩
  have hy : y ∈ p'.documents.toList :=
    (mem_documents_withProject hy).resolve_right fun h ↦ nomatch h
  exact (mem_addFiles hadd hy).resolve_left fun h ↦ nomatch h

theorem load_eq_ok (h : load tools d settings limit root u = .ok w v) :
    ∃ names, d.resolve root = .ok names ∧
      ofFiles tools d settings limit (Disk.pathOf names)
        (discover tools d settings (Disk.pathOf names)) u = .ok w v := by
  rw [load] at h
  obtain ⟨path, u₁, hpath, h⟩ := bind_eq_ok_iff.1 h
  rw [Disk.canonical] at hpath
  cases hroot : d.resolve root with
  | error e => rw [hroot] at hpath; cases hpath
  | ok names =>
    rw [hroot] at hpath
    cases hpath
    split at h
    · cases h
    · exact ⟨names, rfl, h⟩

/-- **Where the documents are kept.** -/
theorem load_spec (hd : d.WellFormed) (hwalk : tools.WalksDown d)
    (h : load tools d settings limit root u = .ok w v) :
    ∃ names, d.resolve root = .ok names ∧ w.root = Disk.pathOf names ∧ w.solution.Distinct ∧
      ∀ y ∈ w.solution.documents, ∃ rel content, y.path = .ofNames rel ∧
        d.entry? (names ++ rel) = some (.file content) := by
  obtain ⟨names, hroot, h⟩ := load_eq_ok h
  obtain ⟨hwroot, hloaded, hdocuments⟩ := ofFiles_eq_ok h
  obtain ⟨hdistinct, -, owner, howned⟩ := hloaded.owned
  have hnames := Disk.isName_of_isSome hd (Disk.isSome_of_resolve hroot)
  refine ⟨names, hroot, hwroot, Solution.distinct_of_owned hdistinct howned, fun y hy ↦ ?_⟩
  obtain ⟨f, hf, hpath⟩ := hdocuments y hy
  obtain ⟨hfound, hadmits⟩ := FileFilter.mem_discover_iff.1 hf
  obtain ⟨rel, hrel, rfl⟩ := hwalk _ names hnames f hfound
  have hfile := FileFilter.isFile_of_admits hadmits
  obtain ⟨content, hentry⟩ := (Disk.isFile_pathOf (List.forall_mem_append.2 ⟨hnames, hrel⟩)).1 hfile
  refine ⟨rel, content, ?_, hentry⟩
  rw [hpath, PathName.below?_pathOf hnames hrel, Option.getD_some]

/-- Below a directory the path of a document leads from the root to its file. -/
theorem join_of_directory (hd : d.WellFormed) (hwalk : tools.WalksDown d)
    (h : load tools d settings limit root u = .ok w v) (hy : y ∈ w.solution.documents)
    (hdir : d.isDirectory root = true) :
    ∃ names content, (∀ n ∈ names, IsName n) ∧ d.entry? names = some (.file content) ∧
      w.root.join y.path = Disk.pathOf names := by
  obtain ⟨names, hresolve, hroot, -, hkept⟩ := load_spec hd hwalk h
  obtain ⟨rel, content, hpath, hentry⟩ := hkept y hy
  have hall := Disk.isName_of_isSome hd (by rw [hentry]; rfl)
  have hne : rel ≠ [] := by
    rintro rfl
    rw [List.append_nil] at hentry
    rw [Disk.isDirectory_of_resolve hresolve hentry] at hdir
    cases hdir
  refine ⟨names ++ rel, content, hall, hentry, ?_⟩
  rw [hroot, hpath, PathName.join_ofNames (fun n hn ↦ hall n (List.mem_append_left rel hn))
    (fun n hn ↦ hall n (List.mem_append_right names hn)) hne]

/-- At a file the path is empty, and joining it to the root puts a slash behind the file. -/
theorem join_of_file (hd : d.WellFormed) (hwalk : tools.WalksDown d)
    (h : load tools d settings limit root u = .ok w v) (hy : y ∈ w.solution.documents)
    (hfile : d.isDirectory root = false) :
    ∃ names content, (∀ n ∈ names, IsName n) ∧ d.entry? names = some (.file content) ∧
      w.root.join y.path = Disk.pathOf (names ++ [""]) := by
  obtain ⟨names, hresolve, hroot, -, hkept⟩ := load_spec hd hwalk h
  obtain ⟨rel, content, hpath, hentry⟩ := hkept y hy
  obtain ⟨e, he⟩ := Option.isSome_iff_exists.1 (Disk.isSome_of_resolve hresolve)
  rw [Disk.isDirectory_of_resolve hresolve he] at hfile
  cases e with
  | directory es => cases hfile
  | file file =>
    -- below a file there is nothing but the file
    obtain rfl : rel = [] := by
      rw [Disk.entry?_append, he] at hentry
      exact (DiskEntry.descend?_file hentry).1
    have hnames := Disk.isName_of_isSome hd (by rw [he]; rfl)
    refine ⟨names, file, hnames, he, ?_⟩
    rw [hroot, hpath, PathName.join_ofNames_nil hnames (Disk.ne_nil_of_file he)]

end Workspace

end CodeFix
