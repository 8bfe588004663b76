import CodeFix.Cli.Run
import CodeFix.Proofs.CSharp.Grammar
import CodeFix.Proofs.Fix.Outcome
import CodeFix.Proofs.Ignore.Walk

/-!
# Loading is exact

The files that were discovered become documents one after another, in the order of their paths, and
those that are too large or no text are passed over. Every document gets an id that is greater than
all ids before it, so the order in which documents are filed is the order in which they were made
(`addFiles_of_readable`). A sound parser keeps the text of a source, whence a workspace lists
exactly the paths and texts of the sources below its root (`ofFiles_of_readable`).

What was discovered does not depend on the walk, and so neither does what is loaded.
-/

namespace CodeFix

/-! ## Filing behind the others -/

section

variable {α : Type} {key : α → Nat} {a : α} {bs : List α}

theorem insertByKey_of_forall_lt (h : ∀ b ∈ bs, key b < key a) :
    insertByKey key a bs = bs ++ [a] := by
  induction bs with
  | nil => rfl
  | cons b bs ih =>
    obtain ⟨hb, hbs⟩ := List.forall_mem_cons.1 h
    rw [insertByKey, if_neg (Nat.lt_asymm hb), if_neg (Nat.ne_of_gt hb), ih hbs, List.cons_append]

end

namespace Workspace

open ConcreteTree

variable {d : Disk} {w : Workspace} {p : Project} {u : Supply} {root path f : PathName}
  {limit : Nat} {settings : Settings} {found : List PathName} {text : String} {content : ByteArray}
  {names rel : List String} {parse : Parser} {tools tools' : Toolkit}

/-! ## Sources -/

theorem fromUTF8?_eq_some_iff {content : ByteArray} :
    String.fromUTF8? content = some text ↔ content = text.toUTF8 := by
  rw [String.fromUTF8?]
  constructor
  · intro h
    split at h
    · cases h
      rfl
    · cases h
  · rintro rfl
    exact dif_pos text.isValidUTF8

theorem readSource_eq_ok_iff (h : d.readBytes f = .ok content) :
    readSource d limit f = .ok text ↔ content = text.toUTF8 ∧ text.toUTF8.size ≤ limit := by
  rw [readSource, h]
  dsimp only
  by_cases hsize : limit < content.size
  · rw [if_pos hsize]
    refine ⟨fun h ↦ (nomatch h), fun ⟨hcontent, hle⟩ ↦ ?_⟩
    rw [hcontent] at hsize
    exact absurd hle (Nat.not_le_of_lt hsize)
  · rw [if_neg hsize]
    cases htext : String.fromUTF8? content with
    | none =>
      refine ⟨fun h ↦ (nomatch h), fun ⟨hcontent, _⟩ ↦ ?_⟩
      rw [fromUTF8?_eq_some_iff.2 hcontent] at htext
      cases htext
    | some text' =>
      have hcontent := fromUTF8?_eq_some_iff.1 htext
      constructor
      · intro h
        cases h
        exact ⟨hcontent, hcontent ▸ Nat.le_of_not_lt hsize⟩
      · rintro ⟨hcontent, -⟩
        rw [fromUTF8?_eq_some_iff.2 hcontent] at htext
        cases htext
        rfl

theorem isPassedOver_of_readBytes {e : WorkspaceError} (h : d.readBytes f = .ok content)
    (he : readSource d limit f = .error e) : e.isPassedOver = true := by
  rw [readSource, h] at he
  dsimp only at he
  split at he
  · cases he
    rfl
  · split at he
    · cases he
    · cases he
      rfl

/-- The path of the document for a file and its text, if the file can be read. -/
def source? (d : Disk) (root : PathName) (limit : Nat) (f : PathName) :
    Option (PathName × String) :=
  (readSource d limit f).toOption.map fun text ↦ ((f.below? root).getD f, text)

theorem source?_eq_some_iff (hd : d.WellFormed) (h : Visible d names rel content) :
    source? d (Disk.pathOf names) limit (Disk.pathOf (names ++ rel)) = some (path, text) ↔
      path = .ofNames rel ∧ content = text.toUTF8 ∧ text.toUTF8.size ≤ limit := by
  obtain ⟨hnames, hrel⟩ := h.isName hd
  rw [source?, PathName.below?_pathOf hnames hrel, Option.getD_some,
    ← readSource_eq_ok_iff (h.readBytes hd)]
  cases readSource d limit (Disk.pathOf (names ++ rel)) with
  | error e => simp [Except.toOption]
  | ok text' => simp [Except.toOption, eq_comm]

/-- The path of a document and its text. -/
def entry (y : Document) : PathName × String := (y.path, y.text)

/-- The paths and texts of the documents, in the order of the documents. -/
def files (w : Workspace) : List (PathName × String) := w.solution.documents.map entry

/-! ## Documents are added behind each other -/

theorem addFiles_of_readable (hsound : parse.Sound)
    (hread : ∀ f ∈ found, ∃ content, d.readBytes f = .ok content)
    (hids : ∀ y ∈ p.documents.toList, y.id.value < u.next) :
    ∃ p' v ys, addFiles parse d root limit found p u = .ok p' v ∧
      p'.documents.toList = p.documents.toList ++ ys ∧
      ys.map entry = found.filterMap (source? d root limit) := by
  induction found generalizing p u with
  | nil => exact ⟨p, u, [], rfl, (List.append_nil _).symm, rfl⟩
  | cons f fs ih =>
    obtain ⟨⟨content, hcontent⟩, hrest⟩ := List.forall_mem_cons.1 hread
    rw [addFiles, List.filterMap_cons, source?]
    cases hsource : readSource d limit f with
    | error e =>
      simp only [isPassedOver_of_readBytes hcontent hsource, if_pos]
      exact ih hrest hids
    | ok text =>
      obtain ⟨t, ht⟩ := Option.isSome_iff_exists.1 (hsound.total text)
      set path := (f.below? root).getD f
      set tree := (t.toNode text u).1
      set v := (t.toNode text u).2
      have htree : parseSource parse path text u = .ok tree v := by
        rw [parseSource, ht]
        exact Supply.liftM_of_eq rfl
      have hle : u.next ≤ v.next := (t.toNode_draws text u).le
      let y := Document.create ⟨v.next⟩ p.id path tree
      -- the document is made after all others, so it is filed behind them
      have hlt : ∀ x ∈ p.documents.toList, x.id.value < y.id.value := fun x hx ↦
        Nat.lt_of_lt_of_le (hids x hx) hle
      have hfiled : (p.withDocument y rfl).documents.toList = p.documents.toList ++ [y] :=
        insertByKey_of_forall_lt hlt
      have hids' : ∀ x ∈ (p.withDocument y rfl).documents.toList, x.id.value < v.next + 1 := by
        rw [hfiled]
        refine List.forall_mem_append.2 ⟨fun x hx ↦ Nat.lt_succ_of_lt (hlt x hx), ?_⟩
        exact List.forall_mem_singleton.2 (Nat.lt_succ_self v.next)
      obtain ⟨p', v', ys, hadd, hys, hentries⟩ := ih (u := ⟨v.next + 1⟩) hrest hids'
      refine ⟨p', v', y :: ys, ?_, ?_, ?_⟩
      · exact (bind_of_ok htree).trans ((bind_of_ok (Supply.liftM_of_eq rfl)).trans hadd)
      · rw [List.append_cons, ← hfiled]
        exact hys
      · have hy : entry y = (path, text) :=
          congrArg (Prod.mk path) (text_toNode (hsound.fits ht) u)
        rw [List.map_cons, hentries, hy]
        rfl

/-- A workspace of files that can be read lists those that are sources. -/
theorem ofFiles_of_readable (hparses : tools.Parses)
    (hread : ∀ f ∈ found, ∃ content, d.readBytes f = .ok content) (u : Supply) :
    ∃ w v, ofFiles tools d settings limit root found u = .ok w v ∧ w.root = root ∧
      (∃ p, w.solution.projects.toList = [p] ∧ p.id = w.projectId) ∧
      w.files = found.filterMap (source? d root limit) := by
  obtain ⟨parse, hparser, hsound⟩ := hparses
  obtain ⟨p, v, ys, hadd, hys, hentries⟩ : ∃ p v ys,
      addFiles parse d root limit found (Project.create (projectName settings root) u).1
        (Project.create (projectName settings root) u).2 = .ok p v ∧
      p.documents.toList = [] ++ ys ∧ ys.map entry = found.filterMap (source? d root limit) :=
    addFiles_of_readable hsound hread (List.forall_mem_nil _)
  refine ⟨⟨root, p.id, Solution.empty.withProject p⟩, v, ?_, rfl, ⟨p, rfl, rfl⟩, ?_⟩
  · rw [ofFiles, hparser]
    exact (bind_of_ok (Supply.liftM_of_eq rfl)).trans (bind_of_ok hadd)
  · rw [← hentries, ← List.nil_append ys, ← hys]
    exact congrArg (List.map entry) (List.flatMap_singleton _ _)

/-! ## What a workspace holds -/

/-- The file at the names below the root is a source with the text: a visible file that the settings
ask for and that is neither too large nor no text. -/
structure IsSource (d : Disk) (settings : Settings) (limit : Nat) (names rel : List String)
    (text : String) : Prop where
  visible : Visible d names rel text.toUTF8
  passes : Passes settings rel
  size_le : text.toUTF8.size ≤ limit

/-- The workspace has one project, with one document for each of the expected files and no other
document; the documents are in the order of their paths, and so are their ids. -/
structure Holds (w : Workspace) (Expected : List String → String → Prop) : Prop where
  project : ∃ p, w.solution.projects.toList = [p] ∧ p.id = w.projectId
  document : ∀ rel text, Expected rel text → ∃ y ∈ w.solution.documents,
    y.path = .ofNames rel ∧ y.text = text ∧
      ∀ z ∈ w.solution.documents, z.path = .ofNames rel → z = y
  source : ∀ y ∈ w.solution.documents, ∃! rel, y.path = .ofNames rel ∧ Expected rel y.text
  ordered : w.solution.documents.Pairwise fun y z ↦
    y.id.value < z.id.value ∧ y.path.lt z.path = true

/-- A workspace that lists the expected files in the order of their paths holds them. -/
theorem holds_of_files {Expected : List String → String → Prop}
    (hproject : ∃ p, w.solution.projects.toList = [p] ∧ p.id = w.projectId)
    (hfiles : ∀ path text, (path, text) ∈ w.files ↔ ∃ rel, path = .ofNames rel ∧ Expected rel text)
    (hordered : w.files.Pairwise fun x y ↦ x.1.lt y.1 = true)
    (hunique : ∀ rel text rel' text', Expected rel text → Expected rel' text' →
      PathName.ofNames rel = .ofNames rel' → rel = rel') : w.Holds Expected := by
  obtain ⟨p, hp, hid⟩ := hproject
  have hdocuments : w.solution.documents = p.documents.toList := by
    rw [Solution.documents, hp, List.flatMap_singleton]
  have hpaths : w.solution.documents.Pairwise fun y z ↦ y.path.lt z.path = true :=
    List.pairwise_map.1 hordered
  have hids : w.solution.documents.Pairwise fun y z ↦ y.id.value < z.id.value :=
    hdocuments ▸ p.documents.increasing
  have hnodup : (w.solution.documents.map Document.path).Nodup :=
    List.pairwise_map.2 <| hpaths.imp fun {y z} hlt (hsame : y.path = z.path) ↦
      PathName.lt_irrefl z.path (by rwa [hsame] at hlt)
  refine ⟨⟨p, hp, hid⟩, fun rel text h ↦ ?_, fun y hy ↦ ?_, hids.and hpaths⟩
  · obtain ⟨y, hy, hentry⟩ := List.mem_map.1 ((hfiles _ _).2 ⟨rel, rfl, h⟩)
    obtain ⟨hpath, htext⟩ := Prod.mk.inj hentry
    exact ⟨y, hy, hpath, htext, fun z hz hz' ↦
      List.inj_on_of_nodup_map hnodup hz hy (hz'.trans hpath.symm)⟩
  · obtain ⟨rel, hpath, h⟩ := (hfiles y.path y.text).1 (List.mem_map_of_mem hy)
    exact ⟨rel, ⟨hpath, h⟩, fun rel' h' ↦
      hunique _ _ _ _ h'.2 h (h'.1.symm.trans hpath)⟩

section

variable {es : List (String × DiskEntry)}

variable (hd : d.WellFormed) (hdir : d.entry? names = some (.directory es))
  (h : Plain tools d settings names)

include hd hdir h

theorem mem_filterMap_source?_iff :
    (path, text) ∈ (discover tools d settings (Disk.pathOf names)).filterMap
        (source? d (Disk.pathOf names) limit) ↔
      ∃ rel, path = .ofNames rel ∧ IsSource d settings limit names rel text := by
  rw [List.mem_filterMap]
  constructor
  · rintro ⟨f, hf, hsource⟩
    obtain ⟨rel, content, rfl, hvisible, hpasses⟩ := (mem_discover_iff hd hdir h).1 hf
    obtain ⟨rfl, rfl, hsize⟩ := (source?_eq_some_iff hd hvisible).1 hsource
    exact ⟨rel, rfl, hvisible, hpasses, hsize⟩
  · rintro ⟨rel, rfl, hvisible, hpasses, hsize⟩
    refine ⟨Disk.pathOf (names ++ rel), ?_, (source?_eq_some_iff hd hvisible).2 ⟨rfl, rfl, hsize⟩⟩
    exact (mem_discover_iff hd hdir h).2 ⟨rel, _, rfl, hvisible, hpasses⟩

theorem pairwise_filterMap_source? :
    ((discover tools d settings (Disk.pathOf names)).filterMap
      (source? d (Disk.pathOf names) limit)).Pairwise fun x y ↦ x.1.lt y.1 = true := by
  refine List.pairwise_filterMap.2 ((pairwise_discover hd hdir h).imp_of_mem ?_)
  rintro f g hf hg hlt ⟨path, text⟩ hsource ⟨path', text'⟩ hsource'
  obtain ⟨rel, content, rfl, hvisible, -⟩ := (mem_discover_iff hd hdir h).1 hf
  obtain ⟨rel', content', rfl, hvisible', -⟩ := (mem_discover_iff hd hdir h).1 hg
  obtain ⟨rfl, -⟩ := (source?_eq_some_iff hd hvisible).1 hsource
  obtain ⟨rfl, -⟩ := (source?_eq_some_iff hd hvisible').1 hsource'
  obtain ⟨hnames, hrel⟩ := hvisible.isName hd
  exact (lt_pathOf_iff hnames hrel (hvisible'.isName hd).2).1 hlt

theorem discover_eq_nil_iff : discover tools d settings (Disk.pathOf names) = [] ↔
    ∀ rel content, Visible d names rel content → ¬Passes settings rel := by
  rw [List.eq_nil_iff_forall_not_mem]
  constructor
  · intro hnone rel content hvisible hpasses
    exact hnone _ ((mem_discover_iff hd hdir h).2 ⟨rel, content, rfl, hvisible, hpasses⟩)
  · intro hnone f hf
    obtain ⟨rel, content, -, hvisible, hpasses⟩ := (mem_discover_iff hd hdir h).1 hf
    exact hnone rel content hvisible hpasses

theorem holds_of_files_eq (hproject : ∃ p, w.solution.projects.toList = [p] ∧ p.id = w.projectId)
    (hfiles : w.files = (discover tools d settings (Disk.pathOf names)).filterMap
      (source? d (Disk.pathOf names) limit)) :
    w.Holds (IsSource d settings limit names) := by
  refine holds_of_files hproject (fun path text ↦ ?_) ?_ fun rel text rel' text' h₁ h₂ hpath ↦ ?_
  · rw [hfiles]
    exact mem_filterMap_source?_iff hd hdir h
  · rw [hfiles]
    exact pairwise_filterMap_source? hd hdir h
  · exact PathName.eq_of_ofNames_eq (h₁.visible.isName hd).2 (h₂.visible.isName hd).2 hpath

theorem readBytes_of_mem_discover (hf : f ∈ discover tools d settings (Disk.pathOf names)) :
    ∃ content, d.readBytes f = .ok content := by
  obtain ⟨rel, content, rfl, hvisible, -⟩ := (mem_discover_iff hd hdir h).1 hf
  exact ⟨content, hvisible.readBytes hd⟩

end

theorem load_of_resolve (h : d.resolve root = .ok names) (u : Supply) :
    load tools d settings limit root u =
      if discover tools d settings (Disk.pathOf names) = [] then
        .error (.noSourceFiles (Disk.pathOf names)) u
      else ofFiles tools d settings limit (Disk.pathOf names)
        (discover tools d settings (Disk.pathOf names)) u := by
  have hroot : (MonadExcept.ofExcept ((d.canonical root).mapError .disk) : LoadM PathName) u =
      .ok (Disk.pathOf names) u := by
    rw [Disk.canonical, h]
    rfl
  rw [load, bind_of_ok hroot]
  simp only [List.isEmpty_iff]
  split <;> rfl

/-- **Loading is exact.** Let the walk find each visible file below a directory once, in any order,
and let no rule have a verdict on any path. Loading fails for want of sources if and only if no file
below the directory is asked for; otherwise the workspace holds exactly the sources below the
directory. Another walk leads to the same paths and texts, in the same order. -/
theorem load_exact {es : List (String × DiskEntry)} (hd : d.WellFormed)
    (hroot : d.resolve root = .ok names) (hdir : d.entry? names = some (.directory es))
    (hparses : tools.Parses) (hparses' : tools'.Parses) (h : Plain tools d settings names)
    (h' : Plain tools' d settings names) (limit : Nat) (u u' : Supply) :
    ((∃ v, load tools d settings limit root u = .error (.noSourceFiles (Disk.pathOf names)) v) ↔
        ∀ rel content, Visible d names rel content → ¬Passes settings rel) ∧
      ((∃ rel content, Visible d names rel content ∧ Passes settings rel) →
        ∃ w v w' v', load tools d settings limit root u = .ok w v ∧
          load tools' d settings limit root u' = .ok w' v' ∧ w.root = Disk.pathOf names ∧
          w.Holds (IsSource d settings limit names) ∧ w'.files = w.files) := by
  have hnone := discover_eq_nil_iff hd hdir h
  rw [load_of_resolve hroot, load_of_resolve hroot, ← discover_eq hd hdir h h']
  by_cases hempty : discover tools d settings (Disk.pathOf names) = []
  · rw [if_pos hempty, if_pos hempty]
    refine ⟨iff_of_true ⟨u, rfl⟩ (hnone.1 hempty), fun ⟨rel, content, hvisible, hpasses⟩ ↦ ?_⟩
    exact absurd hpasses (hnone.1 hempty rel content hvisible)
  · have hread : ∀ f ∈ discover tools d settings (Disk.pathOf names),
        ∃ content, d.readBytes f = .ok content := fun f ↦ readBytes_of_mem_discover hd hdir h
    obtain ⟨w, v, hw, hwroot, hproject, hfiles⟩ := ofFiles_of_readable hparses hread u
    obtain ⟨w', v', hw', -, -, hfiles'⟩ := ofFiles_of_readable hparses' hread u'
    rw [if_neg hempty, if_neg hempty, hw, hw']
    refine ⟨iff_of_false (fun ⟨_, herror⟩ ↦ nomatch herror) (mt hnone.2 hempty),
      fun _ ↦ ⟨w, v, w', v', rfl, rfl, hwroot, ?_, hfiles'.trans hfiles.symm⟩⟩
    exact holds_of_files_eq hd hdir h hproject hfiles

private def projectFiles : List (String × DiskEntry) :=
  [("B.cs", .file "class B \x7b \x7d".toUTF8), (".A.cs", .file "class A \x7b \x7d".toUTF8),
    ("A.cs", .file "class A \x7b \x7d".toUTF8), ("notes.txt", .file "B needs A".toUTF8)]

/-- A directory with two sources, a hidden file and a file that is no source. -/
private def projectDisk : Disk := ⟨[("ws", .directory projectFiles)]⟩

private def forwards : Toolkit := .installed (fun _ ↦ none) ⟨"/ws"⟩

private def backwards : Toolkit where
  parser := forwards.parser
  walk options d root := (forwards.walk options d root).reverse
  matcher? := forwards.matcher?

private theorem wellFormed_projectDisk : projectDisk.WellFormed := by
  have hfiles : (DiskEntry.directory projectFiles).WellFormed :=
    .cons (by decide) (by decide) (.file _) <| .cons (by decide) (by decide) (.file _) <|
      .cons (by decide) (by decide) (.file _) <| .cons (by decide) (by decide) (.file _) .nil
  exact .cons (by decide) (by decide) hfiles .nil

private theorem plain_forwards : Plain forwards projectDisk .initial ["ws"] := by
  -- there is no file of rules in the project
  have hrules : (filterAt forwards projectDisk .initial (Disk.pathOf ["ws"])).rules? = none := by
    decide +kernel
  refine ⟨?_, fun rules h ↦ by rw [hrules] at h; cases h⟩
  refine Ignore.exhaustive_walk wellFormed_projectDisk (by decide) rfl rfl (fun _ _ ↦ rfl)
    fun ns e he depth ↦ Ignore.Level.silent_of_lookup depth ?_
  rcases DiskEntry.descend?_directory he with rfl | ⟨n, e', ns', hmem, he'⟩
  · decide
  · cases List.mem_singleton.1 hmem
    rcases DiskEntry.descend?_directory he' with rfl | ⟨n, e', ns'', hmem, he''⟩
    · decide
    · obtain ⟨content, rfl⟩ : ∃ content, e' = .file content := by
        simp only [projectFiles, List.mem_cons, List.not_mem_nil, or_false, Prod.mk.injEq] at hmem
        rcases hmem with ⟨-, rfl⟩ | ⟨-, rfl⟩ | ⟨-, rfl⟩ | ⟨-, rfl⟩ <;> exact ⟨_, rfl⟩
      obtain ⟨-, rfl⟩ := DiskEntry.descend?_file he''
      exact fun _ _ ↦ rfl

/-- The walk of the installed libraries and the same walk backwards load the same sources. -/
theorem load_exact_project :
    ∃ w v w' v', load forwards projectDisk .initial 100 ⟨"/ws"⟩ .start = .ok w v ∧
      load backwards projectDisk .initial 100 ⟨"/ws"⟩ .start = .ok w' v' ∧
      w.Holds (IsSource projectDisk .initial 100 ["ws"]) ∧ w'.files = w.files := by
  have hroot : projectDisk.resolve ⟨"/ws"⟩ = .ok ["ws"] := rfl
  have hparses : forwards.Parses := ⟨_, rfl, CSharp.parser_sound⟩
  have hparses' : backwards.Parses := hparses
  have hbackwards : Plain backwards projectDisk .initial ["ws"] :=
    ⟨plain_forwards.walk.of_perm (List.reverse_perm _), plain_forwards.rules⟩
  obtain ⟨w, v, w', v', hw, hw', -, hholds, hsame⟩ :=
    (load_exact wellFormed_projectDisk hroot rfl hparses hparses' plain_forwards hbackwards 100
      .start .start).2
      ⟨["A.cs"], _, ⟨rfl, by decide⟩, by decide, by decide⟩
  exact ⟨w, v, w', v', hw, hw', hholds, hsame⟩

end Workspace

end CodeFix
