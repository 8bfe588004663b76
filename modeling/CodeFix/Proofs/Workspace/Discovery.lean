import CodeFix.Proofs.Disk
import CodeFix.Proofs.Solution.PathOrder
import CodeFix.Proofs.Syntax.Lowering
import CodeFix.Workspace.Basic

/-!
# Which files are discovered

Nothing is known here of how a walk goes. All that is asked of it is that it finds each visible file
below the root once (`Exhaustive`), next to anything that is no file. Of these files those are kept
that pass the filter, which looks at the names below the root only (`mem_discover_iff`). Sorting by
path then leaves no choice, since no two of the files share a path, so the files that are discovered
do not depend on the walk (`discover_eq`).
-/

namespace CodeFix

/-! ## What is expected of libraries -/

/-- Below the directory at the names there is a file, and no name on the way to it is hidden. -/
structure Visible (d : Disk) (names rel : List String) (content : ByteArray) : Prop where
  entry_eq : d.entry? (names ++ rel) = some (.file content)
  not_hidden : ∀ n ∈ rel, isHidden n = false

/-- Among the paths that a walk found there is that of each visible file below the directory, once,
and that of no other file. -/
structure Exhaustive (d : Disk) (names : List String) (paths : List PathName) : Prop where
  file_iff : ∀ p, p ∈ paths ∧ d.isFile p = true ↔
    ∃ rel content, p = Disk.pathOf (names ++ rel) ∧ Visible d names rel content
  nodup : (paths.filter d.isFile).Nodup

/-- Whatever a walk on the disk finds, the names of the directory that it began at lead to it, and
further names from there. -/
def Toolkit.WalksDown (tools : Toolkit) (d : Disk) : Prop :=
  ∀ options names, (∀ n ∈ names, IsName n) → ∀ p ∈ tools.walk options d (Disk.pathOf names),
    ∃ rel, (∀ n ∈ rel, IsName n) ∧ p = Disk.pathOf (names ++ rel)

/-- The parser can be used and is sound. -/
def Toolkit.Parses (tools : Toolkit) : Prop := ∃ parse, tools.parser = .ok parse ∧ parse.Sound

section

variable {d : Disk} {names rel : List String} {content : ByteArray} {paths paths' : List PathName}

theorem Visible.isName (h : Visible d names rel content) (hd : d.WellFormed) :
    (∀ n ∈ names, IsName n) ∧ ∀ n ∈ rel, IsName n :=
  List.forall_mem_append.1 (Disk.isName_of_isSome hd (by rw [h.entry_eq]; rfl))

theorem Visible.ne_nil {es : List (String × DiskEntry)} (h : Visible d names rel content)
    (hdir : d.entry? names = some (.directory es)) : rel ≠ [] := by
  rintro rfl
  have hentry := h.entry_eq
  rw [List.append_nil, hdir] at hentry
  cases hentry

theorem Visible.readBytes (h : Visible d names rel content) (hd : d.WellFormed) :
    d.readBytes (Disk.pathOf (names ++ rel)) = .ok content :=
  Disk.readBytes_pathOf (Disk.isName_of_isSome hd (by rw [h.entry_eq]; rfl)) h.entry_eq

theorem Exhaustive.of_perm (h : Exhaustive d names paths) (hperm : paths'.Perm paths) :
    Exhaustive d names paths' :=
  ⟨fun p ↦ (and_congr_left' hperm.mem_iff).trans (h.file_iff p),
    (hperm.filter _).nodup_iff.2 h.nodup⟩

end

/-! ## The filter -/

namespace FileFilter

open PathName

variable {d : Disk} {f : FileFilter} {names rel : List String}

/-- A file is ignored for a name below the root, if the rules have no verdict on any path. -/
theorem isIgnored_pathOf (hroot : f.root = Disk.pathOf names)
    (hrules : ∀ rules ∈ f.rules?, ∀ p isDirectory, rules p isDirectory = none)
    (hnames : ∀ n ∈ names, IsName n) (hrel : ∀ n ∈ rel, IsName n) :
    f.isIgnored d (Disk.pathOf (names ++ rel)) = true ↔ ∃ n ∈ rel, n ∈ f.ignoredNames := by
  have hnone : (f.rules?.bind fun rules ↦ rules (ofNames rel)
      (d.isDirectory (Disk.pathOf (names ++ rel)))) = none :=
    Option.bind_eq_none_iff.2 fun rules h ↦ hrules rules h _ _
  rw [isIgnored, hroot, below?_pathOf hnames hrel, Option.getD_some, names_ofNames hrel, hnone]
  simp

theorem fileName?_pathOf (hnames : ∀ n ∈ names, IsName n) (hrel : ∀ n ∈ rel, IsName n)
    (hne : rel ≠ []) : (Disk.pathOf (names ++ rel)).fileName? = (ofNames rel).fileName? := by
  have hall : ∀ n ∈ names ++ rel, IsName n := List.forall_mem_append.2 ⟨hnames, hrel⟩
  have hlast : (Disk.pathOf (names ++ rel)).components.getLast? =
      (ofNames rel).components.getLast? := by
    rw [components_pathOf hall, components_ofNames hrel, List.map_append, ← List.cons_append]
    exact List.getLast?_append_of_ne_nil _ (mt List.map_eq_nil_iff.1 hne)
  rw [fileName?, hlast, fileName?]

theorem isWanted_pathOf {extensions : List String} (hnames : ∀ n ∈ names, IsName n)
    (hrel : ∀ n ∈ rel, IsName n) (hne : rel ≠ []) :
    isWanted extensions (Disk.pathOf (names ++ rel)) = true ↔
      extensions = [] ∨ (ofNames rel).extension?.getD "" ∈ extensions := by
  rw [isWanted, extension?, extension?, fileName?_pathOf hnames hrel hne, Bool.or_eq_true,
    List.isEmpty_iff, List.contains_iff_mem]

variable {extensions : List String} {p : PathName}

theorem isFile_of_admits (h : f.admits d extensions p = true) : d.isFile p = true := by
  rw [admits, Bool.and_eq_true, Bool.and_eq_true] at h
  exact h.1.1

theorem mem_discover_iff {tools : Toolkit} :
    p ∈ f.discover tools d extensions ↔
      p ∈ tools.walk f.options d f.root ∧ f.admits d extensions p = true := by
  rw [discover, List.mem_mergeSort, List.mem_filter]

end FileFilter

/-! ## Discovery -/

namespace Workspace

open FileFilter

variable {d : Disk} {settings : Settings} {names rel : List String} {content : ByteArray}
  {p : PathName} {es : List (String × DiskEntry)} {tools tools' : Toolkit}

/-- The file at the names below the root is one of those that the settings ask for. -/
structure Passes (settings : Settings) (rel : List String) : Prop where
  extension : settings.project.extensions = [] ∨
    (PathName.ofNames rel).extension?.getD "" ∈ settings.project.extensions
  not_ignored : ∀ n ∈ rel, n ∉ settings.project.ignoredPaths

/-- The walk for the files of a project finds each visible file below its root once, and the rules
of the project have no verdict on any path. -/
structure Plain (tools : Toolkit) (d : Disk) (settings : Settings) (names : List String) :
    Prop where
  walk : Exhaustive d names
    (tools.walk ⟨settings.workspace.respectGitignore, false⟩ d (Disk.pathOf names))
  rules : ∀ rules ∈ (filterAt tools d settings (Disk.pathOf names)).rules?,
    ∀ p isDirectory, rules p isDirectory = none

section

variable (hd : d.WellFormed) (hdir : d.entry? names = some (.directory es))
  (h : Plain tools d settings names)

include hd hdir h

theorem admits_iff (hvisible : Visible d names rel content) :
    (filterAt tools d settings (Disk.pathOf names)).admits d settings.project.extensions
      (Disk.pathOf (names ++ rel)) = true ↔ Passes settings rel := by
  obtain ⟨hnames, hrel⟩ := hvisible.isName hd
  have hfile : d.isFile (Disk.pathOf (names ++ rel)) = true :=
    (Disk.isFile_pathOf (List.forall_mem_append.2 ⟨hnames, hrel⟩)).2 ⟨_, hvisible.entry_eq⟩
  have hignored := isIgnored_pathOf (d := d) rfl h.rules hnames hrel
  rw [admits, hfile, Bool.true_and, Bool.and_eq_true,
    isWanted_pathOf hnames hrel (hvisible.ne_nil hdir), Bool.not_eq_true', ← Bool.not_eq_true,
    hignored]
  constructor
  · rintro ⟨hextension, hnone⟩
    exact ⟨hextension, fun n hn hmem ↦ hnone ⟨n, hn, hmem⟩⟩
  · rintro ⟨hextension, hnot⟩
    exact ⟨hextension, fun ⟨n, hn, hmem⟩ ↦ hnot n hn hmem⟩

/-- **The files that are discovered** are the visible ones that the settings ask for. -/
theorem mem_discover_iff : p ∈ discover tools d settings (Disk.pathOf names) ↔
    ∃ rel content, p = Disk.pathOf (names ++ rel) ∧ Visible d names rel content ∧
      Passes settings rel := by
  rw [discover, FileFilter.mem_discover_iff]
  constructor
  · rintro ⟨hfound, hadmits⟩
    obtain ⟨rel, content, rfl, hvisible⟩ :=
      (h.walk.file_iff p).1 ⟨hfound, isFile_of_admits hadmits⟩
    exact ⟨rel, content, rfl, hvisible, (admits_iff hd hdir h hvisible).1 hadmits⟩
  · rintro ⟨rel, content, rfl, hvisible, hpasses⟩
    exact ⟨((h.walk.file_iff _).2 ⟨rel, content, rfl, hvisible⟩).1,
      (admits_iff hd hdir h hvisible).2 hpasses⟩

theorem pairwise_discover :
    (discover tools d settings (Disk.pathOf names)).Pairwise fun p q ↦ p.lt q = true := by
  set f := filterAt tools d settings (Disk.pathOf names)
  set found := tools.walk f.options d f.root
  set kept := found.filter (f.admits d settings.project.extensions) with hkept
  have hspelled : ∀ p ∈ kept, ∃ ns, (∀ n ∈ ns, IsName n) ∧ p = Disk.pathOf ns := by
    intro p hp
    have hdiscovered : p ∈ discover tools d settings (Disk.pathOf names) :=
      FileFilter.mem_discover_iff.2 (List.mem_filter.1 hp)
    obtain ⟨rel, content, hpath, hvisible, -⟩ := (mem_discover_iff hd hdir h).1 hdiscovered
    exact ⟨names ++ rel, Disk.isName_of_isSome hd (by rw [hvisible.entry_eq]; rfl), hpath⟩
  have hnodup : kept.Nodup := by
    have hfiles : kept = (found.filter d.isFile).filter
        fun p ↦ isWanted settings.project.extensions p && !f.isIgnored d p := by
      rw [List.filter_filter, hkept]
      refine List.filter_congr fun p _ ↦ ?_
      rw [admits, Bool.and_assoc, Bool.and_comm]
    rw [hfiles]
    exact h.walk.nodup.filter _
  refine PathName.pairwise_mergeSort id (List.pairwise_map.2 (hnodup.imp_of_mem ?_))
  intro p q hp hq hne (hsteps : p.components = q.components)
  obtain ⟨ns, hns, rfl⟩ := hspelled p hp
  obtain ⟨ms, hms, rfl⟩ := hspelled q hq
  -- the names that a path is spelled from can be read off its steps
  have hnames : (Disk.pathOf ns).names = (Disk.pathOf ms).names := by
    rw [PathName.names, hsteps, PathName.names]
  rw [PathName.names_pathOf hns, PathName.names_pathOf hms] at hnames
  exact hne (congrArg Disk.pathOf hnames)

/-- **Independence of the walk.** -/
theorem discover_eq (h' : Plain tools' d settings names) :
    discover tools d settings (Disk.pathOf names) =
      discover tools' d settings (Disk.pathOf names) := by
  have hsorted := pairwise_discover hd hdir h
  have hsorted' := pairwise_discover hd hdir h'
  have hdistinct : ∀ {l : List PathName}, l.Pairwise (fun p q ↦ p.lt q = true) → l.Nodup :=
    fun hl ↦ hl.imp fun {p q} hlt (hsame : p = q) ↦ PathName.lt_irrefl q (by rwa [hsame] at hlt)
  refine List.Perm.eq_of_pairwise (fun p q _ _ hpq hqp ↦ ?_) hsorted hsorted' ?_
  · exact absurd (PathName.lt_trans hpq hqp) (PathName.lt_irrefl p)
  · refine (List.perm_ext_iff_of_nodup (hdistinct hsorted) (hdistinct hsorted')).2 fun p ↦ ?_
    rw [mem_discover_iff hd hdir h, mem_discover_iff hd hdir h']

end

/-- Paths below one root are in the order of what leads to them from there. -/
theorem lt_pathOf_iff {rel' : List String} (hnames : ∀ n ∈ names, IsName n)
    (hrel : ∀ n ∈ rel, IsName n) (hrel' : ∀ n ∈ rel', IsName n) :
    (Disk.pathOf (names ++ rel)).lt (Disk.pathOf (names ++ rel')) = true ↔
      (PathName.ofNames rel).lt (.ofNames rel') = true := by
  have hall : ∀ n ∈ names ++ rel, IsName n := List.forall_mem_append.2 ⟨hnames, hrel⟩
  have hall' : ∀ n ∈ names ++ rel', IsName n := List.forall_mem_append.2 ⟨hnames, hrel'⟩
  rw [PathName.lt_iff, PathName.lt_iff, PathName.components_pathOf hall,
    PathName.components_pathOf hall', PathName.components_ofNames hrel,
    PathName.components_ofNames hrel', List.map_append, List.map_append, ← List.cons_append,
    ← List.cons_append, PathName.lex_append_iff]

end Workspace

end CodeFix
