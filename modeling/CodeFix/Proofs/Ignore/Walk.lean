import CodeFix.Ignore.Walk
import CodeFix.Proofs.Workspace.Discovery

/-!
# What walks find

Everything that a walk finds is on the disk, at the names that its path is spelled from, and nothing
is found twice, whatever the ignore rules say (`exists_of_mem_pathsOf`, `nodup_pathsOf`). How much
is found depends on the rules. If none of them has a verdict on any path, it is all that no hidden
name leads to, so the walk is exhaustive (`exhaustive_walk`).
-/

namespace CodeFix.Ignore

variable {user : UserRules} {options : WalkOptions} {levels : List Level} {names rel : List String}
  {p : PathName} {e : DiskEntry} {es : List (String × DiskEntry)} {d : Disk}

/-! ## Under any rules -/

theorem pathsAmong_eq_flatMap (user : UserRules) (options : WalkOptions) (levels : List Level)
    (names : List String) (es : List (String × DiskEntry)) :
    pathsAmong user options levels names es = es.flatMap fun x ↦
      if isLeftOut user options levels (names ++ [x.1]) x.1 x.2.isDirectory then []
      else pathsOf user options levels (names ++ [x.1]) x.2 := by
  induction es with
  | nil => rfl
  | cons x es ih => rw [pathsAmong, ih, List.flatMap_cons]

theorem exists_of_mem_pathsAmong (h : p ∈ pathsAmong user options levels names es) :
    ∃ n e, (n, e) ∈ es ∧ p ∈ pathsOf user options levels (names ++ [n]) e := by
  rw [pathsAmong_eq_flatMap] at h
  obtain ⟨⟨n, e⟩, hmem, hp⟩ := List.mem_flatMap.1 h
  split at hp
  · cases hp
  · exact ⟨n, e, hmem, hp⟩

theorem exists_of_mem_pathsOf (he : e.WellFormed) (h : p ∈ pathsOf user options levels names e) :
    ∃ rel, p = Disk.pathOf (names ++ rel) ∧ (e.descend? rel).isSome := by
  induction e using DiskEntry.induction generalizing levels names with
  | file content => exact ⟨[], by rw [List.append_nil]; exact List.mem_singleton.1 h, rfl⟩
  | directory es ih =>
    cases he with
    | directory distinct hnames hentries =>
      rcases List.mem_cons.1 h with rfl | h
      · exact ⟨[], by rw [List.append_nil], rfl⟩
      · obtain ⟨n, e, hmem, hp⟩ := exists_of_mem_pathsAmong h
        obtain ⟨rel, hpath, hdescend⟩ := ih n e hmem (hentries n e hmem) hp
        refine ⟨n :: rel, ?_, ?_⟩
        · rw [hpath, List.append_assoc, List.singleton_append]
        · rw [DiskEntry.descend?_cons, DiskEntry.entries, DiskEntry.lookup_of_mem distinct hmem]
          exact hdescend

/-- **Walks go down** from where they begin. -/
theorem exists_of_mem_walk (hd : d.WellFormed) (hnames : ∀ n ∈ names, IsName n)
    (h : p ∈ walk user options d (Disk.pathOf names)) :
    ∃ rel, (∀ n ∈ rel, IsName n) ∧ p = Disk.pathOf (names ++ rel) := by
  rw [walk] at h
  cases hresolve : d.resolve (Disk.pathOf names) with
  | error e => rw [hresolve] at h; cases h
  | ok names' =>
    obtain rfl := Disk.eq_of_resolve_pathOf hnames hresolve
    rw [hresolve] at h
    simp only [walkFrom] at h
    cases he : d.entry? names' with
    | none => rw [he] at h; cases h
    | some e =>
      rw [he] at h
      have hwell := (hd.descend? he).1
      obtain ⟨rel, hpath, hsome⟩ := exists_of_mem_pathsOf hwell h
      obtain ⟨e', he'⟩ := Option.isSome_iff_exists.1 hsome
      exact ⟨rel, (hwell.descend? he').2, hpath⟩

theorem nodup_pathsOf (he : e.WellFormed) (hnames : ∀ n ∈ names, IsName n) :
    (pathsOf user options levels names e).Nodup := by
  induction e using DiskEntry.induction generalizing levels names with
  | file content => exact List.nodup_singleton _
  | directory es ih =>
    cases he with
    | directory distinct hentryNames hentries =>
      have hbelow : ∀ {n e'}, (n, e') ∈ es → ∀ m ∈ names ++ [n], IsName m := fun hmem ↦
        List.forall_mem_append.2
          ⟨hnames, List.forall_mem_singleton.2 (hentryNames _ _ hmem)⟩
      -- the names that lead to what was found can be read off its path
      have hkept : ∀ {n e' levels p}, (n, e') ∈ es →
          p ∈ pathsOf user options levels (names ++ [n]) e' →
            ∃ rel, p.names = names ++ n :: rel := by
        intro n e' levels p hmem hp
        obtain ⟨rel, rfl, hsome⟩ := exists_of_mem_pathsOf (hentries n e' hmem) hp
        obtain ⟨e'', he''⟩ := Option.isSome_iff_exists.1 hsome
        have hrel := ((hentries n e' hmem).descend? he'').2
        refine ⟨rel, ?_⟩
        rw [PathName.names_pathOf (List.forall_mem_append.2 ⟨hbelow hmem, hrel⟩),
          List.append_assoc, List.singleton_append]
      rw [pathsOf]
      refine List.nodup_cons.2 ⟨fun hself ↦ ?_, ?_⟩
      · obtain ⟨n, e', hmem, hp⟩ := exists_of_mem_pathsAmong hself
        obtain ⟨rel, hpnames⟩ := hkept hmem hp
        rw [PathName.names_pathOf hnames] at hpnames
        exact List.cons_ne_nil n rel (List.append_right_eq_self.1 hpnames.symm)
      rw [pathsAmong_eq_flatMap, List.nodup_flatMap]
      constructor
      · rintro ⟨n, e'⟩ hmem
        split
        · exact List.nodup_nil
        · exact ih n e' hmem (hentries n e' hmem) (hbelow hmem)
      · -- paths below different names differ in that name
        refine (List.pairwise_map.1 distinct).imp_of_mem ?_
        rintro ⟨n, e₁⟩ ⟨m, e₂⟩ hn hm hne p hp hp'
        simp only at hp hp'
        split at hp
        · cases hp
        split at hp'
        · cases hp'
        obtain ⟨rel, hpnames⟩ := hkept hn hp
        obtain ⟨rel', hpnames'⟩ := hkept hm hp'
        rw [hpnames] at hpnames'
        exact hne (List.cons.inj (List.append_cancel_left hpnames')).1

/-! ## Without verdicts -/

/-- The rules have no verdict on any path. -/
def Rules.Silent (rules : Rules) : Prop :=
  ∀ path isDirectory, rules.verdict? path isDirectory = none

/-- None of the rules that a directory holds has a verdict on any path. -/
structure Level.Silent (l : Level) : Prop where
  ignoreFile : l.ignoreFile.Silent
  gitignore : l.gitignore.Silent
  gitExclude : l.gitExclude.Silent

theorem Rules.silent_nil : Rules.Silent [] := fun _ _ ↦ rfl

theorem Level.silent_of_lookup (depth : Nat)
    (h : ∀ n ∈ [".ignore", ".gitignore", ".git"], (e.entries.lookup n).isNone = true) :
    (Level.of options depth e).Silent := by
  have hnone : ∀ n ∈ [".ignore", ".gitignore", ".git"], ∀ rest, rulesAt e (n :: rest) = [] := by
    intro n hn rest
    rw [rulesAt, DiskEntry.descend?_cons, Option.isNone_iff_eq_none.1 (h n hn)]
    rfl
  refine ⟨?_, ?_, ?_⟩
  · rw [Level.of, hnone ".ignore" (by decide)]
    exact Rules.silent_nil
  · rw [Level.of, hnone ".gitignore" (by decide), ite_self]
    exact Rules.silent_nil
  · rw [Level.of, hnone ".git" (by decide), ite_self]
    exact Rules.silent_nil

theorem rankVerdict?_eq_none {rank : Level → Rules} (h : ∀ l ∈ levels, (rank l).Silent)
    (names : List String) (isDirectory : Bool) :
    rankVerdict? rank levels names isDirectory = none := by
  rw [rankVerdict?, List.findSome?_eq_none_iff]
  exact fun l hl ↦ h l hl _ _

theorem verdict?_eq_none (hlevels : ∀ l ∈ levels, l.Silent) (huser : user.rules.Silent)
    (names : List String) (isDirectory : Bool) :
    verdict? user options levels names isDirectory = none := by
  rw [verdict?, rankVerdict?_eq_none fun l hl ↦ (hlevels l hl).ignoreFile,
    rankVerdict?_eq_none fun l hl ↦ (hlevels l hl).gitignore,
    rankVerdict?_eq_none fun l hl ↦ (hlevels l hl).gitExclude, huser, ite_self]
  rfl

theorem isLeftOut_eq (hhidden : options.includeHidden = false) (huser : user.rules.Silent)
    (hlevels : ∀ l ∈ levels, l.Silent) (names : List String) (n : String) (isDirectory : Bool) :
    isLeftOut user options levels names n isDirectory = isHidden n := by
  rw [isLeftOut, verdict?_eq_none hlevels huser, hhidden]
  rfl

theorem mem_pathsOf_iff (he : e.WellFormed) (hhidden : options.includeHidden = false)
    (huser : user.rules.Silent) (hlevels : ∀ l ∈ levels, l.Silent)
    (hrules : ∀ rel e', e.descend? rel = some e' → ∀ depth, (Level.of options depth e').Silent) :
    p ∈ pathsOf user options levels names e ↔ ∃ rel, p = Disk.pathOf (names ++ rel) ∧
      (e.descend? rel).isSome ∧ ∀ n ∈ rel, isHidden n = false := by
  induction e using DiskEntry.induction generalizing levels names with
  | file content =>
    rw [pathsOf, List.mem_singleton]
    constructor
    · rintro rfl
      exact ⟨[], by rw [List.append_nil], rfl, List.forall_mem_nil _⟩
    · rintro ⟨rel, rfl, hsome, -⟩
      obtain ⟨e', he'⟩ := Option.isSome_iff_exists.1 hsome
      rw [(DiskEntry.descend?_file he').1, List.append_nil]
  | directory es ih =>
    cases he with
    | directory distinct hnames hentries =>
      have hall : ∀ l ∈ Level.of options names.length (.directory es) :: levels, l.Silent :=
        List.forall_mem_cons.2 ⟨hrules [] _ rfl _, hlevels⟩
      have hdown : ∀ {n e'}, (n, e') ∈ es → ∀ rel,
          (DiskEntry.directory es).descend? (n :: rel) = e'.descend? rel := by
        intro n e' hmem rel
        rw [DiskEntry.descend?_cons, DiskEntry.entries, DiskEntry.lookup_of_mem distinct hmem]
        rfl
      have hbelow : ∀ {n e'}, (n, e') ∈ es →
          (p ∈ pathsOf user options (Level.of options names.length (.directory es) :: levels)
            (names ++ [n]) e' ↔ ∃ rel, p = Disk.pathOf (names ++ [n] ++ rel) ∧
              (e'.descend? rel).isSome ∧ ∀ m ∈ rel, isHidden m = false) :=
        fun hmem ↦ ih _ _ hmem (hentries _ _ hmem) hall fun rel e'' hdescend ↦
          hrules (_ :: rel) e'' ((hdown hmem rel).trans hdescend)
      rw [pathsOf, List.mem_cons, pathsAmong_eq_flatMap, List.mem_flatMap]
      constructor
      · rintro (rfl | ⟨⟨n, e'⟩, hmem, hp⟩)
        · exact ⟨[], by rw [List.append_nil], rfl, List.forall_mem_nil _⟩
        · rw [isLeftOut_eq hhidden huser hall] at hp
          split at hp
          · cases hp
          · next hn =>
            obtain ⟨rel, hpath, hsome, hvisible⟩ := (hbelow hmem).1 hp
            refine ⟨n :: rel, ?_, by rwa [hdown hmem], ?_⟩
            · rw [hpath, List.append_assoc, List.singleton_append]
            · exact List.forall_mem_cons.2 ⟨Bool.eq_false_iff.2 hn, hvisible⟩
      · rintro ⟨rel, hpath, hsome, hvisible⟩
        cases rel with
        | nil => exact .inl (by rw [hpath, List.append_nil])
        | cons n rel =>
          obtain ⟨e'', he''⟩ := Option.isSome_iff_exists.1 hsome
          obtain ⟨es', e', hes, hlookup, hrest⟩ := DiskEntry.exists_of_descend?_cons he''
          cases hes
          have hmem := DiskEntry.mem_of_lookup hlookup
          obtain ⟨hn, hvisible⟩ := List.forall_mem_cons.1 hvisible
          refine .inr ⟨(n, e'), hmem, ?_⟩
          rw [isLeftOut_eq hhidden huser hall, hn, if_neg Bool.false_ne_true]
          refine (hbelow hmem).2 ⟨rel, ?_, by rw [hrest]; rfl, hvisible⟩
          rw [hpath, List.append_assoc, List.singleton_append]

/-- **Walks are exhaustive** if no rule on the disk has a verdict. -/
theorem exhaustive_walk (hd : d.WellFormed) (hnames : ∀ n ∈ names, IsName n)
    (he : d.entry? names = some e) (hhidden : options.includeHidden = false)
    (huser : user.rules.Silent)
    (hrules : ∀ ns e', d.entry? ns = some e' → ∀ depth, (Level.of options depth e').Silent) :
    Exhaustive d names (walk user options d (Disk.pathOf names)) := by
  have hlevels : ∀ l ∈ levelsAbove options d names, l.Silent := by
    intro l hl
    obtain ⟨k, -, hk⟩ := List.mem_filterMap.1 hl
    obtain ⟨e', he', rfl⟩ := Option.map_eq_some_iff.1 hk
    exact hrules _ e' he' k
  have hbelow : ∀ rel, d.entry? (names ++ rel) = e.descend? rel := fun rel ↦ by
    rw [Disk.entry?_append, he, Option.bind_some]
  have hwell := (hd.descend? he).1
  have hwalk : walk user options d (Disk.pathOf names) =
      pathsOf user options (levelsAbove options d names) names e := by
    rw [walk, Disk.resolve_pathOf hnames (by rw [he]; rfl)]
    simp only [walkFrom, he]
  refine ⟨fun p ↦ ?_, by rw [hwalk]; exact (nodup_pathsOf hwell hnames).filter _⟩
  rw [hwalk, mem_pathsOf_iff hwell hhidden huser hlevels fun rel e' hdescend ↦
    hrules (names ++ rel) e' ((hbelow rel).trans hdescend)]
  constructor
  · rintro ⟨⟨rel, rfl, hsome, hvisible⟩, hfile⟩
    rw [← hbelow] at hsome
    obtain ⟨content, hcontent⟩ := (Disk.isFile_pathOf (Disk.isName_of_isSome hd hsome)).1 hfile
    exact ⟨rel, content, rfl, hcontent, hvisible⟩
  · rintro ⟨rel, content, rfl, hcontent, hvisible⟩
    have hsome : (d.entry? (names ++ rel)).isSome := by rw [hcontent]; rfl
    refine ⟨⟨rel, rfl, hbelow rel ▸ hsome, hvisible⟩, ?_⟩
    exact (Disk.isFile_pathOf (Disk.isName_of_isSome hd hsome)).2 ⟨content, hcontent⟩

end CodeFix.Ignore
