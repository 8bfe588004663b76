import CodeFix.Disk.Basic
import CodeFix.Proofs.Path
import Mathlib.Data.List.Nodup
import Mathlib.Data.List.TakeWhile

/-!
# Well-formed disks

On a disk that a program can meet, the entries of a directory have different names, and every name
is a step of a path. Then the names that lead to an entry and the path spelled from them say the
same (`resolve_pathOf`), and whatever a path is resolved to is there (`isSome_of_resolve`).

Writing a file that is there exchanges its content and that of no other file (`write_file`). A path
with a slash at its end is never written, not even if it leads to a file (`write_slash`).
-/

namespace CodeFix

namespace DiskEntry

variable {e e' new : DiskEntry} {es : List (String × DiskEntry)} {n : String}
  {names names' : List String} {content content' : ByteArray}

/-- Induction over the entries below an entry. -/
@[elab_as_elim]
theorem induction {motive : DiskEntry → Prop} (file : ∀ content, motive (.file content))
    (directory : ∀ es, (∀ n e, (n, e) ∈ es → motive e) → motive (.directory es))
    (e : DiskEntry) : motive e :=
  @DiskEntry.rec motive (fun es ↦ ∀ n e, (n, e) ∈ es → motive e) (fun x ↦ motive x.2)
    file (fun es ih ↦ directory es ih) (fun _ _ h ↦ nomatch h)
    (fun _ _ ihe ihes n e h ↦ (List.mem_cons.1 h).elim (fun h ↦ by subst h; exact ihe) (ihes n e))
    (fun _ _ ih ↦ ih) e

/-- Below the entry no directory has a name twice, and all names are steps of paths. -/
inductive WellFormed : DiskEntry → Prop
  | file (content : ByteArray) : WellFormed (.file content)
  | directory {es : List (String × DiskEntry)} (distinct : (es.map Prod.fst).Nodup)
      (names : ∀ n e, (n, e) ∈ es → IsName n) (entries : ∀ n e, (n, e) ∈ es → WellFormed e) :
      WellFormed (.directory es)

theorem WellFormed.nil : (DiskEntry.directory []).WellFormed :=
  .directory List.nodup_nil (fun _ _ h ↦ nomatch h) fun _ _ h ↦ nomatch h

theorem WellFormed.cons (hn : IsName n) (hne : n ∉ es.map Prod.fst) (he : e.WellFormed)
    (hes : (DiskEntry.directory es).WellFormed) :
    (DiskEntry.directory ((n, e) :: es)).WellFormed := by
  cases hes with
  | directory distinct hnames hentries =>
    refine .directory (List.nodup_cons.2 ⟨hne, distinct⟩) (fun m e' h ↦ ?_) fun m e' h ↦ ?_
    · rcases List.mem_cons.1 h with heq | h
      · cases heq
        exact hn
      · exact hnames m e' h
    · rcases List.mem_cons.1 h with heq | h
      · cases heq
        exact he
      · exact hentries m e' h

/-! ## Looking up and assigning -/

theorem mem_of_lookup (h : es.lookup n = some e) : (n, e) ∈ es := by
  obtain ⟨before, after, rfl, -⟩ := List.lookup_eq_some_iff.1 h
  exact List.mem_append_cons_self

theorem lookup_of_mem (hes : (es.map Prod.fst).Nodup) (h : (n, e) ∈ es) :
    es.lookup n = some e := by
  obtain ⟨before, after, rfl⟩ := List.append_of_mem h
  refine List.lookup_eq_some_iff.2 ⟨before, after, rfl, fun x hx ↦ ?_⟩
  rw [List.map_append, List.map_cons, List.nodup_middle, List.nodup_cons, ← List.map_append] at hes
  refine bne_iff_ne.2 fun hn ↦ hes.1 (List.mem_map.2 ⟨x, ?_, hn.symm⟩)
  exact List.mem_append_left after hx

theorem lookup_assign_self (n : String) (e : DiskEntry) (es : List (String × DiskEntry)) :
    (assign n e es).lookup n = some e := by
  induction es with
  | nil => simp [assign]
  | cons x es ih =>
    obtain ⟨m, old⟩ := x
    rw [assign]
    split
    · simp
    · next hne => rw [List.lookup_cons, beq_eq_false_iff_ne.2 (Ne.symm hne)]; exact ih

theorem lookup_assign_of_ne {m : String} (h : m ≠ n) (e : DiskEntry)
    (es : List (String × DiskEntry)) : (assign n e es).lookup m = es.lookup m := by
  induction es with
  | nil => simp [assign, h]
  | cons x es ih =>
    obtain ⟨k, old⟩ := x
    rw [assign]
    split
    · next hk => rw [List.lookup_cons, List.lookup_cons, hk, beq_eq_false_iff_ne.2 h]
    · rw [List.lookup_cons, List.lookup_cons, ih]

/-! ## Going down -/

theorem descend?_cons (e : DiskEntry) (n : String) (names : List String) :
    e.descend? (n :: names) = (e.entries.lookup n).bind fun e' ↦ e'.descend? names := rfl

theorem descend?_append (e : DiskEntry) (names names' : List String) :
    e.descend? (names ++ names') = (e.descend? names).bind fun e' ↦ e'.descend? names' := by
  induction names generalizing e with
  | nil => rfl
  | cons n names ih =>
    rw [List.cons_append, descend?_cons, descend?_cons]
    cases e.entries.lookup n with
    | none => rfl
    | some e' => exact ih e'

theorem exists_of_descend?_cons (h : e.descend? (n :: names) = some new) :
    ∃ es e', e = .directory es ∧ es.lookup n = some e' ∧ e'.descend? names = some new := by
  rw [descend?_cons] at h
  obtain ⟨e', hlookup, hdescend⟩ := Option.bind_eq_some_iff.1 h
  cases e with
  | file content => cases hlookup
  | directory es => exact ⟨es, e', rfl, hlookup, hdescend⟩

/-- Below a directory there is the directory itself and what is below its entries. -/
theorem descend?_directory (h : (directory es).descend? names = some new) :
    new = .directory es ∨ ∃ n e names', (n, e) ∈ es ∧ e.descend? names' = some new := by
  cases names with
  | nil => exact .inl (Option.some_inj.1 h).symm
  | cons n names =>
    obtain ⟨es', e, hes, hlookup, hdescend⟩ := exists_of_descend?_cons h
    cases hes
    exact .inr ⟨n, e, names, mem_of_lookup hlookup, hdescend⟩

theorem descend?_file {names : List String} (h : (file content).descend? names = some new) :
    names = [] ∧ new = .file content := by
  cases names with
  | nil => exact ⟨rfl, (Option.some_inj.1 h).symm⟩
  | cons n names =>
    obtain ⟨es, e', hfile, -⟩ := exists_of_descend?_cons h
    cases hfile

theorem WellFormed.descend? (he : e.WellFormed) (h : e.descend? names = some new) :
    new.WellFormed ∧ ∀ n ∈ names, IsName n := by
  induction names generalizing e with
  | nil =>
    obtain rfl : e = new := Option.some_inj.1 h
    exact ⟨he, by simp⟩
  | cons n names ih =>
    obtain ⟨es, e', rfl, hlookup, hdescend⟩ := exists_of_descend?_cons h
    cases he with
    | directory distinct hnames hentries =>
      have hmem := mem_of_lookup hlookup
      obtain ⟨hnew, hrest⟩ := ih (hentries n e' hmem) hdescend
      exact ⟨hnew, List.forall_mem_cons.2 ⟨hnames n e' hmem, hrest⟩⟩

/-! ## Putting an entry -/

theorem put_cons {e' : DiskEntry} (h : es.lookup n = some e') (names : List String)
    (new : DiskEntry) :
    (directory es).put (n :: names) new = .directory (assign n (e'.put names new) es) := by
  cases names with
  | nil => rfl
  | cons m names =>
    rw [put, h]
    exact List.cons_ne_nil m names

theorem descend?_put_self (h : e.descend? names = some e') (new : DiskEntry) :
    (e.put names new).descend? names = some new := by
  induction names generalizing e with
  | nil => rfl
  | cons n names ih =>
    obtain ⟨es, e₁, rfl, hlookup, hdescend⟩ := exists_of_descend?_cons h
    rw [put_cons hlookup, descend?_cons, entries, lookup_assign_self]
    exact ih hdescend

theorem descend?_put_of_ne (h : e.descend? names = some (.file content))
    (h' : e.descend? names' = some (.file content')) (hne : names' ≠ names) (new : DiskEntry) :
    (e.put names new).descend? names' = some (.file content') := by
  induction names generalizing e names' with
  | nil =>
    -- below a file there is no other place
    obtain rfl : e = .file content := Option.some_inj.1 h
    exact absurd (descend?_file h').1 hne
  | cons n names ih =>
    obtain ⟨es, e₁, rfl, hlookup, hdescend⟩ := exists_of_descend?_cons h
    cases names' with
    | nil => cases h'
    | cons m names' =>
      obtain ⟨es', e₂, hes, hlookup', hdescend'⟩ := exists_of_descend?_cons h'
      cases hes
      rw [put_cons hlookup, descend?_cons, entries]
      by_cases hmn : m = n
      · subst hmn
        cases hlookup.symm.trans hlookup'
        rw [lookup_assign_self]
        exact ih hdescend hdescend' fun hsame ↦ hne (congrArg (m :: ·) hsame)
      · rw [lookup_assign_of_ne hmn, hlookup']
        exact hdescend'

end DiskEntry

namespace Disk

open DiskEntry

variable {d : Disk} {e : DiskEntry} {n : String} {names names' : List String}
  {content content' : ByteArray}

/-- No directory has a name twice, and all names are steps of paths. -/
def WellFormed (d : Disk) : Prop := d.root.WellFormed

theorem entry?_append (d : Disk) (names names' : List String) :
    d.entry? (names ++ names') = (d.entry? names).bind fun e ↦ e.descend? names' :=
  descend?_append d.root names names'

theorem entry?_isSome_of_append (h : (d.entry? (names ++ names')).isSome) :
    (d.entry? names).isSome := by
  rw [entry?_append] at h
  exact Option.isSome_of_isSome_bind h

theorem exists_directory (h : d.entry? (names ++ [n]) = some e) :
    ∃ es, d.entry? names = some (.directory es) ∧ es.lookup n = some e := by
  rw [entry?_append] at h
  obtain ⟨e', he', hdescend⟩ := Option.bind_eq_some_iff.1 h
  obtain ⟨es, e'', rfl, hlookup, hnil⟩ := exists_of_descend?_cons hdescend
  cases hnil
  exact ⟨es, he', hlookup⟩

/-! ## Resolving -/

/-- A name leads to itself or nowhere. -/
theorem step_directory {es : List (String × DiskEntry)} (hn : IsName n)
    (h : d.entry? names = some (.directory es)) :
    d.step names n = if (es.lookup n).isSome then .ok (names ++ [n]) else .error .notFound := by
  have hidle : ¬(n == "" || n == ".") = true := by
    simpa using ⟨hn.ne_empty, hn.ne_current⟩
  have hparent : ¬(n == "..") = true := by simpa using hn.ne_parent
  rw [step, h]
  simp only [if_neg hidle, if_neg hparent]

theorem step_of_isSome (hn : IsName n) (h : (d.entry? (names ++ [n])).isSome) :
    d.step names n = .ok (names ++ [n]) := by
  obtain ⟨e, he⟩ := Option.isSome_iff_exists.1 h
  obtain ⟨es, hes, hlookup⟩ := exists_directory he
  rw [step_directory hn hes, hlookup]
  rfl

theorem foldlM_step (names : List String) (hnames' : ∀ n ∈ names', IsName n)
    (h : (d.entry? (names ++ names')).isSome) :
    names'.foldlM d.step names = .ok (names ++ names') := by
  induction names' generalizing names with
  | nil => rw [List.append_nil]; rfl
  | cons n rest ih =>
    rw [← List.singleton_append, ← List.append_assoc] at h ⊢
    have hstep := step_of_isSome (hnames' n List.mem_cons_self) (entry?_isSome_of_append h)
    rw [List.singleton_append, List.foldlM_cons, hstep]
    exact ih _ (fun m hm ↦ hnames' m (List.mem_cons_of_mem n hm)) h

/-- **Resolving** the path along names that lead to something. -/
theorem resolve_pathOf (hnames : ∀ n ∈ names, IsName n) (h : (d.entry? names).isSome) :
    d.resolve (pathOf names) = .ok names := by
  rw [resolve, PathName.isAbsolute_pathOf, if_pos rfl]
  by_cases hne : names = []
  · rw [hne]
    rfl
  · rw [PathName.segments_pathOf hne fun n hn ↦ (hnames n hn).no_slash]
    exact foldlM_step [] hnames h

theorem eq_of_step (hn : IsName n) (h : d.step names n = .ok names') : names' = names ++ [n] := by
  cases he : d.entry? names with
  | none => rw [step, he] at h; cases h
  | some e =>
    cases e with
    | file content => rw [step, he] at h; cases h
    | directory es =>
      rw [step_directory hn he] at h
      split at h
      · cases h
        rfl
      · cases h

theorem eq_of_foldlM_step {segments : List String} (hsegments : ∀ n ∈ segments, IsName n)
    (h : segments.foldlM d.step names = .ok names') : names' = names ++ segments := by
  induction segments generalizing names with
  | nil =>
    cases h
    rw [List.append_nil]
  | cons n rest ih =>
    obtain ⟨hn, hrest⟩ := List.forall_mem_cons.1 hsegments
    rw [List.foldlM_cons] at h
    cases hstep : d.step names n with
    | error e => rw [hstep] at h; cases h
    | ok next =>
      rw [hstep] at h
      rw [ih hrest h, eq_of_step hn hstep, List.append_assoc, List.singleton_append]

theorem eq_of_resolve_pathOf (hnames : ∀ n ∈ names, IsName n)
    (h : d.resolve (pathOf names) = .ok names') : names' = names := by
  rw [resolve, PathName.isAbsolute_pathOf, if_pos rfl] at h
  by_cases hne : names = []
  · subst hne
    cases h
    rfl
  · rw [PathName.segments_pathOf hne fun n hn ↦ (hnames n hn).no_slash] at h
    exact eq_of_foldlM_step hnames h

theorem isFile_pathOf (hnames : ∀ n ∈ names, IsName n) :
    d.isFile (pathOf names) = true ↔ ∃ content, d.entry? names = some (.file content) := by
  constructor
  · intro h
    rw [isFile, find?] at h
    cases hresolve : d.resolve (pathOf names) with
    | error e => rw [hresolve] at h; cases h
    | ok names' =>
      obtain rfl := eq_of_resolve_pathOf hnames hresolve
      rw [hresolve] at h
      cases he : d.entry? names' with
      | none => simp only [he] at h; cases h
      | some e =>
        cases e with
        | file content => exact ⟨content, rfl⟩
        | directory es => simp only [he] at h; cases h
  · rintro ⟨content, he⟩
    rw [isFile, find?, resolve_pathOf hnames (by rw [he]; rfl)]
    simp only [he]
    rfl

theorem isName_of_isSome (hd : d.WellFormed) (h : (d.entry? names).isSome) :
    ∀ n ∈ names, IsName n := by
  obtain ⟨e, he⟩ := Option.isSome_iff_exists.1 h
  exact (DiskEntry.WellFormed.descend? hd he).2

/-- No step leads away from what is there. -/
theorem isSome_of_step {segment : String} (h : (d.entry? names).isSome)
    (hstep : d.step names segment = .ok names') : (d.entry? names').isSome := by
  obtain ⟨e, he⟩ := Option.isSome_iff_exists.1 h
  rw [step, he] at hstep
  cases e with
  | file content => cases hstep
  | directory es =>
    simp only at hstep
    split at hstep
    · cases hstep
      exact h
    · split at hstep
      · cases hstep
        rcases List.eq_nil_or_concat' names with rfl | ⟨front, n, rfl⟩
        · exact h
        · rw [List.dropLast_concat]
          exact entry?_isSome_of_append h
      · split at hstep
        · next hlookup =>
          cases hstep
          rw [entry?_append, he]
          obtain ⟨e', he'⟩ := Option.isSome_iff_exists.1 hlookup
          rw [Option.bind_some, descend?_cons, DiskEntry.entries, he']
          rfl
        · cases hstep

/-- **Resolved paths.** What a path is resolved to is there. -/
theorem isSome_of_resolve {p : PathName} (h : d.resolve p = .ok names) :
    (d.entry? names).isSome := by
  -- the names that are reached lead to something after every segment
  have hrun : ∀ (segments : List String) {names : List String}, (d.entry? names).isSome →
      ∀ {names'}, segments.foldlM d.step names = .ok names' → (d.entry? names').isSome := by
    intro segments
    induction segments with
    | nil =>
      intro names hnames names' h
      cases h
      exact hnames
    | cons segment segments ih =>
      intro names hnames names' h
      rw [List.foldlM_cons] at h
      cases hstep : d.step names segment with
      | error e => rw [hstep] at h; cases h
      | ok next =>
        rw [hstep] at h
        exact ih (isSome_of_step hnames hstep) h
  rw [resolve] at h
  split at h
  · exact hrun p.segments rfl h
  · cases h

theorem isDirectory_of_resolve {p : PathName} (h : d.resolve p = .ok names)
    (he : d.entry? names = some e) : d.isDirectory p = e.isDirectory := by
  rw [isDirectory, find?, h]
  simp only [he]
  rfl

/-! ## Reading and writing -/

theorem readBytes_pathOf (hnames : ∀ n ∈ names, IsName n)
    (h : d.entry? names = some (.file content)) : d.readBytes (pathOf names) = .ok content := by
  rw [readBytes, resolve_pathOf hnames (by rw [h]; rfl)]
  simp only [bind, Except.bind, h]

theorem ne_nil_of_file (h : d.entry? names = some (.file content)) : names ≠ [] := by
  rintro rfl
  cases h

theorem root_put (h : d.entry? names = some (.file content)) (new : DiskEntry) :
    (d.put names new).root = d.root.put names new := by
  obtain ⟨n, rest, rfl⟩ := List.exists_cons_of_ne_nil (ne_nil_of_file h)
  obtain ⟨es, e', hes, hlookup, -⟩ := exists_of_descend?_cons h
  rw [root, put, hes, put_cons hlookup]
  rfl

/-- Writing at the name of a file, with slashes behind it or without. -/
theorem write_eq {p : PathName} (slashes : List String) (hnames : ∀ m ∈ names ++ [n], IsName m)
    (h : d.entry? (names ++ [n]) = some (.file content)) (hslashes : ∀ s ∈ slashes, s = "")
    (hp : p.segments = names ++ [n] ++ slashes) (new : ByteArray) :
    d.write p new =
      if p.segments.getLastD "" == "" then .error .isDirectory
      else .ok (d.put (names ++ [n]) (.file new)) := by
  obtain ⟨es, hes, hlookup⟩ := exists_directory h
  obtain ⟨hempty, hcurrent, hparent, -⟩ := hnames n (List.mem_append_right names List.mem_cons_self)
  -- the name that is looked up has no slash behind it
  have hkept : (p.segments.reverse.dropWhile (· == "")).reverse = names ++ [n] := by
    have hdrop : slashes.reverse.dropWhile (· == "") = [] :=
      List.dropWhile_eq_nil_iff.2 fun s hs ↦ by simpa using hslashes s (List.mem_reverse.1 hs)
    rw [hp, List.reverse_append, List.dropWhile_append, hdrop, if_pos List.isEmpty_nil,
      List.reverse_append, List.reverse_singleton, List.singleton_append, List.dropWhile_cons,
      beq_eq_false_iff_ne.2 hempty, if_neg Bool.false_ne_true, List.reverse_cons,
      List.reverse_reverse]
  have hparents : names.foldlM d.step [] = .ok names :=
    foldlM_step [] (fun m hm ↦ hnames m (List.mem_append_left _ hm)) (by
      rw [List.nil_append, hes]
      rfl)
  rw [write, hkept]
  simp only [List.dropLast_concat, hparents, bind, Except.bind, hes, List.getLastD_concat,
    beq_eq_false_iff_ne.2 hcurrent, beq_eq_false_iff_ne.2 hparent, Bool.or_false, hlookup]

/-- **Writing a file** that is there exchanges its content. -/
theorem write_file (hnames : ∀ n ∈ names, IsName n) (h : d.entry? names = some (.file content))
    (new : ByteArray) : d.write (pathOf names) new = .ok (d.put names (.file new)) := by
  have hsegments := PathName.segments_pathOf (ne_nil_of_file h) fun m hm ↦ (hnames m hm).no_slash
  obtain ⟨front, n, rfl⟩ := (List.eq_nil_or_concat' names).resolve_left (ne_nil_of_file h)
  have hempty := (hnames n (List.mem_append_right front List.mem_cons_self)).ne_empty
  rw [write_eq [] hnames h (by simp) (by rw [hsegments, List.append_nil]), hsegments,
    List.getLastD_concat, beq_eq_false_iff_ne.2 hempty, if_neg Bool.false_ne_true]

/-- **A slash at the end** of the path to a file keeps it from being written. -/
theorem write_slash (hnames : ∀ n ∈ names, IsName n) (h : d.entry? names = some (.file content))
    (new : ByteArray) : d.write (pathOf (names ++ [""])) new = .error .isDirectory := by
  have hsegments : (pathOf (names ++ [""])).segments = names ++ [""] := by
    refine PathName.segments_pathOf (by simp) fun m hm ↦ ?_
    rcases List.mem_append.1 hm with hm | hm
    · exact (hnames m hm).no_slash
    · simp [List.mem_singleton.1 hm]
  obtain ⟨front, n, rfl⟩ := (List.eq_nil_or_concat' names).resolve_left (ne_nil_of_file h)
  rw [write_eq [""] hnames h (by simp) hsegments, hsegments, List.getLastD_concat]
  rfl

theorem entry?_put_self (h : d.entry? names = some (.file content)) (new : DiskEntry) :
    entry? (d.put names new) names = some new := by
  unfold entry?
  rw [root_put h]
  exact descend?_put_self h new

theorem entry?_put_of_ne (h : d.entry? names = some (.file content))
    (h' : d.entry? names' = some (.file content')) (hne : names' ≠ names) (new : DiskEntry) :
    entry? (d.put names new) names' = some (.file content') := by
  unfold entry?
  rw [root_put h]
  exact descend?_put_of_ne h h' hne new

end Disk

end CodeFix
