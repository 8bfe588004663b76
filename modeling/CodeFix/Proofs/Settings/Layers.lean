import CodeFix.Settings.Basic
import Mathlib.Data.List.Basic

/-!
# Layers of settings put together

Merging asks of every ignored path of the upper layer whether it is listed already, in a list that
grows meanwhile. What comes out is said without that list: the lower layer stands as it is, and
behind it stands each path that it lacks, once, in the order in which the upper layer first names
them (`appendNew_eq`). The lower layer may repeat itself and keeps doing so.

Appending a list that was itself appended to another one is appending both of them
(`appendNew_appendNew`). This is why three layers can be merged from either side.
-/

namespace CodeFix

/-! ## Appending what is new -/

/-- The texts that an upper list adds to a lower one: those that it has and the lower one lacks,
each of them once, in the order in which it first names them. -/
structure Adds (lower upper new : List String) : Prop where
  mem_iff : ∀ s, s ∈ new ↔ s ∈ upper ∧ s ∉ lower
  ordered : new.Pairwise fun s t ↦ upper.idxOf s < upper.idxOf t

variable {lower upper new : List String} {s : String}

namespace Adds

theorem nodup (h : Adds lower upper new) : new.Nodup := by
  refine h.ordered.imp fun {s t} hlt hst ↦ ?_
  rw [hst] at hlt
  exact Nat.lt_irrefl _ hlt

private theorem ordered_cons (h : Adds lower upper new) (hs : s ∉ new) :
    new.Pairwise fun t t' ↦ (s :: upper).idxOf t < (s :: upper).idxOf t' := by
  refine (List.Pairwise.and_mem.1 h.ordered).imp fun {t t'} ⟨ht, ht', hlt⟩ ↦ ?_
  have hst : s ≠ t := fun hst ↦ hs (hst ▸ ht)
  have hst' : s ≠ t' := fun hst' ↦ hs (hst' ▸ ht')
  rw [List.idxOf_cons_ne _ hst, List.idxOf_cons_ne _ hst']
  exact Nat.succ_lt_succ hlt

theorem cons_of_mem (h : Adds lower upper new) (hs : s ∈ lower) :
    Adds lower (s :: upper) new := by
  refine ⟨fun t ↦ ?_, h.ordered_cons fun hnew ↦ ((h.mem_iff s).1 hnew).2 hs⟩
  rw [h.mem_iff, List.mem_cons]
  constructor
  · intro ⟨hupper, hlower⟩
    exact ⟨Or.inr hupper, hlower⟩
  · intro ⟨hupper, hlower⟩
    exact ⟨hupper.resolve_left fun hts ↦ hlower (hts ▸ hs), hlower⟩

/-- A new text comes first, and from then on it is known. -/
theorem cons_of_not_mem (h : Adds (lower ++ [s]) upper new) (hs : s ∉ lower) :
    Adds lower (s :: upper) (s :: new) := by
  have hnot : s ∉ new := fun hnew ↦ ((h.mem_iff s).1 hnew).2 (List.mem_concat_self ..)
  refine ⟨fun t ↦ ?_, List.pairwise_cons.2 ⟨fun t ht ↦ ?_, h.ordered_cons hnot⟩⟩
  · rw [List.mem_cons, List.mem_cons, h.mem_iff, List.mem_append, List.mem_singleton, not_or]
    by_cases hts : t = s
    · rw [hts]
      exact ⟨fun _ ↦ ⟨Or.inl rfl, hs⟩, fun _ ↦ Or.inl rfl⟩
    · simp [hts]
  · have hst : s ≠ t := fun hst ↦ hnot (hst ▸ ht)
    rw [List.idxOf_cons_eq _ rfl, List.idxOf_cons_ne _ hst]
    exact Nat.succ_pos _

end Adds

theorem appendNew_cons_of_mem (hs : s ∈ lower) (ss : List String) :
    appendNew lower (s :: ss) = appendNew lower ss := by
  rw [appendNew, if_pos (List.contains_iff_mem.2 hs)]

theorem appendNew_cons_of_not_mem (hs : s ∉ lower) (ss : List String) :
    appendNew lower (s :: ss) = appendNew (lower ++ [s]) ss := by
  rw [appendNew, if_neg (mt List.contains_iff_mem.1 hs)]

/-- **What is appended.** The lower list stands as it is, and what the upper one adds behind it. -/
theorem appendNew_eq (lower upper : List String) :
    ∃ new, appendNew lower upper = lower ++ new ∧ Adds lower upper new := by
  induction upper generalizing lower with
  | nil => exact ⟨[], (List.append_nil lower).symm, by simp, List.Pairwise.nil⟩
  | cons s upper ih =>
    by_cases hs : s ∈ lower
    · obtain ⟨new, heq, hnew⟩ := ih lower
      exact ⟨new, by rw [appendNew_cons_of_mem hs, heq], hnew.cons_of_mem hs⟩
    · obtain ⟨new, heq, hnew⟩ := ih (lower ++ [s])
      refine ⟨s :: new, ?_, hnew.cons_of_not_mem hs⟩
      rw [appendNew_cons_of_not_mem hs, heq, List.append_assoc, List.singleton_append]

theorem mem_appendNew : s ∈ appendNew lower upper ↔ s ∈ lower ∨ s ∈ upper := by
  obtain ⟨new, heq, hnew⟩ := appendNew_eq lower upper
  rw [heq, List.mem_append, hnew.mem_iff]
  by_cases hs : s ∈ lower
  · simp [hs]
  · simp [hs]

theorem appendNew_of_subset (h : ∀ s ∈ upper, s ∈ lower) : appendNew lower upper = lower := by
  induction upper with
  | nil => rfl
  | cons s upper ih =>
    rw [appendNew_cons_of_mem (h s List.mem_cons_self)]
    exact ih fun t ht ↦ h t (List.mem_cons_of_mem s ht)

theorem appendNew_append (base xs ys : List String) :
    appendNew base (xs ++ ys) = appendNew (appendNew base xs) ys := by
  induction xs generalizing base with
  | nil => rfl
  | cons s xs ih =>
    rw [List.cons_append]
    by_cases hs : s ∈ base
    · rw [appendNew_cons_of_mem hs, appendNew_cons_of_mem hs, ih]
    · rw [appendNew_cons_of_not_mem hs, appendNew_cons_of_not_mem hs, ih]

/-- What a list repeats of the one before it makes no difference to a third one below them. -/
theorem appendNew_appendNew (a b c : List String) :
    appendNew a (appendNew b c) = appendNew (appendNew a b) c := by
  rw [← appendNew_append]
  induction c generalizing b with
  | nil => rw [List.append_nil, appendNew]
  | cons s c ih =>
    by_cases hs : s ∈ b
    · have hknown : s ∈ appendNew a b := mem_appendNew.2 (Or.inr hs)
      rw [appendNew_cons_of_mem hs, ih, appendNew_append, appendNew_append,
        appendNew_cons_of_mem hknown]
    · rw [appendNew_cons_of_not_mem hs, ih, List.append_assoc, List.singleton_append]

/-! ## Merging -/

namespace Settings

variable (base overlay : Settings)

@[simp] theorem name_merge :
    (base.merge overlay).project.name = overlay.project.name.or base.project.name := rfl

@[simp] theorem extensions_merge : (base.merge overlay).project.extensions =
    if overlay.project.extensions.isEmpty then base.project.extensions
    else overlay.project.extensions := rfl

@[simp] theorem ignoredPaths_merge : (base.merge overlay).project.ignoredPaths =
    appendNew base.project.ignoredPaths overlay.project.ignoredPaths := rfl

private theorem ext_of_fields {a b : Settings} (hname : a.project.name = b.project.name)
    (hextensions : a.project.extensions = b.project.extensions)
    (hignored : a.project.ignoredPaths = b.project.ignoredPaths) (hfixes : a.fixes = b.fixes)
    (hworkspace : a.workspace = b.workspace) (houtput : a.output = b.output) : a = b := by
  obtain ⟨⟨aname, aextensions, aignored⟩, afixes, aworkspace, aoutput⟩ := a
  obtain ⟨⟨bname, bextensions, bignored⟩, bfixes, bworkspace, boutput⟩ := b
  subst hname hextensions hignored hfixes hworkspace houtput
  rfl

theorem name_merge_eq_some_iff (n : String) : (base.merge overlay).project.name = some n ↔
    overlay.project.name = some n ∨
      overlay.project.name = none ∧ base.project.name = some n := by
  rw [name_merge, Option.or_eq_some_iff]

theorem merge_same : base.merge base = base := by
  refine ext_of_fields ?_ ?_ ?_ rfl rfl rfl
  · rw [name_merge, Option.or_self]
  · rw [extensions_merge, ite_self]
  · rw [ignoredPaths_merge, appendNew_of_subset fun s hs ↦ hs]

theorem merge_again : (base.merge overlay).merge overlay = base.merge overlay := by
  refine ext_of_fields ?_ ?_ ?_ rfl rfl rfl
  · rw [name_merge, name_merge, ← Option.or_assoc, Option.or_self]
  · rw [extensions_merge, extensions_merge]
    by_cases hempty : overlay.project.extensions.isEmpty = true
    · rw [if_pos hempty]
    · rw [if_neg hempty, if_neg hempty]
  · rw [ignoredPaths_merge, ignoredPaths_merge]
    exact appendNew_of_subset fun s hs ↦ mem_appendNew.2 (Or.inr hs)

theorem merge_merge (top : Settings) :
    base.merge (overlay.merge top) = (base.merge overlay).merge top := by
  refine ext_of_fields ?_ ?_ ?_ rfl rfl rfl
  · rw [name_merge, name_merge, name_merge, name_merge, Option.or_assoc]
  · rw [extensions_merge, extensions_merge, extensions_merge, extensions_merge]
    by_cases hempty : top.project.extensions.isEmpty = true
    · rw [if_pos hempty, if_pos hempty]
    · rw [if_neg hempty, if_neg hempty, if_neg hempty]
  · rw [ignoredPaths_merge, ignoredPaths_merge, ignoredPaths_merge, ignoredPaths_merge,
      appendNew_appendNew]

/-- **Layers.** Ignored paths accumulate: the lower layer's list stands unchanged, behind it stands
what the upper layer adds, and nothing of either is lost. Every other setting is the upper layer's,
except that an absent name and an empty list of extensions leave the lower layer's standing. Merging
the same layer once more changes nothing, and it does not matter in which order three layers are put
together. -/
theorem merge_layers :
    (∃ new, (base.merge overlay).project.ignoredPaths = base.project.ignoredPaths ++ new ∧
      new.Nodup ∧ Adds base.project.ignoredPaths overlay.project.ignoredPaths new) ∧
    (∀ s, s ∈ (base.merge overlay).project.ignoredPaths ↔
      s ∈ base.project.ignoredPaths ∨ s ∈ overlay.project.ignoredPaths) ∧
    (∀ n, (base.merge overlay).project.name = some n ↔ overlay.project.name = some n ∨
      overlay.project.name = none ∧ base.project.name = some n) ∧
    (base.merge overlay).project.extensions =
      (if overlay.project.extensions = [] then base.project.extensions
        else overlay.project.extensions) ∧
    (base.merge overlay).fixes = overlay.fixes ∧
    (base.merge overlay).workspace = overlay.workspace ∧
    (base.merge overlay).output = overlay.output ∧
    base.merge base = base ∧
    (base.merge overlay).merge overlay = base.merge overlay ∧
    ∀ top : Settings, base.merge (overlay.merge top) = (base.merge overlay).merge top := by
  obtain ⟨new, hnew, hadds⟩ := appendNew_eq base.project.ignoredPaths overlay.project.ignoredPaths
  have hextensions : (base.merge overlay).project.extensions =
      if overlay.project.extensions = [] then base.project.extensions
      else overlay.project.extensions := by
    rw [extensions_merge]
    exact ite_congr (propext List.isEmpty_iff) (fun _ ↦ rfl) fun _ ↦ rfl
  exact ⟨⟨new, hnew, hadds.nodup, hadds⟩, fun s ↦ mem_appendNew,
    name_merge_eq_some_iff base overlay, hextensions, rfl, rfl, rfl, merge_same base,
    merge_again base overlay, merge_merge base overlay⟩

/-- Both layers repeat themselves and each other. -/
example : appendNew ["bin", "obj", "bin"] ["out", "obj", "tmp", "out"] =
    ["bin", "obj", "bin", "out", "tmp"] := by decide

end Settings

end CodeFix
