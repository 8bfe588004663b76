import CodeFix.Proofs.ListSearch
import CodeFix.Syntax.Lookup
import Mathlib.Data.List.Infix

/-!
# Pre-order, look-up and paths

A node lies inside another one if it occurs in its pre-order. Look-ups go by id and find the first
node, in pre-order, that carries it; as soon as the ids of a tree are pairwise distinct, that is
*the* node with the id, and the path to it consists of exactly the nodes it lies in
(`mem_pathTo?_iff`), the outer before the inner (`pairwise_pathTo?`).
-/

namespace CodeFix

/-! ## Lists of elements -/

theorem Element.preorderAll_eq_flatMap (es : List Element) :
    Element.preorderAll es = es.flatMap Element.preorder := by
  induction es with
  | nil => rfl
  | cons e es ih => rw [Element.preorderAll, ih, List.flatMap_cons]

theorem Element.pathToAll?_eq_findSome? (id : NodeId) (es : List Element) :
    Element.pathToAll? id es = es.findSome? (Element.pathTo? id) := by
  induction es with
  | nil => rfl
  | cons e es ih =>
    rw [Element.pathToAll?, ih, List.findSome?_cons]
    cases e.pathTo? id <;> rfl

theorem Node.mem_childNodes_iff {n k : Node} : k ∈ n.childNodes ↔ Element.node k ∈ n.children := by
  rw [childNodes, List.mem_filterMap]
  constructor
  · rintro ⟨e, he, hk⟩
    cases e with
    | node x => exact Option.some.inj hk ▸ he
    | token t => cases hk
  · intro h
    exact ⟨_, h, rfl⟩

/-! ## Traversals -/

theorem Traversal.eq_nil_of_next? {t : Traversal} (h : t.next? = none) : t.stack = [] := by
  obtain ⟨_ | ⟨n, stack⟩⟩ := t
  · rfl
  · cases h

/-- **A traversal** yields the subtrees on its stack in pre-order, from the top to the bottom. -/
theorem Traversal.toList_eq (t : Traversal) : t.toList = t.remaining := by
  fun_induction Traversal.toList t with
  | case1 t hnone => rw [remaining, eq_nil_of_next? hnone, List.flatMap_nil]
  | case2 t n t' hnext _ ih => rw [ih, remaining_of_next? hnext]

theorem Node.descendants_eq (n : Node) : n.descendants = n.preorder := by
  rw [descendants, Traversal.toList_eq, Traversal.remaining, List.flatMap_singleton]

/-! ## Pre-order -/

namespace Node

variable {m n k : Node} {id : NodeId}

theorem preorder_eq (n : Node) : n.preorder = n :: n.children.flatMap Element.preorder := by
  obtain ⟨head, children⟩ := n
  rw [preorder, Element.preorderAll_eq_flatMap]

theorem mem_preorder_self (n : Node) : n ∈ n.preorder := by
  rw [preorder_eq]
  exact List.mem_cons_self

theorem mem_preorder_iff :
    m ∈ n.preorder ↔ m = n ∨ ∃ c, Element.node c ∈ n.children ∧ m ∈ c.preorder := by
  rw [preorder_eq, List.mem_cons, List.mem_flatMap]
  refine or_congr_right ⟨?_, fun ⟨c, hc, hm⟩ ↦ ⟨.node c, hc, hm⟩⟩
  rintro ⟨e, he, hm⟩
  cases e with
  | node c => exact ⟨c, he, hm⟩
  | token t => cases hm

theorem mem_preorder_of_child {c : Node} (hc : Element.node c ∈ n.children) (h : m ∈ c.preorder) :
    m ∈ n.preorder :=
  mem_preorder_iff.2 (Or.inr ⟨c, hc, h⟩)

theorem preorder_isInfix (h : m ∈ n.preorder) : m.preorder <:+: n.preorder := by
  induction n using Node.induction with
  | step head children ih =>
    rcases mem_preorder_iff.1 h with rfl | ⟨c, hc, hm⟩
    · exact List.infix_refl _
    · rw [preorder_eq (mk head children)]
      have hchild : c.preorder <:+: children.flatMap Element.preorder :=
        List.infix_of_mem_flatten (List.mem_map_of_mem (f := Element.preorder) hc)
      exact ((ih c hc hm).trans hchild).trans (List.suffix_cons _ _).isInfix

theorem mem_preorder_trans (hkm : k ∈ m.preorder) (hmn : m ∈ n.preorder) : k ∈ n.preorder :=
  (preorder_isInfix hmn).subset hkm

theorem eq_of_mem_preorder (hmn : m ∈ n.preorder) (hnm : n ∈ m.preorder) : m = n := by
  have h := (preorder_isInfix hmn).sublist.antisymm (preorder_isInfix hnm).sublist
  rw [preorder_eq, preorder_eq] at h
  exact (List.cons.inj h).1

/-! ## Ids -/

theorem ids_eq (n : Node) :
    n.ids = n.id :: n.children.flatMap fun e ↦ e.preorder.map Node.id := by
  rw [ids, preorder_eq, List.map_cons, List.map_flatMap]

theorem mem_ids_of_mem (h : m ∈ n.preorder) : m.id ∈ n.ids := List.mem_map_of_mem h

theorem nodup_ids_of_mem (hn : n.ids.Nodup) (h : m ∈ n.preorder) : m.ids.Nodup :=
  hn.sublist ((preorder_isInfix h).sublist.map Node.id)

theorem id_mem_ids_iff (hn : n.ids.Nodup) (hm : m ∈ n.preorder) (hk : k ∈ n.preorder) :
    k.id ∈ m.ids ↔ k ∈ m.preorder := by
  refine ⟨fun h ↦ ?_, mem_ids_of_mem⟩
  obtain ⟨k', hk', hid⟩ := List.mem_map.1 h
  rw [← List.inj_on_of_nodup_map hn (mem_preorder_trans hk' hm) hk hid]
  exact hk'

theorem find?_eq_some_iff (hn : n.ids.Nodup) :
    n.find? id = some m ↔ m ∈ n.preorder ∧ m.id = id := by
  rw [find?, descendants_eq]
  exact find?_key_eq_some_iff hn

theorem find?_of_mem (hn : n.ids.Nodup) (h : m ∈ n.preorder) : n.find? m.id = some m :=
  (find?_eq_some_iff hn).2 ⟨h, rfl⟩

theorem find?_eq_none (h : id ∉ n.ids) : n.find? id = none := by
  rw [find?, descendants_eq]
  exact find?_key_eq_none_iff.2 fun m hm hid ↦ h (hid ▸ mem_ids_of_mem hm)

theorem contains_iff : n.contains id = true ↔ id ∈ n.ids := by
  rw [contains, find?, descendants_eq, List.find?_isSome, ids, List.mem_map]
  simp only [beq_iff_eq]

theorem id_not_mem_child {c : Node} (hn : n.ids.Nodup) (hc : Element.node c ∈ n.children) :
    n.id ∉ c.ids := by
  intro h
  rw [ids_eq, List.nodup_cons, List.mem_flatMap] at hn
  exact hn.1 ⟨.node c, hc, h⟩

/-- Two children that hold a common id are the same child. -/
theorem eq_child_of_mem_ids {c c' : Node} (hn : n.ids.Nodup) (hc : Element.node c ∈ n.children)
    (hc' : Element.node c' ∈ n.children) (hid : id ∈ c.ids) (hid' : id ∈ c'.ids) : c = c' := by
  rw [ids_eq, List.nodup_cons] at hn
  exact Element.node.inj (eq_of_mem_flatMap hn.2 hc hc' hid hid')

/-! ## Paths -/

theorem pathTo?_eq_some_cases {path : List Node} (h : n.pathTo? id = some path) :
    (n.id = id ∧ path = [n]) ∨ n.id ≠ id ∧ ∃ c rest, Element.node c ∈ n.children ∧
      c.pathTo? id = some rest ∧ path = n :: rest := by
  obtain ⟨head, children⟩ := n
  rw [pathTo?] at h
  by_cases hid : head.id = id
  · rw [if_pos hid] at h
    exact Or.inl ⟨hid, (Option.some.inj h).symm⟩
  · rw [if_neg hid, Element.pathToAll?_eq_findSome?] at h
    obtain ⟨rest, hrest, rfl⟩ := Option.map_eq_some_iff.1 h
    obtain ⟨e, he, hpath⟩ := List.exists_of_findSome?_eq_some hrest
    cases e with
    | node c => exact Or.inr ⟨hid, c, rest, he, hpath, rfl⟩
    | token t => cases hpath

theorem exists_pathTo? (h : id ∈ n.ids) : ∃ path, n.pathTo? id = some path := by
  induction n using Node.induction with
  | step head children ih =>
    rw [pathTo?]
    by_cases hid : head.id = id
    · exact ⟨_, if_pos hid⟩
    · rw [if_neg hid, Element.pathToAll?_eq_findSome?]
      obtain ⟨m, hm, hmid⟩ := List.mem_map.1 h
      rcases mem_preorder_iff.1 hm with rfl | ⟨c, hc, hmc⟩
      · exact absurd hmid hid
      · obtain ⟨path, hpath⟩ := ih c hc (List.mem_map.2 ⟨m, hmc, hmid⟩)
        have hsome : (children.findSome? (Element.pathTo? id)).isSome :=
          List.findSome?_isSome_iff.2 ⟨.node c, hc, by
            rw [Element.pathTo?, hpath]
            rfl⟩
        obtain ⟨rest, hrest⟩ := Option.isSome_iff_exists.1 hsome
        exact ⟨_, by rw [hrest, Option.map_some]⟩

variable {path : List Node}

theorem pathTo?_getLast? (h : n.pathTo? id = some path) :
    ∃ last, path.getLast? = some last ∧ last ∈ n.preorder ∧ last.id = id := by
  induction n using Node.induction generalizing path with
  | step head children ih =>
    rcases pathTo?_eq_some_cases h with ⟨hid, rfl⟩ | ⟨-, c, rest, hc, hrest, rfl⟩
    · exact ⟨_, rfl, mem_preorder_self _, hid⟩
    · obtain ⟨last, hlast, hmem, hid⟩ := ih c hc hrest
      refine ⟨last, ?_, mem_preorder_of_child hc hmem, hid⟩
      rw [List.getLast?_cons, hlast]
      rfl

theorem pathTo?_eq_none (h : id ∉ n.ids) : n.pathTo? id = none := by
  rw [Option.eq_none_iff_forall_ne_some]
  intro path hpath
  obtain ⟨last, -, hlast, rfl⟩ := pathTo?_getLast? hpath
  exact h (mem_ids_of_mem hlast)

theorem mem_preorder_of_mem_pathTo? (h : n.pathTo? id = some path) (hm : m ∈ path) :
    m ∈ n.preorder ∧ id ∈ m.ids := by
  induction n using Node.induction generalizing path with
  | step head children ih =>
    rcases pathTo?_eq_some_cases h with ⟨hid, rfl⟩ | ⟨-, c, rest, hc, hrest, rfl⟩
    · rw [List.mem_singleton.1 hm]
      exact ⟨mem_preorder_self _, hid ▸ mem_ids_of_mem (mem_preorder_self _)⟩
    · rcases List.mem_cons.1 hm with rfl | hm
      · obtain ⟨last, -, hlast, hid⟩ := pathTo?_getLast? h
        exact ⟨mem_preorder_self _, hid ▸ mem_ids_of_mem hlast⟩
      · obtain ⟨hmem, hid⟩ := ih c hc hrest hm
        exact ⟨mem_preorder_of_child hc hmem, hid⟩

/-- The nodes of a path lie in each other, the outer before the inner. -/
theorem pairwise_pathTo? (h : n.pathTo? id = some path) :
    path.Pairwise fun outer inner ↦ inner ∈ outer.preorder := by
  induction n using Node.induction generalizing path with
  | step head children ih =>
    rcases pathTo?_eq_some_cases h with ⟨-, rfl⟩ | ⟨-, c, rest, hc, hrest, rfl⟩
    · exact List.pairwise_singleton _ _
    · refine List.pairwise_cons.2 ⟨fun m hm ↦ ?_, ih c hc hrest⟩
      exact mem_preorder_of_child hc (mem_preorder_of_mem_pathTo? hrest hm).1

/-- **Paths.** The path to an id consists of the nodes that hold it. -/
theorem mem_pathTo?_iff (hn : n.ids.Nodup) (h : n.pathTo? id = some path) :
    m ∈ path ↔ m ∈ n.preorder ∧ id ∈ m.ids := by
  refine ⟨mem_preorder_of_mem_pathTo? h, ?_⟩
  rintro ⟨hm, hid⟩
  induction n using Node.induction generalizing path with
  | step head children ih =>
    rcases mem_preorder_iff.1 hm with rfl | ⟨c, hc, hmc⟩
    · rcases pathTo?_eq_some_cases h with ⟨-, rfl⟩ | ⟨-, c, rest, -, -, rfl⟩ <;>
        exact List.mem_cons_self
    · -- the path goes on below a child, which must be the one that holds `m`
      have hidc : id ∈ c.ids := ((preorder_isInfix hmc).sublist.map Node.id).subset hid
      rcases pathTo?_eq_some_cases h with ⟨hhead, -⟩ | ⟨-, c', rest, hc', hrest, rfl⟩
      · exact absurd (hhead ▸ hidc) (id_not_mem_child hn hc)
      · obtain ⟨last, -, hlast, hlastid⟩ := pathTo?_getLast? hrest
        have hcc' : c = c' :=
          eq_child_of_mem_ids hn hc hc' hidc (hlastid ▸ mem_ids_of_mem hlast)
        subst hcc'
        have hnodup := nodup_ids_of_mem hn (mem_preorder_of_child hc (mem_preorder_self c))
        exact List.mem_cons_of_mem _ (ih c hc hnodup hrest hmc)

theorem sublist_pathTo? (h : n.pathTo? id = some path) : path.Sublist n.preorder := by
  induction n using Node.induction generalizing path with
  | step head children ih =>
    rcases pathTo?_eq_some_cases h with ⟨-, rfl⟩ | ⟨-, c, rest, hc, hrest, rfl⟩
    · exact List.singleton_sublist.2 (mem_preorder_self _)
    · have hchild : c.preorder <:+: children.flatMap Element.preorder :=
        List.infix_of_mem_flatten (List.mem_map_of_mem (f := Element.preorder) hc)
      rw [preorder_eq]
      exact ((ih c hc hrest).trans hchild.sublist).cons_cons _

/-- The path to an id is the part of the pre-order that holds it. -/
theorem pathTo?_eq_filter (hn : n.ids.Nodup) (hid : id ∈ n.ids) :
    n.pathTo? id = some (n.preorder.filter fun m ↦ m.contains id) := by
  obtain ⟨path, hpath⟩ := exists_pathTo? hid
  have hsublist := sublist_pathTo? hpath
  have hnodup : n.preorder.Nodup := hn.of_map
  have hmem : ∀ m, m ∈ path ↔ m ∈ n.preorder.filter fun m ↦ m.contains id := fun m ↦ by
    rw [mem_pathTo?_iff hn hpath, List.mem_filter, contains_iff]
  have hperm := (List.perm_ext_iff_of_nodup (hnodup.sublist hsublist) (hnodup.filter _)).2 hmem
  have hkeep : path.filter (fun m ↦ m.contains id) = path :=
    List.filter_eq_self.2 fun m hm ↦ (List.mem_filter.1 ((hmem m).1 hm)).2
  rw [hpath, ← (hkeep ▸ hsublist.filter _ : path.Sublist _).eq_of_length hperm.length_eq]

/-- From a node of a path on, the path is the one below that node. -/
theorem pathTo?_of_append {above below : List Node}
    (h : n.pathTo? id = some (above ++ m :: below)) : m.pathTo? id = some (m :: below) := by
  induction n using Node.induction generalizing above with
  | step head children ih =>
    cases above with
    | nil =>
      rcases pathTo?_eq_some_cases h with ⟨-, hpath⟩ | ⟨-, c, rest, -, -, hpath⟩ <;>
        · obtain ⟨rfl, -⟩ := List.cons.inj hpath
          exact h
    | cons a above =>
      rcases pathTo?_eq_some_cases h with ⟨-, hpath⟩ | ⟨-, c, rest, hc, hrest, hpath⟩
      · obtain ⟨-, hnil⟩ := List.cons.inj hpath
        exact absurd hnil (List.append_ne_nil_of_right_ne_nil _ (List.cons_ne_nil _ _))
      · obtain ⟨-, rfl⟩ := List.cons.inj hpath
        exact ih c hc hrest

end Node

end CodeFix
