import CodeFix.Proofs.Attribute.Insertion
import CodeFix.Proofs.Identity
import CodeFix.Proofs.Syntax.Preorder
import CodeFix.Proofs.Syntax.Sketch

/-!
# Which ids an attribute brings

Adding an attribute synthesizes the list, the attribute, the parts of a qualified name and the new
version of the declaration, in this order from the inside to the outside, and nothing else. All of
them get ids that are drawn one after another (`Node.Extended.draws`), and the other children are
those of the declaration, up to their trivia. So the ids of the new version are the drawn ones and
those of the old version, without the id of the old version itself (`exists_perm_ids`).
-/

namespace CodeFix

/-- The kinds of the nodes that an attribute list with one attribute consists of. -/
def Kind.attributeParts : List String :=
  [Kind.attributeList, Kind.attributeItem, Kind.qualifiedName]

/-! ## The synthesized nodes -/

private theorem foldlM_qualifiedName_draws (segments : List String) (name : Element)
    {u v : Supply} (hdraws : u.Draws v (name.preorder.map Node.id))
    (hkinds : ∀ m ∈ name.preorder, m.kind ∈ Kind.attributeParts) :
    let run := segments.foldlM (m := StateM Supply) (fun name segment ↦ do
        return .node (← Node.create Kind.qualifiedName
          [name, .token ⟨".", "", "."⟩, .token ⟨Kind.identifier, "", segment⟩])) name v
    u.Draws run.2 (run.1.preorder.map Node.id) ∧
      ∀ m ∈ run.1.preorder, m.kind ∈ Kind.attributeParts := by
  induction segments generalizing name v with
  | nil => exact ⟨hdraws, hkinds⟩
  | cons segment segments ih =>
    simp only [List.foldlM_cons]
    refine ih (.node ⟨⟨⟨v.next⟩, ⟨v.next, []⟩, Kind.qualifiedName, false⟩,
      [name, .token ⟨".", "", "."⟩, .token ⟨Kind.identifier, "", segment⟩]⟩) (v := ⟨v.next + 1⟩)
      ?_ ?_
    · refine Node.create_draws ?_ Kind.qualifiedName
      rw [List.flatMap_cons]
      exact (List.append_nil _).symm ▸ hdraws
    · intro m hm
      rcases Node.mem_preorder_iff.1 hm with rfl | ⟨c, hc, hm⟩
      · simp [Kind.attributeParts]
      · have hname : Element.node c = name := by simpa using hc
        exact hkinds m (hname ▸ hm)

theorem attributeNameElement_draws (rendered : String) (u : Supply) :
    u.Draws (attributeNameElement rendered u).2
        ((attributeNameElement rendered u).1.preorder.map Node.id) ∧
      ∀ m ∈ (attributeNameElement rendered u).1.preorder, m.kind ∈ Kind.attributeParts := by
  rw [attributeNameElement]
  cases Text.segments '.' rendered with
  | nil => exact ⟨.nil (Nat.le_refl _), fun m hm ↦ absurd hm List.not_mem_nil⟩
  | cons first rest =>
    exact foldlM_qualifiedName_draws rest (.token ⟨Kind.identifier, "", first⟩)
      (.nil (Nat.le_refl _)) (by simp [Element.preorder])

theorem attributeListNode_draws (rendered leading : String) (u : Supply) :
    u.Draws (attributeListNode rendered leading u).2 (attributeListNode rendered leading u).1.ids ∧
      ∀ m ∈ (attributeListNode rendered leading u).1.preorder, m.kind ∈ Kind.attributeParts := by
  obtain ⟨hdraws, hkinds⟩ := attributeNameElement_draws rendered u
  set name := (attributeNameElement rendered u).1
  set v := (attributeNameElement rendered u).2
  have hitem : u.Draws (Node.create Kind.attributeItem [name] v).2
      (Node.create Kind.attributeItem [name] v).1.ids :=
    Node.create_draws (by rwa [List.flatMap_singleton]) _
  constructor
  · refine Node.create_draws ?_ Kind.attributeList
    simp only [List.flatMap_cons, List.flatMap_nil, Element.preorder, List.map_nil,
      List.nil_append, List.append_nil]
    exact hitem
  · intro m hm
    -- the list, the attribute in it, or a part of the name
    rcases Node.mem_preorder_iff.1 hm with rfl | ⟨item, hmem, hm⟩
    · exact List.mem_cons_self
    · have hthree : Element.node item ∈ [.token ⟨"[", leading, "["⟩,
          .node (Node.create Kind.attributeItem [name] v).1, .token ⟨"]", "", "]"⟩] := hmem
      obtain rfl : item = (Node.create Kind.attributeItem [name] v).1 := by simpa using hthree
      rcases Node.mem_preorder_iff.1 hm with rfl | ⟨c, hc, hm⟩
      · exact List.mem_cons_of_mem _ List.mem_cons_self
      · have hname : Element.node c = name := List.mem_singleton.1 hc
        exact hkinds m (hname ▸ hm)

/-! ## The new version of the declaration -/

/-- A new version of a declaration with one more attribute list, made of nodes that were synthesized
between two states of the supply. -/
structure Node.Extended (n list new : Node) (name : String) (u v : Supply) : Prop where
  kind : new.kind = n.kind
  marked : new.marked = true
  placed : ∃ leading, list.IsListOf name leading ∧ n.Placed list leading new.children
  kinds : ∀ m ∈ list.preorder, m.kind ∈ Kind.attributeParts
  draws : u.Draws v (new.id :: list.ids)

theorem addAttributes_of_not_attributable {n : Node} (h : Kind.isAttributable n.kind = false)
    (attributes : List AttributeClass) (style : NameStyle) (u : Supply) :
    addAttributes n attributes style u = .error (.unsupportedShape n.kind) u := by
  rw [addAttributes, h]
  rfl

theorem addAttributes_extended {n : Node} (h : Kind.isAttributable n.kind = true)
    (cls : AttributeClass) (style : NameStyle) (u : Supply) :
    ∃ list new v, addAttributes n [cls] style u = .ok new v ∧
      n.Extended list new (style.render cls) u v := by
  obtain ⟨leading, v, es, hle, hplaced, hrun⟩ := insertLists_placed n (style.render cls) u
  obtain ⟨hdraws, hkinds⟩ := attributeListNode_draws (style.render cls) leading v
  have hlist := attributeListNode_spec (style.render cls) leading v
  set list := (attributeListNode (style.render cls) leading v).1
  set w := (attributeListNode (style.render cls) leading v).2
  refine ⟨list, ⟨⟨⟨w.next⟩, ⟨w.next, []⟩, n.kind, true⟩, es⟩, ⟨w.next + 1⟩, ?_, rfl, rfl,
    ⟨leading, hlist, hplaced⟩, hkinds, ?_⟩
  · have hadd : addAttributes n [cls] style u =
        .ok { (Node.create n.kind (insertLists n [style.render cls] u).1
            (insertLists n [style.render cls] u).2).1 with head.marked := true }
          (Node.create n.kind (insertLists n [style.render cls] u).1
            (insertLists n [style.render cls] u).2).2 := by
      rw [addAttributes, h]
      rfl
    rw [hadd, hrun]
    rfl
  · exact (Supply.Draws.nil hle).append hdraws |>.cons

namespace Node.Extended

variable {n list new : Node} {name : String} {u v : Supply} {c : TreeContext}

theorem annotated (h : n.Extended list new name u v) : n.Annotated name new := by
  obtain ⟨leading, hlist, hplaced⟩ := h.placed
  exact ⟨h.kind, h.marked, hplaced.withList hlist⟩

/-- Apart from the list, the children are those of the declaration, up to trivia in front. -/
theorem children_eq (h : n.Extended list new name u v) :
    ∃ before after, new.children = before ++ .node list :: after ∧ ∀ label, Node.Inner label →
      (before ++ after).map (Element.sketch label) = n.children.map (Element.sketch label) := by
  obtain ⟨leading, -, hplaced⟩ := h.placed
  generalize new.children = es at hplaced
  cases hplaced with
  | @front first rest s hchildren hnone =>
    refine ⟨[], _, rfl, fun label hlabel ↦ ?_⟩
    rw [hchildren, List.nil_append, List.map_cons, List.map_cons,
      Element.sketch_withLeadingTrivia hlabel]
  | only hchildren => exact ⟨[], [], rfl, fun _ _ ↦ by rw [hchildren, List.nil_append]⟩
  | @behind before after last hchildren hlast hafter =>
    refine ⟨before ++ [last], after, by simp, fun _ _ ↦ ?_⟩
    rw [hchildren, List.append_assoc, List.singleton_append]

/-- **Ids.** The new version exchanges the id of the declaration for the drawn ones. -/
theorem exists_perm_ids (h : n.Extended list new name u v) (c : TreeContext) :
    ∃ kept, (c.fill n).ids.Perm (n.id :: kept) ∧
      (c.fill new).ids.Perm ((new.id :: list.ids) ++ kept) := by
  obtain ⟨before, after, hnew, hsketch⟩ := h.children_eq
  have hids := Element.flatMap_ids_eq_of_sketch_eq (hsketch _ Node.inner_noLabel)
  have hlist : (Element.node list).preorder.map Node.id = list.ids := rfl
  refine ⟨c.idsBefore ++ ((before ++ after).flatMap fun e ↦ e.preorder.map Node.id) ++ c.idsAfter,
    List.perm_iff_count.2 fun id ↦ ?_, List.perm_iff_count.2 fun id ↦ ?_⟩
  · rw [TreeContext.ids_fill, Node.ids_eq n, hids]
    simp only [List.count_append, List.count_cons]
    omega
  · rw [TreeContext.ids_fill, Node.ids_eq new, hnew, List.flatMap_append, List.flatMap_cons, hlist,
      List.flatMap_append]
    simp only [List.count_append, List.count_cons]
    omega

variable {m root : Node}

theorem exists_of_mem (h : n.Extended list new name u v) (hm : m ∈ n.preorder) (hne : m ≠ n) :
    ∃ m' ∈ new.preorder, m'.sketch Node.noLabel = m.sketch Node.noLabel := by
  obtain ⟨before, after, hnew, hsketch⟩ := h.children_eq
  rcases Node.mem_preorder_iff.1 hm with rfl | ⟨k, hk, hm⟩
  · exact absurd rfl hne
  · obtain ⟨k', hk', hkk'⟩ :=
      Element.exists_node_of_sketch_eq (hsketch _ Node.inner_noLabel).symm hk
    obtain ⟨m', hm', hmm'⟩ := Node.exists_of_sketch_eq hkk'.symm hm
    refine ⟨m', Node.mem_preorder_of_child (c := k') ?_ hm', hmm'⟩
    rw [hnew, List.mem_append, List.mem_cons]
    exact (List.mem_append.1 hk').imp_right Or.inr

/-- **Ancestors and descendants.** Every other node of the tree keeps its id and its kind, and
stands to the new version as it stood to the declaration. -/
theorem exists_kept (h : n.Extended list new name u v) (hn : (c.fill n).ids.Nodup)
    (hm : m ∈ (c.fill n).preorder) (hne : m ≠ n) :
    ∃ m' ∈ (c.fill new).preorder, m'.id = m.id ∧ m'.kind = m.kind ∧
      (n ∈ m.preorder → new ∈ m'.preorder) ∧ (m ∈ n.preorder → m' ∈ new.preorder) := by
  have hnot : m ∈ n.preorder → n ∉ m.preorder :=
    fun hin hout ↦ hne (Node.eq_of_mem_preorder hin hout)
  rcases TreeContext.mem_preorder_fill_cases hm with
    hin | ⟨head, before, inner, after, rfl, hfill⟩ | ⟨hfill, hbeside⟩
  · obtain ⟨m', hm', hsketch⟩ := h.exists_of_mem hin hne
    exact ⟨m', Node.mem_preorder_trans hm' (TreeContext.mem_preorder_fill c new),
      Node.id_eq_of_sketch_eq hsketch, Node.kind_eq_of_sketch_eq hsketch,
      fun hout ↦ absurd hout (hnot hin), fun _ ↦ hm'⟩
  · refine ⟨_, hfill new, rfl, rfl, fun _ ↦ TreeContext.mem_preorder_fill _ new, fun hin ↦ ?_⟩
    exact absurd (TreeContext.mem_preorder_fill _ n) (hnot hin)
  · -- beside the hole there is no id of the declaration
    have hdisjoint : ∀ id ∈ m.ids, id ∉ n.ids := by
      intro id hid hidn
      rw [TreeContext.ids_fill, List.append_assoc, List.nodup_append, List.nodup_append] at hn
      rcases hbeside id hid with hbefore | hafter
      · exact hn.2.2 id hbefore id (List.mem_append_left _ hidn) rfl
      · exact hn.2.1.2.2 id hidn id hafter rfl
    refine ⟨m, hfill new, rfl, rfl, fun hout ↦ ?_, fun hin ↦ ?_⟩
    · exact absurd (Node.mem_ids_of_mem n.mem_preorder_self)
        (hdisjoint _ (Node.mem_ids_of_mem hout))
    · exact absurd (Node.mem_ids_of_mem hin)
        (hdisjoint _ (Node.mem_ids_of_mem m.mem_preorder_self))

/-- The same in any tree with the sketch of the filled one, such as the tree after layout. -/
theorem exists_kept_of_sketch_eq (h : n.Extended list new name u v) (hn : (c.fill n).ids.Nodup)
    (hroot : root.ids.Nodup)
    (hsketch : root.sketch Node.noLabel = (c.fill new).sketch Node.noLabel) :
    ∃ new' ∈ root.preorder, new'.sketch Node.noLabel = new.sketch Node.noLabel ∧
      ∀ m ∈ (c.fill n).preorder, m ≠ n → ∃ m' ∈ root.preorder, m'.id = m.id ∧ m'.kind = m.kind ∧
        (n ∈ m.preorder → new' ∈ m'.preorder) ∧ (m ∈ n.preorder → m' ∈ new'.preorder) := by
  obtain ⟨new', hnew', hnewsketch⟩ :=
    Node.exists_of_sketch_eq hsketch.symm (TreeContext.mem_preorder_fill c new)
  have hids : ∀ {x y : Node}, x ∈ root.preorder → y ∈ root.preorder →
      x.sketch Node.noLabel = y.sketch Node.noLabel → x = y := fun hx hy hxy ↦
    List.inj_on_of_nodup_map hroot hx hy (Node.id_eq_of_sketch_eq hxy)
  refine ⟨new', hnew', hnewsketch, fun m hm hne ↦ ?_⟩
  obtain ⟨k, hk, hid, hkind, hout, hin⟩ := h.exists_kept hn hm hne
  obtain ⟨m', hm', hkm⟩ := Node.exists_of_sketch_eq hsketch.symm hk
  refine ⟨m', hm', (Node.id_eq_of_sketch_eq hkm).trans hid,
    (Node.kind_eq_of_sketch_eq hkm).trans hkind, fun h' ↦ ?_, fun h' ↦ ?_⟩
  · obtain ⟨x, hx, hxnew⟩ := Node.exists_of_sketch_eq hkm.symm (hout h')
    rwa [← hids (Node.mem_preorder_trans hx hm') hnew' (hxnew.trans hnewsketch.symm)]
  · obtain ⟨x, hx, hxk⟩ := Node.exists_of_sketch_eq hnewsketch.symm (hin h')
    rwa [← hids (Node.mem_preorder_trans hx hnew') hm' (hxk.trans hkm.symm)]

end Node.Extended

end CodeFix
