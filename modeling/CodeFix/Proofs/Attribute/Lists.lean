import CodeFix.Proofs.Attribute.Identity
import CodeFix.Proofs.Attribute.Text
import CodeFix.Proofs.Fix.Offer
import CodeFix.Proofs.Semantic.Reading

/-!
# Any number of attribute lists

A declaration can get several attributes at once, and then it gets one list for each of them, one
behind the other in the order of the attributes. Where they go is decided once (`Node.WithLists`):
behind the last list that is there, or to the front, where the first of them takes over the trivia
of the declaration. The text around them stays (`Node.TextWithLists`), and what reads the new
version finds the attributes it had and behind them the new ones.

The facts about a single list carry over, list by list, because each list is synthesized by itself.
-/

namespace CodeFix

variable {n : Node} {name gap : String} {names : List String} {lists : List Node}
  {es : List Element}

/-! ## Runs of lists -/

/-- One list per name, all behind the same trivia. -/
def Node.AreListsOf (names : List String) (gap : String) (lists : List Node) : Prop :=
  List.Forall₂ (fun name list ↦ Node.IsListOf name gap list) names lists

theorem attributeListElements_spec (pairs : List (String × String)) (u : Supply) :
    ∃ lists v, attributeListElements pairs u = (lists.map Element.node, v) ∧
      List.Forall₂ (fun pair list ↦ Node.IsListOf pair.1 pair.2 list) pairs lists ∧
      u.Draws v (lists.flatMap Node.ids) := by
  induction pairs generalizing u with
  | nil => exact ⟨[], u, rfl, .nil, .nil (Nat.le_refl _)⟩
  | cons pair pairs ih =>
    obtain ⟨rendered, leading⟩ := pair
    obtain ⟨hdraws, -⟩ := attributeListNode_draws rendered leading u
    obtain ⟨lists, v, hrun, hlists, hrest⟩ := ih (attributeListNode rendered leading u).2
    refine ⟨(attributeListNode rendered leading u).1 :: lists, v, ?_,
      .cons (attributeListNode_spec rendered leading u) hlists, ?_⟩
    · change (Element.node (attributeListNode rendered leading u).1 ::
          (attributeListElements pairs (attributeListNode rendered leading u).2).1,
        (attributeListElements pairs (attributeListNode rendered leading u).2).2) = _
      rw [hrun]
      rfl
    · rw [List.flatMap_cons]
      exact hdraws.append hrest

/-- The text of some lists, each behind its trivia. -/
def listsText (gap : String) (names : List String) : String :=
  String.join (names.map fun name ↦ gap ++ ("[" ++ name ++ "]"))

namespace Node.AreListsOf

variable (h : AreListsOf names gap lists)
include h

theorem textAll_eq :
    Token.textAll (Element.tokensAll (lists.map Element.node)) = listsText gap names := by
  induction h with
  | nil => rfl
  | cons hlist _ ih =>
    rw [List.map_cons, Element.tokensAll_cons, Token.textAll_append, ih, listsText, listsText,
      List.map_cons, String.join_cons]
    exact congrArg (· ++ _) hlist.text_eq

end Node.AreListsOf

/-! ## Where the lists stand -/

/-- The children of a declaration with a list per name among them. -/
inductive Node.WithLists (n : Node) : List String → List Node → List Element → Prop
  /-- In front of all children. The first list takes over the trivia of the first child. -/
  | front {name : String} {names : List String} {list : Node} {lists : List Node} {first : Element}
      {rest : List Element} {s : Stamp}
      (hchildren : n.children = first :: rest)
      (hnone : ∀ e ∈ n.children, e.kind ≠ Kind.attributeList)
      (hlist : list.IsListOf name n.leadingTrivia) (hlists : AreListsOf names "" lists) :
      WithLists n (name :: names) (list :: lists)
        ((list :: lists).map Element.node ++ first.withLeadingTrivia s "" :: rest)
  /-- Behind the last list. Each new one copies the trivia of what follows that list. -/
  | behind {names : List String} {lists : List Node} {before after : List Element} {last : Element}
      (hchildren : n.children = before ++ last :: after)
      (hlast : last.kind = Kind.attributeList)
      (hafter : ∀ e ∈ after, e.kind ≠ Kind.attributeList)
      (hlists : AreListsOf names ((after.head?.map Element.leadingTrivia).getD "") lists) :
      WithLists n names lists (before ++ last :: (lists.map Element.node ++ after))

/-- **Placement.** The lists are put at one place and nothing else is done, except that a first
child that loses its trivia is built anew. -/
theorem insertLists_withLists (hn : n.children ≠ []) (hnames : names ≠ []) (u : Supply) :
    ∃ lists es v, insertLists n names u = (es, v) ∧ n.WithLists names lists es ∧
      u.Draws v (lists.flatMap Node.ids) := by
  rcases insertionIndex_cases n.children with
    ⟨hzero, hnone⟩ | ⟨before, last, after, hchildren, hlast, hafter, hindex⟩
  · obtain ⟨first, rest, hchildren⟩ := List.exists_cons_of_ne_nil hn
    obtain ⟨name, names, rfl⟩ := List.exists_cons_of_ne_nil hnames
    -- the stamp of the first child is drawn before the lists are synthesized
    obtain ⟨lists, v, hrun, hlists, hdraws⟩ := attributeListElements_spec
      ((name :: names).zip (n.leadingTrivia :: List.replicate names.length "")) ⟨u.next + 1⟩
    have hzip : names.zip (List.replicate names.length "") = names.map fun name ↦ (name, "") :=
      List.ext_getElem (by simp) fun i _ _ ↦ by simp
    rw [List.zip_cons_cons, hzip] at hlists
    obtain ⟨list, lists, hlist, hrest, rfl⟩ := List.forall₂_cons_left_iff.1 hlists
    refine ⟨list :: lists, _, v, ?_,
      .front (s := ⟨u.next, []⟩) hchildren hnone hlist (List.forall₂_map_left_iff.1 hrest),
      (Supply.Draws.nil (Nat.le_succ u.next)).append hdraws⟩
    simp only [insertLists, hzero]
    rw [hchildren, if_pos trivial]
    rw [List.length_cons, Nat.add_sub_cancel]
    generalize (name :: names).zip (n.leadingTrivia :: List.replicate names.length "") = pairs
      at hrun
    change ((attributeListElements pairs ⟨u.next + 1⟩).1 ++
        first.withLeadingTrivia ⟨u.next, []⟩ "" :: rest,
      (attributeListElements pairs ⟨u.next + 1⟩).2) = _
    rw [hrun]
  · obtain ⟨lists, v, hrun, hlists, hdraws⟩ := attributeListElements_spec
      (names.map fun r ↦ (r, (after.head?.map Element.leadingTrivia).getD "")) u
    refine ⟨lists, _, v, ?_,
      .behind hchildren hlast hafter (List.forall₂_map_left_iff.1 hlists), hdraws⟩
    have hsplit : n.children = (before ++ [last]) ++ after := by simp [hchildren]
    have hlength : before.length + 1 = (before ++ [last]).length := by simp
    simp only [insertLists, hindex]
    rw [hsplit, hlength, List.take_left, List.drop_left, ← hlength, if_neg (Nat.succ_ne_zero _)]
    change ((before ++ [last]) ++ (attributeListElements _ u).1 ++ after,
      (attributeListElements _ u).2) = _
    rw [hrun, List.append_assoc, List.append_assoc]
    rfl

/-! ## Text -/

/-- The text of a declaration with a list per name. -/
inductive Node.TextWithLists (n : Node) (names : List String) : String → Prop
  /-- The lists stand between the leading trivia and the first token. -/
  | front (hnone : ∀ e ∈ n.children, e.kind ≠ Kind.attributeList) :
      TextWithLists n names (n.leadingTrivia ++ listsText "" names ++ n.trimmedText)
  /-- The lists stand behind the last one, each behind a copy of the trivia that followed it. -/
  | behind {before after : List Element} {last : Element}
      (hchildren : n.children = before ++ last :: after)
      (hlast : last.kind = Kind.attributeList)
      (hafter : ∀ e ∈ after, e.kind ≠ Kind.attributeList) :
      TextWithLists n names
        (Token.textAll (Element.tokensAll (before ++ [last])) ++
          listsText ((after.head?.map Element.leadingTrivia).getD "") names ++
          Token.textAll (Element.tokensAll after))

theorem Node.WithLists.textWithLists (hn : ∀ m ∈ n.preorder, m.children ≠ [])
    (h : n.WithLists names lists es) :
    n.TextWithLists names (Token.textAll (Element.tokensAll es)) := by
  cases h with
  | @front name names list lists first rest s hchildren hnone hlist hlists =>
    have hfirst : first.tokens ≠ [] := Element.tokens_ne_nil_of_mem hn (by simp [hchildren])
    have htrimmed : n.trimmedText =
        Token.trimmedTextAll first.tokens ++ Token.textAll (Element.tokensAll rest) := by
      rw [Node.trimmedText_eq, Node.tokens_eq, hchildren, Element.tokensAll_cons,
        Token.trimmedTextAll_append_of_ne_nil hfirst]
    have hbrackets : listsText "" (name :: names) = "[" ++ name ++ "]" ++ listsText "" names := by
      rw [listsText, List.map_cons, String.join_cons, String.empty_append, listsText]
    have htext := @TextWithLists.front n (name :: names) hnone
    rw [hbrackets, htrimmed] at htext
    rw [List.map_cons, List.cons_append, Element.tokensAll_cons, Element.tokensAll_append,
      Element.tokensAll_cons, Element.tokens_withLeadingTrivia, Token.textAll_append,
      Token.textAll_append, Token.textAll_append, hlists.textAll_eq, Token.textAll_releadAll hfirst,
      String.empty_append, Element.tokens_node, ← Node.text, hlist.text_eq]
    simpa only [String.append_assoc] using htext
  | @behind names lists before after last hchildren hlast hafter hlists =>
    have htext := @TextWithLists.behind n names _ _ _ hchildren hlast hafter
    rw [List.append_cons, Element.tokensAll_append (before ++ [last]),
      Element.tokensAll_append (lists.map _), Token.textAll_append, Token.textAll_append,
      hlists.textAll_eq, ← String.append_assoc]
    exact htext

/-! ## Reading back -/

/-- The names of the attributes in the lists among some elements. -/
def Element.attributeNamesAll (es : List Element) : List String :=
  (((es.filterMap Element.node?).filter fun c ↦ c.kind == Kind.attributeList).flatMap fun list ↦
    list.childNodes.filter fun c ↦ c.kind == Kind.attributeItem).filterMap fun item ↦
      item.children.head?.map Element.trimmedText

theorem Node.attributeNames_eq_all (n : Node) :
    n.attributeNames = Element.attributeNamesAll n.children := rfl

theorem Element.attributeNamesAll_append (es es' : List Element) :
    attributeNamesAll (es ++ es') = attributeNamesAll es ++ attributeNamesAll es' := by
  simp only [attributeNamesAll, List.filterMap_append, List.filter_append, List.flatMap_append]

theorem Element.attributeNamesAll_of_no_list (h : ∀ e ∈ es, e.kind ≠ Kind.attributeList) :
    attributeNamesAll es = [] := by
  have hnone : (es.filterMap Element.node?).filter (fun c ↦ c.kind == Kind.attributeList) = [] := by
    refine List.filter_eq_nil_iff.2 fun c hc ↦ ?_
    obtain ⟨e, he, hnode⟩ := List.mem_filterMap.1 hc
    cases e with
    | node m =>
      obtain rfl := Option.some.inj hnode
      exact fun hkind ↦ h _ he (eq_of_beq hkind)
    | token t => cases hnode
  rw [attributeNamesAll, hnone]
  rfl

theorem Node.IsListOf.trimmedText_eq {e : Element} (htext : e.text = name)
    (hleading : e.leadingTrivia = "") : e.trimmedText = name := by
  rw [← htext, Element.text_eq, hleading, String.empty_append]

/-- A list is read as the name it was synthesized for. -/
theorem Node.IsListOf.attributeNamesAll_eq {list : Node} (h : list.IsListOf name gap) :
    Element.attributeNamesAll [.node list] = [name] := by
  obtain ⟨item, e, hitem, hchildren, htext, hleading, hlist⟩ := h.shape
  have hitems : list.childNodes.filter (fun c ↦ c.kind == Kind.attributeItem) = [item] := by
    rw [childNodes, hlist]
    exact List.filter_cons_of_pos (beq_iff_eq.2 hitem)
  have hlists : [list].filter (fun c ↦ c.kind == Kind.attributeList) = [list] :=
    List.filter_cons_of_pos (beq_iff_eq.2 h.kind)
  change List.filterMap _ (([list].filter _).flatMap _) = _
  rw [hlists, List.flatMap_singleton, hitems, List.filterMap_cons, hchildren, List.head?_cons,
    Option.map_some, trimmedText_eq htext hleading]
  rfl

theorem Node.AreListsOf.attributeNamesAll_eq (h : AreListsOf names gap lists) :
    Element.attributeNamesAll (lists.map Element.node) = names := by
  induction h with
  | nil => rfl
  | @cons name list names lists hlist _ ih =>
    have hsplit : (list :: lists).map Element.node =
        [.node list] ++ lists.map Element.node := rfl
    rw [hsplit, Element.attributeNamesAll_append, hlist.attributeNamesAll_eq, ih]
    rfl

/-- **Reading attributes back.** The new ones follow those that were there. -/
theorem Node.WithLists.attributeNames_eq (h : n.WithLists names lists es) :
    Element.attributeNamesAll es = n.attributeNames ++ names := by
  cases h with
  | @front name names list lists first rest s hchildren hnone hlist hlists =>
    have hrest : ∀ e ∈ first.withLeadingTrivia s "" :: rest, e.kind ≠ Kind.attributeList := by
      rw [hchildren, List.forall_mem_cons] at hnone
      rw [List.forall_mem_cons, Element.kind_withLeadingTrivia]
      exact hnone
    have hsplit : (list :: lists).map Element.node = [.node list] ++ lists.map Element.node := rfl
    rw [hsplit, Element.attributeNamesAll_append, Element.attributeNamesAll_append,
      hlist.attributeNamesAll_eq, hlists.attributeNamesAll_eq,
      Element.attributeNamesAll_of_no_list hrest, Node.attributeNames_eq_all,
      Element.attributeNamesAll_of_no_list hnone, List.append_nil, List.nil_append]
    rfl
  | @behind names lists before after last hchildren hlast hafter hlists =>
    rw [Node.attributeNames_eq_all, hchildren, List.append_cons, List.append_cons before last after,
      Element.attributeNamesAll_append (before ++ [last]),
      Element.attributeNamesAll_append (before ++ [last]),
      Element.attributeNamesAll_append (lists.map _), hlists.attributeNamesAll_eq,
      Element.attributeNamesAll_of_no_list hafter, List.append_nil, List.append_nil]

/-- **The declared name** is that of the declaration. -/
theorem Node.WithLists.declaredName?_eq {new : Node} (h : n.WithLists names lists new.children) :
    new.declaredName? = n.declaredName? := by
  have htokens : ∀ lists : List Node, (lists.map Element.node).filterMap Element.token? = [] :=
    fun lists ↦ List.filterMap_eq_nil_iff.2 fun e he ↦ by
      obtain ⟨list, -, rfl⟩ := List.mem_map.1 he
      rfl
  rw [Node.declaredName?_eq, Node.declaredName?_eq]
  generalize new.children = es at h
  cases h with
  | @front name names list lists first rest s hchildren hnone hlist hlists =>
    have hfirst : (first.withLeadingTrivia s "" :: rest).map (Element.sketch Node.noLabel) =
        (first :: rest).map (Element.sketch Node.noLabel) := by
      rw [List.map_cons, List.map_cons, Element.sketch_withLeadingTrivia Node.inner_noLabel]
    rw [List.filterMap_append, htokens, List.nil_append, hchildren,
      Element.filterMap_token?_of_sketch_eq hfirst]
  | @behind names lists before after last hchildren hlast hafter hlists =>
    simp only [hchildren, List.filterMap_append, List.filterMap_cons, htokens, List.nil_append]

/-! ## Adding attributes -/

/-- A new version of a declaration with a list per name, made of nodes that were synthesized between
two states of the supply. -/
structure Node.Receives (n : Node) (names : List String) (lists : List Node) (new : Node)
    (u v : Supply) : Prop where
  kind : new.kind = n.kind
  marked : new.marked = true
  draws : u.Draws v (new.id :: lists.flatMap Node.ids)
  children : n.WithLists names lists new.children
  text : n.TextWithLists names new.text
  attributeNames : new.attributeNames = n.attributeNames ++ names
  declaredName : new.declaredName? = n.declaredName?

/-- **Adding attributes.** Only declarations that can have attributes get some, and no attributes
leave the declaration as it is. Otherwise a new version has a list per attribute among its children,
in the order of the attributes, and reads as the declaration does apart from that. -/
theorem addAttributes_spec (hn : ∀ m ∈ n.preorder, m.children ≠ [])
    (attributes : List AttributeClass) (style : NameStyle) (u : Supply) :
    (Kind.isAttributable n.kind = false →
        addAttributes n attributes style u = .error (.unsupportedShape n.kind) u) ∧
      (Kind.isAttributable n.kind = true →
        (attributes = [] → addAttributes n attributes style u = .ok n u) ∧
        (attributes ≠ [] → ∃ lists new v, addAttributes n attributes style u = .ok new v ∧
          n.Receives (attributes.map style.render) lists new u v)) := by
  refine ⟨fun hkind ↦ ?_, fun hkind ↦ ⟨?_, fun hne ↦ ?_⟩⟩
  · rw [addAttributes, hkind]
    rfl
  · rintro rfl
    rw [addAttributes, hkind]
    rfl
  · have hnames : attributes.map style.render ≠ [] := fun hnil ↦ hne (List.map_eq_nil_iff.1 hnil)
    obtain ⟨lists, es, v, hrun, hplaced, hdraws⟩ :=
      insertLists_withLists (hn n n.mem_preorder_self) hnames u
    set new : Node := ⟨⟨⟨v.next⟩, ⟨v.next, []⟩, n.kind, true⟩, es⟩
    have hchildren : n.WithLists (attributes.map style.render) lists new.children := hplaced
    refine ⟨lists, new, ⟨v.next + 1⟩, ?_, rfl, rfl, hdraws.cons, hchildren, ?_,
      hchildren.attributeNames_eq, hchildren.declaredName?_eq⟩
    · have hempty : attributes.isEmpty = false := by rwa [List.isEmpty_eq_false_iff]
      have hadd : addAttributes n attributes style u =
          .ok { (Node.create n.kind (insertLists n (attributes.map style.render) u).1
              (insertLists n (attributes.map style.render) u).2).1 with head.marked := true }
            (Node.create n.kind (insertLists n (attributes.map style.render) u).1
              (insertLists n (attributes.map style.render) u).2).2 := by
        rw [addAttributes, hkind, hempty]
        rfl
      rw [hadd, hrun]
      rfl
    · rw [Node.text, Node.tokens_eq]
      exact hchildren.textWithLists hn

theorem addAttributes_spec_holder :
    ((∀ m ∈ Holder.field.preorder, m.children ≠ []) ∧
      Kind.isAttributable Holder.field.kind = true) ∧
      ∃ lists new v, addAttributes Holder.field
          [.wellKnown .nonSerialized, .wellKnown .serializable] .qualified ⟨7⟩ = .ok new v ∧
        Holder.field.Receives ["System.NonSerialized", "System.Serializable"] lists new ⟨7⟩ v := by
  have hn : ∀ m ∈ Holder.field.preorder, m.children ≠ [] := by decide
  have hkind : Kind.isAttributable Holder.field.kind = true := by decide
  exact ⟨⟨hn, hkind⟩, ((addAttributes_spec hn _ _ _).2 hkind).2 (List.cons_ne_nil _ _)⟩

end CodeFix
