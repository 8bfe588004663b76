import CodeFix.Attribute.Insert
import CodeFix.Layout
import CodeFix.Proofs.Fix.Outcome
import CodeFix.Proofs.ListSearch
import CodeFix.Proofs.Syntax.Text

/-!
# The declaration with one more attribute list

`Node.WithList` says where the new list stands among the children of a declaration and which trivia
it stands behind: directly behind the last list, with a copy of the trivia that followed it, or in
front of everything, with the declaration's own trivia, which are then taken from the child that had
them. All other children are those of the declaration.

The list is synthesized for this place (`insertLists_placed`), and a declaration that got it is
marked for layout (`Node.Annotated`).
-/

namespace CodeFix

/-! ## Written names -/

theorem Text.segments_eq_cons {sep : Char} {s first : String} {rest : List String}
    (h : segments sep s = first :: rest) :
    s = first ++ String.join (rest.map fun r ↦ String.singleton sep ++ r) := by
  obtain ⟨cs, css, hcs, rfl, rfl⟩ := List.map_eq_cons_iff.1 h
  apply String.toList_injective
  rw [eq_append_of_segmentsChars hcs, String.toList_append, String.toList_join, List.map_map,
    List.flatMap_map, String.toList_ofList]
  congr 1
  refine List.flatMap_congr fun r _ ↦ ?_
  rw [Function.comp_apply, String.toList_append, String.toList_ofList, String.toList_singleton]
  rfl

private theorem foldlM_qualifiedName_spec (segments : List String) (name : Element) (u : Supply) :
    let whole := (segments.foldlM (m := StateM Supply) (fun name segment ↦ do
        return .node (← Node.create Kind.qualifiedName
          [name, .token ⟨".", "", "."⟩, .token ⟨Kind.identifier, "", segment⟩])) name u).1
    whole.tokens = name.tokens ++ segments.flatMap (fun segment ↦
      [⟨".", "", "."⟩, ⟨Kind.identifier, "", segment⟩]) ∧ whole.hasMark = name.hasMark := by
  induction segments generalizing name u with
  | nil => exact ⟨(List.append_nil _).symm, rfl⟩
  | cons segment segments ih =>
    simp only [List.foldlM_cons]
    obtain ⟨htokens, hmark⟩ := ih (.node ⟨⟨⟨u.next⟩, ⟨u.next, []⟩, Kind.qualifiedName, false⟩,
      [name, .token ⟨".", "", "."⟩, .token ⟨Kind.identifier, "", segment⟩]⟩) ⟨u.next + 1⟩
    -- the name so far is the first child of the next qualified name
    refine ⟨htokens.trans ?_, hmark.trans ?_⟩
    · rw [List.flatMap_cons, ← List.append_assoc]
      rfl
    · exact Bool.or_false _

/-- A dotted name is written without trivia and marks, and reads as it was rendered. -/
theorem attributeNameElement_spec (rendered : String) (u : Supply) :
    (attributeNameElement rendered u).1.text = rendered ∧
      (attributeNameElement rendered u).1.leadingTrivia = "" ∧
      (attributeNameElement rendered u).1.hasMark = false := by
  cases h : Text.segments '.' rendered with
  | nil => exact absurd (List.map_eq_nil_iff.1 h) (Text.segmentsChars_ne_nil _ _)
  | cons first rest =>
    have hspec := foldlM_qualifiedName_spec rest (.token ⟨Kind.identifier, "", first⟩) u
    have hrest : Token.textAll (rest.flatMap fun segment ↦
        [⟨".", "", "."⟩, ⟨Kind.identifier, "", segment⟩]) =
          String.join (rest.map fun r ↦ String.singleton '.' ++ r) := by
      clear hspec h
      induction rest with
      | nil => rfl
      | cons r rest ih =>
        rw [List.flatMap_cons, Token.textAll_append, ih, List.map_cons, String.join_cons]
        simp
    rw [attributeNameElement, h]
    refine ⟨?_, by rw [Element.leadingTrivia_eq]; exact congrArg Token.leadingAll hspec.1, hspec.2⟩
    refine (congrArg Token.textAll hspec.1).trans ?_
    rw [Token.textAll_append, hrest, Element.tokens_token, Token.textAll_cons, Token.textAll_nil,
      String.append_empty, String.empty_append, ← Text.segments_eq_cons h]

/-! ## Attribute lists -/

/-- An attribute list with one attribute, behind the given trivia. -/
structure Node.IsListOf (name leading : String) (list : Node) : Prop where
  kind : list.kind = Kind.attributeList
  unmarked : list.hasMark = false
  shape : ∃ (item : Node) (e : Element), item.kind = Kind.attributeItem ∧ item.children = [e] ∧
    e.text = name ∧ e.leadingTrivia = "" ∧
    list.children = [.token ⟨"[", leading, "["⟩, .node item, .token ⟨"]", "", "]"⟩]

namespace Node.IsListOf

variable {name leading : String} {list : Node}

theorem tokens_eq (h : list.IsListOf name leading) :
    ∃ ts, list.tokens = ⟨"[", leading, "["⟩ :: ts ++ [⟨"]", "", "]"⟩] ∧
      Token.textAll ts = name := by
  obtain ⟨item, e, -, hitem, hname, -, hlist⟩ := h.shape
  refine ⟨e.tokens, ?_, hname⟩
  rw [Node.tokens_eq, hlist, Element.tokensAll_cons, Element.tokensAll_cons, Element.tokens_node,
    Node.tokens_eq, hitem, Element.tokensAll_cons, Element.tokensAll_nil, List.append_nil]
  rfl

theorem tokens_ne_nil (h : list.IsListOf name leading) : list.tokens ≠ [] := by
  obtain ⟨ts, hts, -⟩ := h.tokens_eq
  rw [hts]
  exact List.cons_ne_nil _ _

theorem leadingAll_tokens (h : list.IsListOf name leading) :
    Token.leadingAll list.tokens = leading := by
  obtain ⟨ts, hts, -⟩ := h.tokens_eq
  rw [hts]
  rfl

theorem trimmedTextAll_tokens (h : list.IsListOf name leading) :
    Token.trimmedTextAll list.tokens = "[" ++ name ++ "]" := by
  obtain ⟨ts, hts, rfl⟩ := h.tokens_eq
  rw [hts, List.cons_append, Token.trimmedTextAll, Token.textAll_append, Token.textAll_cons,
    Token.textAll_nil, String.append_assoc]
  rfl

theorem text_eq (h : list.IsListOf name leading) :
    list.text = leading ++ ("[" ++ name ++ "]") := by
  rw [Node.text, Token.textAll_eq_leadingAll_append, h.leadingAll_tokens, h.trimmedTextAll_tokens]

end Node.IsListOf

theorem attributeListNode_spec (rendered leading : String) (u : Supply) :
    (attributeListNode rendered leading u).1.IsListOf rendered leading := by
  obtain ⟨htext, hleading, hmark⟩ := attributeNameElement_spec rendered u
  refine ⟨rfl, ?_, _, _, rfl, rfl, htext, hleading, rfl⟩
  change (((attributeNameElement rendered u).1.hasMark || false) || false) = false
  rw [hmark]
  rfl

/-! ## Where a list is inserted -/

/-- The list goes behind the last attribute list, or to the front if there is none. -/
theorem insertionIndex_cases (children : List Element) :
    (insertionIndex children = 0 ∧ ∀ e ∈ children, e.kind ≠ Kind.attributeList) ∨
      ∃ before last after, children = before ++ last :: after ∧ last.kind = Kind.attributeList ∧
        (∀ e ∈ after, e.kind ≠ Kind.attributeList) ∧
        insertionIndex children = before.length + 1 := by
  rw [insertionIndex]
  rcases takeWhile_reverse_cases (fun e : Element ↦ e.kind != Kind.attributeList) children with
    ⟨hall, htake⟩ | ⟨before, last, after, rfl, hlast, hafter, htake⟩
  · refine Or.inl ⟨?_, fun e he ↦ by simpa using hall e he⟩
    rw [htake, List.length_reverse, Nat.sub_self]
  · refine Or.inr ⟨before, last, after, rfl, by simpa using hlast,
      fun e he ↦ by simpa using hafter e he, ?_⟩
    rw [htake, List.length_reverse, List.length_append, List.length_cons]
    omega

/-- The children of a declaration with an attribute list more among them. -/
inductive Node.WithList (n : Node) (name : String) : List Element → Prop
  /-- The first list, in front of all children, takes over the declaration's trivia. -/
  | front {list : Node} {first : Element} {rest : List Element} {s : Stamp}
      (hchildren : n.children = first :: rest)
      (hnone : ∀ e ∈ n.children, e.kind ≠ Kind.attributeList)
      (hlist : list.IsListOf name n.leadingTrivia) :
      WithList n name (.node list :: first.withLeadingTrivia s "" :: rest)
  /-- The declaration has no children. -/
  | only {list : Node} (hchildren : n.children = [])
      (hlist : list.IsListOf name n.leadingTrivia) :
      WithList n name [.node list]
  /-- A further list stands behind the last one and copies the trivia of what follows it. -/
  | behind {list : Node} {before after : List Element} {last : Element}
      (hchildren : n.children = before ++ last :: after)
      (hlast : last.kind = Kind.attributeList)
      (hafter : ∀ e ∈ after, e.kind ≠ Kind.attributeList)
      (hlist : list.IsListOf name ((after.head?.map Element.leadingTrivia).getD "")) :
      WithList n name (before ++ last :: .node list :: after)

/-- Where one more list stands among the children of a declaration, behind which trivia. -/
inductive Node.Placed (n list : Node) : String → List Element → Prop
  | front {first : Element} {rest : List Element} {s : Stamp}
      (hchildren : n.children = first :: rest)
      (hnone : ∀ e ∈ n.children, e.kind ≠ Kind.attributeList) :
      Placed n list n.leadingTrivia (.node list :: first.withLeadingTrivia s "" :: rest)
  | only (hchildren : n.children = []) : Placed n list n.leadingTrivia [.node list]
  | behind {before after : List Element} {last : Element}
      (hchildren : n.children = before ++ last :: after)
      (hlast : last.kind = Kind.attributeList)
      (hafter : ∀ e ∈ after, e.kind ≠ Kind.attributeList) :
      Placed n list ((after.head?.map Element.leadingTrivia).getD "")
        (before ++ last :: .node list :: after)

theorem Node.Placed.withList {n list : Node} {name leading : String} {es : List Element}
    (h : n.Placed list leading es) (hlist : list.IsListOf name leading) : n.WithList name es := by
  cases h with
  | front hchildren hnone => exact .front hchildren hnone hlist
  | only hchildren => exact .only hchildren hlist
  | behind hchildren hlast hafter => exact .behind hchildren hlast hafter hlist

/-- The list is synthesized last, except for the stamp of a child that loses its trivia. -/
theorem insertLists_placed (n : Node) (rendered : String) (u : Supply) :
    ∃ leading v es, u.next ≤ v.next ∧
      n.Placed (attributeListNode rendered leading v).1 leading es ∧
      insertLists n [rendered] u = (es, (attributeListNode rendered leading v).2) := by
  rcases insertionIndex_cases n.children with
    ⟨hzero, hnone⟩ | ⟨before, last, after, hchildren, hlast, hafter, hindex⟩
  · cases hchildren : n.children with
    | nil =>
      refine ⟨_, ⟨u.next + 1⟩, _, Nat.le_succ _, .only hchildren, ?_⟩
      simp only [insertLists, hzero]
      rw [hchildren]
      rfl
    | cons first rest =>
      refine ⟨_, ⟨u.next + 1⟩, _, Nat.le_succ _, .front (s := ⟨u.next, []⟩) hchildren hnone, ?_⟩
      simp only [insertLists, hzero]
      rw [hchildren]
      rfl
  · refine ⟨_, u, _, Nat.le_refl _, .behind hchildren hlast hafter, ?_⟩
    have hsplit : n.children = (before ++ [last]) ++ after := by simp [hchildren]
    have hlength : before.length + 1 = (before ++ [last]).length := by simp
    simp only [insertLists, hindex]
    rw [hsplit, hlength, List.take_left, List.drop_left, ← hlength, if_neg (Nat.succ_ne_zero _)]
    change ((before ++ [last]) ++ [Element.node (attributeListNode _ _ u).1] ++ after, _) = _
    rw [List.append_assoc, List.append_assoc]
    rfl

theorem Node.WithList.length_tokens_lt {n : Node} {name : String} {es : List Element}
    (h : n.WithList name es) : n.tokens.length < (Element.tokensAll es).length := by
  rw [n.tokens_eq]
  cases h with
  | front hchildren hnone hlist =>
    have := List.length_pos_iff.2 hlist.tokens_ne_nil
    rw [hchildren, Element.tokensAll_cons, Element.tokensAll_cons, Element.tokensAll_cons,
      Element.tokens_withLeadingTrivia, Element.tokens_node]
    simp only [List.length_append, Token.length_releadAll]
    omega
  | only hchildren hlist =>
    rw [hchildren, Element.tokensAll_cons, Element.tokensAll_nil, Element.tokens_node]
    exact List.length_pos_iff.2 (List.append_ne_nil_of_left_ne_nil hlist.tokens_ne_nil _)
  | behind hchildren hlast hafter hlist =>
    have := List.length_pos_iff.2 hlist.tokens_ne_nil
    rw [hchildren]
    simp only [Element.tokensAll_append, Element.tokensAll_cons, Element.tokens_node,
      List.length_append]
    omega

/-- A version of a declaration with an attribute list more, waiting for layout. -/
structure Node.Annotated (n : Node) (name : String) (updated : Node) : Prop where
  kind : updated.kind = n.kind
  marked : updated.marked = true
  children : n.WithList name updated.children

theorem Node.Annotated.length_tokens_lt {n updated : Node} {name : String}
    (h : n.Annotated name updated) : n.tokens.length < updated.tokens.length := by
  rw [updated.tokens_eq]
  exact h.children.length_tokens_lt

end CodeFix
