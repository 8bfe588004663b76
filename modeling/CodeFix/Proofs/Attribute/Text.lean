import CodeFix.Proofs.Attribute.Insertion
import CodeFix.Proofs.Layout

/-!
# The text of a declaration with one more list

`Node.TextWithList` says what a declaration reads like once it has got a list: the list in brackets
and separators are added to its text, and nothing is lost, moved or doubled. In front of everything
the list stands between the leading trivia and the first token. Behind a list it stands behind a
copy of the trivia that followed that list. A separator comes in wherever something would otherwise
follow a list directly, also between lists that were there before.

Without separators (`separator = ""`) this is the text before layout, from which the line break of
the separators is taken.
-/

namespace CodeFix

variable {n updated : Node} {name separator : String} {es : List Element} {newline : Newline}

/-! ## Elements with separators between them -/

/-- The text of some elements, with a separator in front of each one that follows an attribute list
and has no trivia of its own. The flag says whether the first element follows one. -/
def Element.spacedText (separator : String) : Bool → List Element → String
  | _, [] => ""
  | follows, e :: es =>
    (if follows && e.leadingTrivia.isEmpty then separator else "") ++ e.text ++
      spacedText separator (e.kind == Kind.attributeList) es

theorem Element.textAll_spaced (separator : String) (follows : Bool)
    (hes : ∀ e ∈ es, e.tokens ≠ []) :
    Token.textAll (spaced separator follows (es.map Element.piece)) =
      Element.spacedText separator follows es := by
  induction es generalizing follows with
  | nil => rfl
  | cons e es ih =>
    rw [List.map_cons, Element.piece, spaced, Token.textAll_append, Element.spacedText,
      ih _ fun x hx ↦ hes x (List.mem_cons_of_mem e hx), ← Element.leadingTrivia_eq]
    congr 1
    by_cases h : (follows && e.leadingTrivia.isEmpty) = true
    · rw [if_pos h, if_pos h]
      have hleading : Token.leadingAll e.tokens = "" := by
        rw [← Element.leadingTrivia_eq]
        exact String.isEmpty_iff.1 (Bool.and_eq_true_iff.1 h).2
      exact Token.textAll_releadAll_of_leadingAll_eq (hes e List.mem_cons_self) hleading separator
    · rw [if_neg h, if_neg h, String.empty_append]
      rfl

/-- Behind an element only its kind matters. -/
theorem Element.spacedText_append_cons (separator : String) (follows : Bool)
    (before after : List Element) (e : Element) :
    Element.spacedText separator follows (before ++ e :: after) =
      Element.spacedText separator follows (before ++ [e]) ++
        Element.spacedText separator (e.kind == Kind.attributeList) after := by
  induction before generalizing follows with
  | nil =>
    rw [List.nil_append, List.nil_append, spacedText, spacedText, spacedText, String.append_empty]
  | cons x before ih =>
    rw [List.cons_append, spacedText, ih, List.cons_append, spacedText]
    simp only [String.append_assoc]

theorem Element.spacedText_of_no_list (hes : ∀ e ∈ es, e.kind ≠ Kind.attributeList) :
    Element.spacedText separator false es = Token.textAll (Element.tokensAll es) := by
  induction es with
  | nil => rfl
  | cons e es ih =>
    have he : (e.kind == Kind.attributeList) = false := by
      simpa using hes e List.mem_cons_self
    rw [spacedText, he, ih fun x hx ↦ hes x (List.mem_cons_of_mem e hx), Bool.false_and,
      if_neg Bool.false_ne_true, String.empty_append, tokensAll_cons, Token.textAll_append]
    rfl

/-! ## The declaration -/

/-- The text of a declaration with an attribute list more. -/
inductive Node.TextWithList (n : Node) (name separator : String) : String → Prop
  /-- The first list stands between the leading trivia and the first token. -/
  | front (hsome : n.children ≠ []) (hnone : ∀ e ∈ n.children, e.kind ≠ Kind.attributeList) :
      TextWithList n name separator
        (n.leadingTrivia ++ ("[" ++ name ++ "]") ++ separator ++ n.trimmedText)
  /-- A further list stands behind the last one and a copy of the trivia that followed it. -/
  | behind {before after : List Element} {last : Element} {gap : String}
      (hchildren : n.children = before ++ last :: after)
      (hlast : last.kind = Kind.attributeList)
      (hafter : ∀ e ∈ after, e.kind ≠ Kind.attributeList)
      (hgap : gap = (after.head?.map Element.leadingTrivia).getD "") :
      TextWithList n name separator
        (Element.spacedText separator false (before ++ [last]) ++
          (if gap.isEmpty then separator else gap) ++ ("[" ++ name ++ "]") ++
          Element.spacedText separator true after)

theorem Node.tokens_ne_nil (h : ∀ m ∈ n.preorder, m.children ≠ []) : n.tokens ≠ [] := by
  induction n using Node.induction with
  | step head children ih =>
    cases children with
    | nil => exact absurd rfl (h _ (Node.mem_preorder_self _))
    | cons e es =>
      refine List.append_ne_nil_of_left_ne_nil ?_ _
      cases e with
      | node c =>
        exact ih c List.mem_cons_self fun m hm ↦
          h m (Node.mem_preorder_of_child List.mem_cons_self hm)
      | token t => exact List.cons_ne_nil _ _

theorem Element.tokens_ne_nil_of_mem {e : Element} (h : ∀ m ∈ n.preorder, m.children ≠ [])
    (he : e ∈ n.children) : e.tokens ≠ [] := by
  cases e with
  | node c => exact Node.tokens_ne_nil fun m hm ↦ h m (Node.mem_preorder_of_child he hm)
  | token t => exact List.cons_ne_nil _ _

namespace Node.IsListOf

variable {leading : String} {list : Node}

theorem element_kind (h : list.IsListOf name leading) :
    ((Element.node list).kind == Kind.attributeList) = true :=
  beq_iff_eq.2 h.kind

theorem element_text (h : list.IsListOf name leading) :
    (Element.node list).text = leading ++ ("[" ++ name ++ "]") :=
  h.text_eq

theorem element_leadingTrivia (h : list.IsListOf name leading) :
    (Element.node list).leadingTrivia = leading :=
  (Element.leadingTrivia_eq _).trans h.leadingAll_tokens

end Node.IsListOf

namespace Node.WithList

theorem hasMark_eq_false (h : n.WithList name es) (hn : n.hasMark = false) :
    ∀ e ∈ es, e.hasMark = false := by
  have hold : ∀ e ∈ n.children, e.hasMark = false := by
    intro e he
    cases e with
    | node c => exact (Node.hasMark_eq_false_iff.1 hn).2 c he
    | token t => rfl
  cases h with
  | front hchildren hnone hlist =>
    rw [hchildren, List.forall_mem_cons] at hold
    rw [List.forall_mem_cons, List.forall_mem_cons, Element.hasMark_withLeadingTrivia]
    exact ⟨hlist.unmarked, hold⟩
  | only hchildren hlist =>
    rw [List.forall_mem_singleton]
    exact hlist.unmarked
  | behind hchildren hlast hafter hlist =>
    rw [hchildren, List.forall_mem_append, List.forall_mem_cons] at hold
    rw [List.forall_mem_append, List.forall_mem_cons, List.forall_mem_cons]
    exact ⟨hold.1, hold.2.1, hlist.unmarked, hold.2.2⟩

variable (hn : ∀ m ∈ n.preorder, m.children ≠ [])
include hn

/-- The new list takes the trivia of the declaration, or stands behind tokens that have them. -/
theorem leadingAll_eq (h : n.WithList name es) :
    Token.leadingAll (Element.tokensAll es) = n.leadingTrivia := by
  cases h with
  | front hchildren hnone hlist =>
    rw [Element.tokensAll_cons, Element.tokens_node,
      Token.leadingAll_append_of_ne_nil hlist.tokens_ne_nil, hlist.leadingAll_tokens]
  | only hchildren hlist =>
    rw [Element.tokensAll_cons, Element.tokens_node,
      Token.leadingAll_append_of_ne_nil hlist.tokens_ne_nil, hlist.leadingAll_tokens]
  | @behind list before after last hchildren hlast hafter hlist =>
    have hne : Element.tokensAll (before ++ [last]) ≠ [] := by
      rw [Element.tokensAll_append, Element.tokensAll_cons]
      refine List.append_ne_nil_of_right_ne_nil _ (List.append_ne_nil_of_left_ne_nil ?_ _)
      exact Element.tokens_ne_nil_of_mem hn (by simp [hchildren])
    rw [Node.leadingTrivia_eq, Node.tokens_eq, hchildren, List.append_cons before last after,
      List.append_cons before last (_ :: after), Element.tokensAll_append (before ++ [last]) after,
      Element.tokensAll_append (before ++ [last]) (_ :: after),
      Token.leadingAll_append_of_ne_nil hne, Token.leadingAll_append_of_ne_nil hne]

/-- **Insertion with separators.** -/
theorem textWithList (h : n.WithList name es) (separator : String) :
    n.TextWithList name separator
      (Token.textAll (spaced separator false (es.map Element.piece))) := by
  have htokens : ∀ e ∈ n.children, e.tokens ≠ [] :=
    fun e he ↦ Element.tokens_ne_nil_of_mem hn he
  cases h with
  | @front list first rest s hchildren hnone hlist =>
    have hsome : n.children ≠ [] := hn n n.mem_preorder_self
    rw [hchildren, List.forall_mem_cons] at htokens hnone
    obtain ⟨hfirst, hrest⟩ := htokens
    have hkind : (first.kind == Kind.attributeList) = false := by simpa using hnone.1
    have htrimmed : n.trimmedText =
        Token.trimmedTextAll first.tokens ++ Token.textAll (Element.tokensAll rest) := by
      rw [Node.trimmedText_eq, Node.tokens_eq, hchildren, Element.tokensAll_cons,
        Token.trimmedTextAll_append_of_ne_nil hfirst]
    have hall : ∀ e ∈ .node list :: first.withLeadingTrivia s "" :: rest, e.tokens ≠ [] :=
      List.forall_mem_cons.2 ⟨hlist.tokens_ne_nil, List.forall_mem_cons.2
        ⟨Element.tokens_withLeadingTrivia_ne_nil s "" hfirst, hrest⟩⟩
    -- `first` has lost its trivia to the list, so the separator comes in front of it
    have hspaced := Element.textAll_spaced separator false hall
    have hfront : n.TextWithList name separator _ := .front hsome <| by
      rw [hchildren]
      exact List.forall_mem_cons.2 hnone
    rw [hspaced, Element.spacedText, Element.spacedText, Element.kind_withLeadingTrivia, hkind,
      Element.spacedText_of_no_list hnone.2, Element.leadingTrivia_withLeadingTrivia s "" hfirst,
      Element.text_withLeadingTrivia s "" hfirst, hlist.element_kind, hlist.element_text,
      Bool.false_and, if_neg Bool.false_ne_true, Bool.true_and, if_pos (String.isEmpty_iff.2 rfl),
      String.empty_append, String.empty_append]
    rw [htrimmed] at hfront
    simpa only [String.append_assoc] using hfront
  | only hchildren hlist => exact absurd hchildren (hn n n.mem_preorder_self)
  | @behind list before after last hchildren hlast hafter hlist =>
    rw [hchildren, List.forall_mem_append, List.forall_mem_cons] at htokens
    have hall : ∀ e ∈ before ++ last :: .node list :: after, e.tokens ≠ [] :=
      List.forall_mem_append.2 ⟨htokens.1, List.forall_mem_cons.2 ⟨htokens.2.1,
        List.forall_mem_cons.2 ⟨hlist.tokens_ne_nil, htokens.2.2⟩⟩⟩
    have hspaced := Element.textAll_spaced separator false hall
    have hkind : (last.kind == Kind.attributeList) = true := beq_iff_eq.2 hlast
    have hbehind : n.TextWithList name separator _ := .behind hchildren hlast hafter rfl
    rw [hspaced, Element.spacedText_append_cons, hkind, Element.spacedText, hlist.element_kind,
      hlist.element_text, hlist.element_leadingTrivia, Bool.true_and]
    generalize (after.head?.map Element.leadingTrivia).getD "" = gap at hbehind
    -- without a gap to copy the new list itself follows the last one directly
    by_cases hgap : gap.isEmpty = true
    · rw [if_pos hgap] at hbehind ⊢
      rw [String.isEmpty_iff.1 hgap, String.empty_append]
      simpa only [String.append_assoc] using hbehind
    · rw [if_neg hgap] at hbehind ⊢
      rw [String.empty_append]
      simpa only [String.append_assoc] using hbehind

end Node.WithList

namespace Node.Annotated

variable (hn : ∀ m ∈ n.preorder, m.children ≠ [])
include hn

/-- Before layout the list is there and separators are not. -/
theorem textWithList (h : n.Annotated name updated) :
    n.TextWithList name "" updated.text := by
  have htext := h.children.textWithList hn ""
  rw [textAll_spaced_empty, ← Element.tokensAll_eq_pieces, ← Node.tokens_eq] at htext
  exact htext

/-- Layout adds the separators that the declaration's own trivia call for. -/
theorem textWithList_laidOut (h : n.Annotated name updated) (hmark : n.hasMark = false)
    (newline : Newline) :
    n.TextWithList name (separatorFor n.leadingTrivia newline)
      (Token.textAll (updated.laidOut newline)) := by
  have hleading : updated.leadingTrivia = n.leadingTrivia := by
    rw [Node.leadingTrivia_eq updated, Node.tokens_eq, h.children.leadingAll_eq hn]
  rw [Node.laidOut_of_marked h.marked (h.children.hasMark_eq_false hmark), hleading]
  exact h.children.textWithList hn _

end Node.Annotated

end CodeFix
