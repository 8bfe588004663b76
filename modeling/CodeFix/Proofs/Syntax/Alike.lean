import CodeFix.Layout
import CodeFix.Proofs.ListSearch
import CodeFix.Syntax.Lookup

/-!
# Trees that differ in identities only

Two runs of one edit build the same tree from different nodes. Their trees are *alike*: they have
the same kinds, marks and tokens in the same places, the ids in the same places are related in some
given way, and nothing is said of stamps. With equality as the relation between ids, only the stamps
may differ.

No operation on trees can tell trees apart that are alike, as long as it does not go by ids:
`Node.Alike` is carried along by other trivia, by layout and, for the node that is put in, by
replacement. The last two build the root anew, with a stamp as late as the run is
(`Node.Reissued`).
-/

namespace CodeFix

mutual

/-- The trees differ in stamps, and in ids as the relation says. -/
inductive Node.Alike (r : NodeId → NodeId → Prop) : Node → Node → Prop
  | mk {head head' : NodeHead} {children children' : List Element} (hid : r head.id head'.id)
      (hkind : head.kind = head'.kind) (hmarked : head.marked = head'.marked)
      (hchildren : Element.AlikeAll r children children') :
      Node.Alike r ⟨head, children⟩ ⟨head', children'⟩

/-- The elements differ in stamps, and in ids as the relation says. -/
inductive Element.Alike (r : NodeId → NodeId → Prop) : Element → Element → Prop
  | node {n n' : Node} (h : Node.Alike r n n') : Element.Alike r (.node n) (.node n')
  | token (t : Token) : Element.Alike r (.token t) (.token t)

/-- The elements are alike one by one. -/
inductive Element.AlikeAll (r : NodeId → NodeId → Prop) : List Element → List Element → Prop
  | nil : Element.AlikeAll r [] []
  | cons {e e' : Element} {es es' : List Element} (h : Element.Alike r e e')
      (hs : Element.AlikeAll r es es') : Element.AlikeAll r (e :: es) (e' :: es')

end

variable {r : NodeId → NodeId → Prop} {n n' : Node} {e e' : Element} {es es' fs fs' : List Element}

/-! ## Same trees -/

mutual

theorem Node.Alike.refl (hr : ∀ id, r id id) : ∀ n : Node, n.Alike r n
  | ⟨head, children⟩ => .mk (hr head.id) rfl rfl (Element.AlikeAll.refl hr children)
termination_by structural n => n

theorem Element.Alike.refl (hr : ∀ id, r id id) : ∀ e : Element, e.Alike r e
  | .node n => .node (Node.Alike.refl hr n)
  | .token t => .token t
termination_by structural e => e

theorem Element.AlikeAll.refl (hr : ∀ id, r id id) :
    ∀ es : List Element, Element.AlikeAll r es es
  | [] => .nil
  | e :: es => .cons (Element.Alike.refl hr e) (Element.AlikeAll.refl hr es)
termination_by structural es => es

end

mutual

theorem Node.Alike.symm (hr : ∀ {id id'}, r id id' → r id' id) :
    ∀ {n n' : Node}, n.Alike r n' → n'.Alike r n
  | _, _, .mk hid hkind hmarked hchildren =>
    .mk (hr hid) hkind.symm hmarked.symm (Element.AlikeAll.symm hr hchildren)
termination_by structural _ _ h => h

theorem Element.Alike.symm (hr : ∀ {id id'}, r id id' → r id' id) :
    ∀ {e e' : Element}, e.Alike r e' → e'.Alike r e
  | _, _, .node h => .node (Node.Alike.symm hr h)
  | _, _, .token t => .token t
termination_by structural _ _ h => h

theorem Element.AlikeAll.symm (hr : ∀ {id id'}, r id id' → r id' id) :
    ∀ {es es' : List Element}, Element.AlikeAll r es es' → Element.AlikeAll r es' es
  | _, _, .nil => .nil
  | _, _, .cons h hs => .cons (Element.Alike.symm hr h) (Element.AlikeAll.symm hr hs)
termination_by structural _ _ h => h

end

theorem Element.AlikeAll.append (h : Element.AlikeAll r es es') (h' : Element.AlikeAll r fs fs') :
    Element.AlikeAll r (es ++ fs) (es' ++ fs') := by
  induction es generalizing es' with
  | nil =>
    cases h
    exact h'
  | cons e es ih =>
    cases h with
    | cons he hes => exact .cons he (ih hes)

/-! ## What trees show -/

mutual

theorem Node.Alike.tokens_eq : ∀ {n n' : Node}, n.Alike r n' → n.tokens = n'.tokens
  | _, _, .mk _ _ _ hchildren => Element.AlikeAll.tokens_eq hchildren
termination_by structural _ _ h => h

theorem Element.Alike.tokens_eq : ∀ {e e' : Element}, e.Alike r e' → e.tokens = e'.tokens
  | _, _, .node h => Node.Alike.tokens_eq h
  | _, _, .token _ => rfl
termination_by structural _ _ h => h

theorem Element.AlikeAll.tokens_eq : ∀ {es es' : List Element}, Element.AlikeAll r es es' →
    Element.tokensAll es = Element.tokensAll es'
  | _, _, .nil => rfl
  | _, _, .cons h hs => by
    rw [Element.tokensAll_cons, Element.tokensAll_cons, h.tokens_eq, hs.tokens_eq]
termination_by structural _ _ h => h

end

mutual

theorem Node.Alike.hasMark_eq : ∀ {n n' : Node}, n.Alike r n' → n.hasMark = n'.hasMark
  | _, _, .mk _ _ hmarked hchildren => by
    rw [Node.hasMark, Node.hasMark, hmarked, hchildren.hasMarkAll_eq]
termination_by structural _ _ h => h

theorem Element.Alike.hasMark_eq : ∀ {e e' : Element}, e.Alike r e' → e.hasMark = e'.hasMark
  | _, _, .node h => h.hasMark_eq
  | _, _, .token _ => rfl
termination_by structural _ _ h => h

theorem Element.AlikeAll.hasMarkAll_eq : ∀ {es es' : List Element}, Element.AlikeAll r es es' →
    Element.hasMarkAll es = Element.hasMarkAll es'
  | _, _, .nil => rfl
  | _, _, .cons h hs => by
    rw [Element.hasMarkAll, Element.hasMarkAll, h.hasMark_eq, hs.hasMarkAll_eq]
termination_by structural _ _ h => h

end

namespace Node.Alike

theorem kind_eq (h : n.Alike r n') : n.kind = n'.kind := by
  cases h with
  | mk _ hkind => exact hkind

theorem text_eq (h : n.Alike r n') : n.text = n'.text := by
  rw [text, text, h.tokens_eq]

theorem leadingTrivia_eq (h : n.Alike r n') : n.leadingTrivia = n'.leadingTrivia := by
  rw [leadingTrivia, leadingTrivia, firstToken?_eq_head?, firstToken?_eq_head?, h.tokens_eq]

end Node.Alike

namespace Element.Alike

theorem kind_eq (h : e.Alike r e') : e.kind = e'.kind := by
  cases h with
  | node h => exact h.kind_eq
  | token => rfl

theorem leadingTrivia_eq (h : e.Alike r e') : e.leadingTrivia = e'.leadingTrivia := by
  rw [leadingTrivia, leadingTrivia, firstToken?_eq_head?, firstToken?_eq_head?, h.tokens_eq]

end Element.Alike

/-! ## Other trivia -/

theorem Element.AlikeAll.firstTokenAll?_eq (h : Element.AlikeAll r es es') :
    Element.firstTokenAll? es = Element.firstTokenAll? es' := by
  rw [Element.firstTokenAll?_eq_head?, h.tokens_eq, ← Element.firstTokenAll?_eq_head?]

theorem Element.Alike.firstToken?_eq (h : e.Alike r e') : e.firstToken? = e'.firstToken? := by
  rw [Element.firstToken?_eq_head?, h.tokens_eq, ← Element.firstToken?_eq_head?]

mutual

theorem Node.Alike.withLeadingTrivia (s s' : Stamp) (trivia : String) :
    ∀ {n n' : Node}, n.Alike r n' →
      (n.withLeadingTrivia s trivia).Alike r (n'.withLeadingTrivia s' trivia)
  | _, _, .mk hid hkind hmarked hchildren => by
    rw [Node.withLeadingTrivia, Node.withLeadingTrivia, hchildren.firstTokenAll?_eq]
    split
    · exact .mk hid hkind hmarked (hchildren.withLeadingTriviaAll s s' trivia)
    · exact .mk hid hkind hmarked hchildren
termination_by structural _ _ h => h

theorem Element.Alike.withLeadingTrivia : ∀ {e e' : Element}, e.Alike r e' →
    ∀ (s s' : Stamp) (trivia : String),
      (e.withLeadingTrivia s trivia).Alike r (e'.withLeadingTrivia s' trivia)
  | _, _, .node h, s, s', trivia => .node (h.withLeadingTrivia s s' trivia)
  | _, _, .token t, _, _, trivia => .token (t.withLeading trivia)
termination_by structural _ _ h => h

theorem Element.AlikeAll.withLeadingTriviaAll (s s' : Stamp) (trivia : String) :
    ∀ {es es' : List Element}, Element.AlikeAll r es es' →
      Element.AlikeAll r (Element.withLeadingTriviaAll s es trivia)
        (Element.withLeadingTriviaAll s' es' trivia)
  | _, _, .nil => .nil
  | _, _, .cons h hs => by
    rw [Element.withLeadingTriviaAll, Element.withLeadingTriviaAll, h.firstToken?_eq]
    split
    · exact .cons (h.withLeadingTrivia s s' trivia) hs
    · exact .cons h (hs.withLeadingTriviaAll s s' trivia)
termination_by structural _ _ h => h

end

/-! ## Layout -/

theorem Element.AlikeAll.separateFrom (s s' : Stamp) (separator : String)
    {previous previous' : Option Element}
    (hprevious : Option.Rel (Element.Alike r) previous previous') (index : Nat)
    (h : Element.AlikeAll r es es') :
    Element.AlikeAll r (separateFrom s separator previous index es)
      (CodeFix.separateFrom s' separator previous' index es') := by
  induction es generalizing es' previous previous' index with
  | nil =>
    cases h
    exact .nil
  | cons e es ih =>
    cases h with
    | @cons _ e' _ es' he hes =>
      rw [CodeFix.separateFrom, CodeFix.separateFrom]
      have hfollows : (previous.any fun p ↦ p.kind == Kind.attributeList) =
          previous'.any fun p ↦ p.kind == Kind.attributeList := by
        cases hprevious with
        | none => rfl
        | some hp => rw [Option.any_some, Option.any_some, hp.kind_eq]
      have hput : ∀ follows : Bool,
          (if follows && e.leadingTrivia.isEmpty then
            e.withLeadingTrivia (s.below index) separator else e).Alike r
          (if follows && e'.leadingTrivia.isEmpty then
            e'.withLeadingTrivia (s'.below index) separator else e') := by
        intro follows
        rw [he.leadingTrivia_eq]
        split
        · exact he.withLeadingTrivia _ _ separator
        · exact he
      rw [hfollows]
      exact .cons (hput _) (ih (.some (hput _)) (index + 1) hes)

mutual

theorem Node.Alike.layout (newline : Newline) : ∀ {n n' : Node}, n.Alike r n' → ∀ s s' : Stamp,
    (Node.layout newline s n).Alike r (Node.layout newline s' n')
  | _, _, .mk hid hkind hmarked hchildren, s, s' => by
    have hinner := hchildren.layoutAll newline s s' 0
    rw [Node.layout, Node.layout, hmarked, hchildren.hasMarkAll_eq]
    split
    · have hleading := (Node.Alike.mk hid hkind hmarked hinner).leadingTrivia_eq
      rw [layoutMarked, layoutMarked, hleading]
      exact .mk hid hkind rfl (hinner.separateFrom s s' _ .none 0)
    · split
      · exact .mk hid hkind rfl hinner
      · exact .mk hid hkind hmarked hchildren
termination_by structural _ _ h => h

theorem Element.Alike.layout (newline : Newline) : ∀ {e e' : Element}, e.Alike r e' →
    ∀ s s' : Stamp, (Element.layout newline s e).Alike r (Element.layout newline s' e')
  | _, _, .node h, s, s' => .node (h.layout newline s s')
  | _, _, .token t, _, _ => .token t
termination_by structural _ _ h => h

theorem Element.AlikeAll.layoutAll (newline : Newline) : ∀ {es es' : List Element},
    Element.AlikeAll r es es' → ∀ (s s' : Stamp) (index : Nat), Element.AlikeAll r
      (Element.layoutAll newline s index es) (Element.layoutAll newline s' index es')
  | _, _, .nil, _, _, _ => .nil
  | _, _, .cons h hs, s, s', index =>
    .cons (h.layout newline (s.below index) (s'.below index))
      (hs.layoutAll newline s s' (index + 1))
termination_by structural _ _ h => h

end

/-! ## Replacement -/

variable {new new' : Node}

mutual

theorem Node.Alike.replace? (hr : ∀ id, r id id) (hnew : new.Alike r new') (s s' : Stamp)
    (old : NodeId) : ∀ root : Node, Option.Rel (Node.Alike r)
      (Node.replace? s old new root) (Node.replace? s' old new' root)
  | ⟨head, children⟩ => by
    rw [Node.replace?, Node.replace?]
    split
    · exact .some hnew
    · exact rel_map (Element.AlikeAll.replaceAll? hr hnew s s' old children)
        fun _ _ h ↦ .mk (hr head.id) rfl rfl h
termination_by structural n => n

theorem Element.Alike.replace? (hr : ∀ id, r id id) (hnew : new.Alike r new') (s s' : Stamp)
    (old : NodeId) : ∀ e : Element, Option.Rel (Element.Alike r)
      (e.replace? s old new) (e.replace? s' old new')
  | .node n => by
    rw [Element.replace?, Element.replace?]
    exact rel_map (Node.Alike.replace? hr hnew s s' old n) fun _ _ h ↦ .node h
  | .token _ => .none
termination_by structural e => e

theorem Element.AlikeAll.replaceAll? (hr : ∀ id, r id id) (hnew : new.Alike r new') (s s' : Stamp)
    (old : NodeId) : ∀ es : List Element, Option.Rel (Element.AlikeAll r)
      (Element.replaceAll? s old new es) (Element.replaceAll? s' old new' es)
  | [] => .none
  | e :: es => by
    rw [Element.replaceAll?, Element.replaceAll?]
    rcases rel_cases (Element.Alike.replace? hr hnew s s' old e) with
      ⟨hnone, hnone'⟩ | ⟨x, x', hx, hx', h⟩
    · rw [hnone, hnone']
      exact rel_map (Element.AlikeAll.replaceAll? hr hnew s s' old es)
        fun _ _ hs ↦ .cons (.refl hr e) hs
    · rw [hx, hx']
      exact .some (.cons h (.refl hr es))
termination_by structural es => es

end

/-! ## Nodes that two runs built -/

/-- The nodes are alike, and two runs built them after the supplies were at `u` and `u'`. -/
structure Node.Reissued (r : NodeId → NodeId → Prop) (u u' : Supply) (n n' : Node) : Prop where
  alike : n.Alike r n'
  le_edit : u.next ≤ n.head.stamp.edit
  le_edit' : u'.next ≤ n'.head.stamp.edit

namespace Node

variable {u u' : Supply} {s s' : Stamp}

/-- Where a node is replaced, the root is built anew or it is the new node. -/
theorem Reissued.replace? (hr : ∀ id, r id id) (hnew : new.Reissued r u u' new')
    (hs : u.next ≤ s.edit) (hs' : u'.next ≤ s'.edit) (old : NodeId) (root : Node) :
    Option.Rel (Reissued r u u') (Node.replace? s old new root)
      (Node.replace? s' old new' root) := by
  obtain ⟨head, children⟩ := root
  rw [Node.replace?, Node.replace?]
  split
  · exact .some hnew
  · exact rel_map (Element.AlikeAll.replaceAll? hr hnew.alike s s' old children)
      fun _ _ h ↦ ⟨.mk (hr head.id) rfl rfl h, hs, hs'⟩

theorem stamp_layout (newline : Newline) (s : Stamp) (h : n.hasMark = true) :
    (Node.layout newline s n).head.stamp = s := by
  obtain ⟨head, children⟩ := n
  rw [Node.layout]
  split
  · rfl
  · next hmarked =>
    rw [hasMark, Bool.eq_false_iff.2 hmarked, Bool.false_or] at h
    rw [if_pos h]

theorem Alike.layout_reissued (h : n.Alike r n') (hmark : n.hasMark = true) (newline : Newline)
    (hs : u.next ≤ s.edit) (hs' : u'.next ≤ s'.edit) :
    (Node.layout newline s n).Reissued r u u' (Node.layout newline s' n') := by
  have hmark' : n'.hasMark = true := h.hasMark_eq ▸ hmark
  exact ⟨h.layout newline s s', (stamp_layout newline s hmark).symm ▸ hs,
    (stamp_layout newline s' hmark').symm ▸ hs'⟩

end Node

end CodeFix
