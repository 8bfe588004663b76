import CodeFix.Proofs.Layout
import CodeFix.Proofs.Syntax.Place
import CodeFix.Proofs.Syntax.Sketch

/-!
# What layout changes in a tree

Layout rebuilds every node with a mark below it, so most values of a tree with marks are new ones.
What stays is said place by place: an element without marks is the same value afterwards unless it
begins with a token that got a separator, and such a token stands first in an element behind an
attribute list of a marked node. Marked nodes may lie in each other, and then two of them can have a
say in one token. Only the inner one has: it leaves trivia behind that are not empty, and the outer
one separates nothing that has trivia already (`separator_ne_empty`).

The induction is on the place. One step of it goes from a node to one child, which layout has either
laid out, or laid out and then given a separator (`exists_getElem?_children_layout`).
-/

namespace CodeFix

/-- A separator is one space, or a line break with some indentation. -/
def IsSeparator (newline : Newline) (separator : String) : Prop :=
  separator = " " ∨ ∃ indent : List Char, (∀ c ∈ indent, c = ' ' ∨ c = '\t') ∧
    separator = newline.text ++ String.ofList indent

/-- The token with the number `index` stands first in an element behind an attribute list of a
marked node. -/
def Element.SeparatedAt (x : Element) (index : Nat) : Prop :=
  ∃ place n i list e, x.at? place = some (.node n) ∧ n.marked = true ∧
    n.children[i]? = some list ∧ list.kind = Kind.attributeList ∧
    n.children[i + 1]? = some e ∧ e.tokens ≠ [] ∧ index = (x.tokensTo (place ++ [i + 1])).length

variable {newline : Newline} {s : Stamp} {separator : String} {n : Node} {e x y : Element}
  {es : List Element} {i index : Nat} {place : List Nat}

/-! ## Separators -/

theorem isSeparator_separatorFor (leading : String) (newline : Newline) :
    IsSeparator newline (separatorFor leading newline) := by
  rw [separatorFor]
  split
  · exact Or.inl rfl
  · refine Or.inr ⟨_, fun c hc ↦ ?_, rfl⟩
    have hblank := List.all_eq_true.1 List.all_takeWhile c (List.mem_reverse.1 hc)
    simpa using hblank

theorem separator_ne_empty (h : IsSeparator newline separator) : separator ≠ "" := by
  rcases h with rfl | ⟨indent, -, rfl⟩
  · decide
  · intro h
    have hnewline := (String.append_eq_empty_iff.1 h).1
    cases newline <;> exact absurd hnewline (by decide)

/-! ## One child -/

theorem Element.getElem?_layoutAll (newline : Newline) (s : Stamp) (index : Nat)
    (es : List Element) (i : Nat) :
    (Element.layoutAll newline s index es)[i]? =
      es[i]?.map (Element.layout newline (s.below (index + i))) := by
  induction es generalizing index i with
  | nil => rfl
  | cons e es ih =>
    cases i with
    | zero => rfl
    | succ i =>
      rw [Element.layoutAll, List.getElem?_cons_succ, List.getElem?_cons_succ, ih,
        Nat.add_right_comm]
      rfl

@[simp] theorem Element.kind_layout (newline : Newline) (s : Stamp) (e : Element) :
    (Element.layout newline s e).kind = e.kind := by
  cases e with
  | node k => exact Node.kind_layout newline s k
  | token t => rfl

/-- An element is left as it is, or it follows an attribute list and gets the separator. -/
theorem exists_getElem?_separateFrom (h : es[i]? = some x) (s : Stamp) (separator : String)
    (previous : Option Element) (index : Nat) :
    ∃ y, (separateFrom s separator previous index es)[i]? = some y ∧ (y = x ∨
      (previous.map Element.kind :: es.map fun e ↦ some e.kind)[i]? =
          some (some Kind.attributeList) ∧
        x.leadingTrivia = "" ∧ y = x.withLeadingTrivia (s.below (index + i)) separator) := by
  induction es generalizing previous index i with
  | nil => cases h
  | cons e es ih =>
    rw [separateFrom]
    cases i with
    | zero =>
      obtain rfl := Option.some.inj h
      refine ⟨_, rfl, ?_⟩
      by_cases hfollows : (previous.any fun p ↦ p.kind == Kind.attributeList) &&
          e.leadingTrivia.isEmpty
      · obtain ⟨hlist, hempty⟩ := Bool.and_eq_true_iff.1 hfollows
        obtain ⟨p, rfl, hp⟩ := (Option.any_eq_true _ _).1 hlist
        rw [if_pos hfollows]
        exact Or.inr ⟨congrArg (some ∘ some) (beq_iff_eq.1 hp), String.isEmpty_iff.1 hempty, rfl⟩
      · rw [if_neg hfollows]
        exact Or.inl rfl
    | succ i =>
      obtain ⟨y, hy, hcases⟩ := ih h (some _) (index + 1)
      refine ⟨y, hy, hcases.imp_right ?_⟩
      rintro ⟨hlist, hempty, rfl⟩
      refine ⟨?_, hempty, by rw [Nat.add_right_comm, Nat.add_assoc]⟩
      rw [List.map_cons, List.getElem?_cons_succ, ← hlist, Option.map_some]
      congr 2
      split
      · rw [Element.kind_withLeadingTrivia]
      · rfl

/-- **One child.** It is laid out, and may then be separated from an attribute list in front of
it. -/
theorem Node.exists_getElem?_children_layout (h : n.children[i]? = some x) (newline : Newline)
    (s : Stamp) :
    ∃ s' y, (Node.layout newline s n).children[i]? = some y ∧
      (y = Element.layout newline s' x ∨
        n.marked = true ∧
          (∃ j list, i = j + 1 ∧ n.children[j]? = some list ∧ list.kind = Kind.attributeList) ∧
          (Element.layout newline s' x).leadingTrivia = "" ∧
          ∃ s'' separator, IsSeparator newline separator ∧
            y = (Element.layout newline s' x).withLeadingTrivia s'' separator) := by
  obtain ⟨head, children⟩ := n
  have hlaid : (Element.layoutAll newline s 0 children)[i]? =
      some (Element.layout newline (s.below (0 + i)) x) := by
    rw [Element.getElem?_layoutAll, h, Option.map_some]
  rw [Node.layout]
  split
  · next hmarked =>
    set separator := separatorFor
      (Node.mk head (Element.layoutAll newline s 0 children)).leadingTrivia newline
    obtain ⟨y, hy, hcases⟩ := exists_getElem?_separateFrom hlaid s separator none 0
    refine ⟨_, y, hy, hcases.imp_right ?_⟩
    rintro ⟨hkind, hempty, rfl⟩
    refine ⟨hmarked, ?_, hempty, _, separator, isSeparator_separatorFor _ _, rfl⟩
    cases i with
    | zero => cases hkind
    | succ j =>
      rw [List.getElem?_cons_succ, List.getElem?_map, Element.getElem?_layoutAll,
        Option.map_map] at hkind
      obtain ⟨list, hlist, hlistKind⟩ := Option.map_eq_some_iff.1 hkind
      exact ⟨j, list, rfl, hlist, (Element.kind_layout newline _ list).symm.trans
        (Option.some.inj hlistKind)⟩
  · split
    · exact ⟨_, _, hlaid, Or.inl rfl⟩
    · next hchildren =>
      have hx : x.hasMark = false := by
        rw [Element.hasMarkAll_eq_any] at hchildren
        exact Bool.eq_false_iff.2
          (List.any_eq_false.1 (Bool.eq_false_iff.2 hchildren) x (List.mem_of_getElem? h))
      exact ⟨s, x, h, Or.inl (Element.layout_of_hasMark_eq_false hx).symm⟩

/-! ## Tokens in front of a place -/

theorem Element.children_eq_of_sketch_eq {label : Node → String}
    (h : x.sketch label = y.sketch label) :
    x.children.map (sketch label) = y.children.map (sketch label) := by
  cases x with
  | node k =>
    cases y with
    | node k' => exact Node.children_eq_of_sketch_eq (Element.node.inj h)
    | token t => cases h
  | token t =>
    cases y with
    | node k => cases h
    | token t' => rfl

theorem Element.length_tokensTo_eq_of_sketch_eq {label : Node → String}
    (h : x.sketch label = y.sketch label) (place : List Nat) :
    (x.tokensTo place).length = (y.tokensTo place).length := by
  induction place generalizing x y with
  | nil => rfl
  | cons i place ih =>
    have hchildren := children_eq_of_sketch_eq h
    have hfront : (tokensAll (x.children.take i)).length = (tokensAll (y.children.take i)).length :=
      length_tokensAll_eq_of_sketch_eq (by rw [List.map_take, hchildren, List.map_take])
    have hget : x.children[i]?.map (sketch label) = y.children[i]?.map (sketch label) := by
      rw [← List.getElem?_map, hchildren, List.getElem?_map]
    rw [tokensTo, tokensTo, List.length_append, List.length_append, hfront]
    congr 1
    cases hx : x.children[i]? with
    | none =>
      rw [hx] at hget
      rw [Option.map_eq_none_iff.1 hget.symm]
    | some k =>
      rw [hx] at hget
      obtain ⟨k', hk', hsketch⟩ := Option.map_eq_some_iff.1 hget.symm
      rw [hk']
      exact ih hsketch.symm

theorem Element.sketch_layout (newline : Newline) (s : Stamp) (e : Element) :
    (Element.layout newline s e).sketch Node.noLabel = e.sketch Node.noLabel := by
  cases e with
  | node k => exact congrArg Element.node (Node.sketch_layout newline s k)
  | token t => rfl

theorem Element.SeparatedAt.of_child (hx : x.children[i]? = some y) (h : y.SeparatedAt index) :
    x.SeparatedAt ((tokensAll (x.children.take i)).length + index) := by
  obtain ⟨place, n, j, list, e, hn, hmarked, hlist, hkind, he, hne, rfl⟩ := h
  refine ⟨i :: place, n, j, list, e, at?_cons_eq_some_iff.2 ⟨y, hx, hn⟩, hmarked, hlist, hkind, he,
    hne, ?_⟩
  rw [List.cons_append, tokensTo_cons hx, List.length_append]

/-- A token with which a child behind an attribute list begins is separated. -/
theorem Element.SeparatedAt.of_list {list : Element} (hmarked : n.marked = true)
    (hlist : n.children[i]? = some list) (hkind : list.kind = Kind.attributeList)
    (hchild : n.children[i + 1]? = some x) (he : x.at? place = some e) (hne : e.tokens ≠ [])
    (hfront : x.tokensTo place = []) :
    (node n).SeparatedAt ((node n).tokensTo ((i + 1) :: place)).length := by
  refine ⟨[], n, i, list, x, rfl, hmarked, hlist, hkind, hchild, tokens_ne_nil_of_at? he hne, ?_⟩
  rw [List.nil_append, tokensTo_cons hchild, tokensTo_cons hchild, tokensTo_nil, hfront]

/-! ## Every place -/

/-- **Layout at a place.** An element without marks changes only if it begins with a separated
token, and only by the separator. -/
theorem Element.exists_at?_layout (h : x.at? place = some e) (he : e.hasMark = false)
    (newline : Newline) (s : Stamp) :
    ∃ e', (Element.layout newline s x).at? place = some e' ∧ (e' = e ∨
      e.tokens ≠ [] ∧ e.leadingTrivia = "" ∧ x.SeparatedAt (x.tokensTo place).length ∧
        ∃ s' separator, IsSeparator newline separator ∧ e' = e.withLeadingTrivia s' separator) := by
  induction place generalizing x s with
  | nil =>
    obtain rfl := Option.some.inj h
    exact ⟨x, by rw [Element.layout_of_hasMark_eq_false he, at?_nil], Or.inl rfl⟩
  | cons i place ih =>
    obtain ⟨child, hchild, he'⟩ := at?_cons_eq_some_iff.1 h
    cases x with
    | token t => cases hchild
    | node n =>
      obtain ⟨s', y, hy, hcases⟩ := Node.exists_getElem?_children_layout hchild newline s
      obtain ⟨e₁, he₁, hcases₁⟩ := ih he' s'
      -- what has become of the element in the child before the child was separated
      have hchanged : e₁ = e ∨ e.tokens ≠ [] ∧ e.leadingTrivia = "" ∧
          (Element.node n).SeparatedAt ((Element.node n).tokensTo (i :: place)).length ∧
          ∃ s' separator, IsSeparator newline separator ∧
            e₁ = e.withLeadingTrivia s' separator := by
        refine hcases₁.imp_right fun ⟨hne, hempty, hseparated, hrest⟩ ↦ ⟨hne, hempty, ?_, hrest⟩
        rw [tokensTo_cons hchild, List.length_append]
        exact hseparated.of_child hchild
      rcases hcases with rfl | ⟨hmarked, ⟨j, list, rfl, hlist, hkind⟩, hleading, s'', separator,
        hseparator, rfl⟩
      · exact ⟨e₁, at?_cons_eq_some_iff.2 ⟨_, hy, he₁⟩, hchanged⟩
      · obtain ⟨e₂, he₂, hcases₂⟩ := at?_withLeadingTrivia he₁ s'' separator
        refine ⟨e₂, at?_cons_eq_some_iff.2 ⟨_, hy, he₂⟩, ?_⟩
        rcases hcases₂ with rfl | ⟨hfront, hne, rfl⟩
        · exact hchanged
        · -- the element begins where the child begins, so no separator has come in front of it yet
          have hleading₁ := leadingTrivia_eq_of_tokensTo_eq_nil he₁ hfront hne
          rw [hleading] at hleading₁
          obtain rfl : e₁ = e := by
            refine hcases₁.resolve_right ?_
            rintro ⟨hne', -, -, s₁, separator₁, hseparator₁, rfl⟩
            rw [leadingTrivia_withLeadingTrivia s₁ separator₁ hne'] at hleading₁
            exact separator_ne_empty hseparator₁ hleading₁
          have hlength := length_tokensTo_eq_of_sketch_eq (sketch_layout newline s' child) place
          rw [hfront] at hlength
          exact Or.inr ⟨hne, hleading₁, .of_list hmarked hlist hkind hchild he' hne
            (List.eq_nil_of_length_eq_zero hlength.symm), s'', separator, hseparator, rfl⟩

/-! ## Marks -/

theorem hasMarkAll_separateFrom (s : Stamp) (separator : String) (previous : Option Element)
    (index : Nat) (es : List Element) :
    Element.hasMarkAll (separateFrom s separator previous index es) = Element.hasMarkAll es := by
  induction es generalizing previous index with
  | nil => rfl
  | cons e es ih =>
    rw [separateFrom, Element.hasMarkAll, ih, Element.hasMarkAll]
    split
    · rw [Element.hasMark_withLeadingTrivia]
    · rfl

theorem Node.hasMark_layout (newline : Newline) (s : Stamp) (n : Node) :
    (Node.layout newline s n).hasMark = false := by
  induction n using Node.induction generalizing s with
  | step head children ih =>
    have hlaid : Element.hasMarkAll (Element.layoutAll newline s 0 children) = false := by
      rw [Element.hasMarkAll_eq_any, List.any_eq_false]
      intro e he
      obtain ⟨i, hi⟩ := List.mem_iff_getElem?.1 he
      rw [Element.getElem?_layoutAll] at hi
      obtain ⟨x, hx, rfl⟩ := Option.map_eq_some_iff.1 hi
      cases x with
      | node k => exact Bool.eq_false_iff.1 (ih k (List.mem_of_getElem? hx) _)
      | token t => exact Bool.false_ne_true
    rw [Node.layout]
    split
    · rw [layoutMarked, Node.hasMark, hasMarkAll_separateFrom, hlaid]
      rfl
    · next hmarked =>
      split
      · rw [Node.hasMark, hlaid, Bool.eq_false_iff.2 hmarked]
        rfl
      · next hchildren =>
        rw [Node.hasMark, Bool.eq_false_iff.2 hmarked, Bool.eq_false_iff.2 hchildren]
        rfl

theorem Node.hasMark_eq_false_iff_forall :
    n.hasMark = false ↔ ∀ m ∈ n.preorder, m.marked = false := by
  refine ⟨fun h m hm ↦ ?_, Node.hasMark_eq_false⟩
  induction n using Node.induction with
  | step head children ih =>
    obtain ⟨hmarked, hchildren⟩ := Node.hasMark_eq_false_iff.1 h
    rcases Node.mem_preorder_iff.1 hm with rfl | ⟨k, hk, hmk⟩
    · exact hmarked
    · exact ih k hk (hchildren k hk) hmk

theorem Element.hasMark_eq_false_iff_forall :
    e.hasMark = false ↔ ∀ m ∈ e.preorder, m.marked = false := by
  cases e with
  | node k => exact Node.hasMark_eq_false_iff_forall
  | token t => exact ⟨fun _ m hm ↦ (List.not_mem_nil hm).elim, fun _ ↦ rfl⟩

theorem Document.layout_eq_self_iff (d : Document) (t : Supply) :
    (d.layout t).1 = d ↔ d.root.hasMark = false := by
  rw [Document.layout]
  split
  · next hmark =>
    refine iff_of_false (fun h ↦ ?_) (ne_false_of_eq_true hmark)
    exact Nat.succ_ne_self d.version (congrArg Document.version h)
  · next hmark => exact iff_of_true rfl (Bool.eq_false_iff.2 hmark)

theorem Document.layout_of_hasMark_eq_false {d : Document} (h : d.root.hasMark = false)
    (t : Supply) : d.layout t = (d, t) := by
  rw [Document.layout, if_neg (ne_true_of_eq_false h)]
  rfl

theorem Document.hasMark_root_layout (d : Document) (t : Supply) :
    (d.layout t).1.root.hasMark = false := by
  rw [Document.layout]
  split
  · exact Node.hasMark_layout _ _ _
  · next hmark => exact Bool.eq_false_iff.2 hmark

/-- **Layout** changes nothing in a tree but marks and the trivia of separated tokens, and a tree
that is laid out stays what it is, as the same value. -/
theorem Node.layout_only_separates (newline : Newline) (s : Stamp) (n : Node) :
    (Node.layout newline s n).sketch noLabel = n.sketch noLabel ∧
      (∀ m ∈ (Node.layout newline s n).preorder, m.marked = false) ∧
      (∀ place e, n.at? place = some e → (∀ m ∈ e.preorder, m.marked = false) →
        (Node.layout newline s n).at? place = some e ∨
          e.tokens ≠ [] ∧ e.leadingTrivia = "" ∧
            (Element.node n).SeparatedAt (n.tokensTo place).length ∧
            ∃ s' separator, IsSeparator newline separator ∧
              (Node.layout newline s n).at? place = some (e.withLeadingTrivia s' separator)) ∧
      ((∀ m ∈ n.preorder, m.marked = false) → Node.layout newline s n = n) ∧
      (∀ newline' s', Node.layout newline' s' (Node.layout newline s n) =
        Node.layout newline s n) ∧
      ∀ (d : Document) (t : Supply),
        ((d.layout t).1 = d ↔ ∀ m ∈ d.root.preorder, m.marked = false) ∧
          ∀ t', (d.layout t).1.layout t' = ((d.layout t).1, t') := by
  refine ⟨Node.sketch_layout newline s n,
    hasMark_eq_false_iff_forall.1 (hasMark_layout newline s n), fun place e he hmark ↦ ?_,
    fun h ↦ layout_of_hasMark_eq_false (hasMark_eq_false h),
    fun newline' s' ↦ layout_of_hasMark_eq_false (hasMark_layout newline s n), fun d t ↦ ⟨?_, ?_⟩⟩
  · obtain ⟨e', he', rfl | ⟨hne, hempty, hseparated, s', separator, hseparator, rfl⟩⟩ :=
      Element.exists_at?_layout he (Element.hasMark_eq_false_iff_forall.2 hmark) newline s
    · exact Or.inl he'
    · exact Or.inr ⟨hne, hempty, hseparated, s', separator, hseparator, he'⟩
  · rw [d.layout_eq_self_iff, hasMark_eq_false_iff_forall]
  · exact fun t' ↦ Document.layout_of_hasMark_eq_false (d.hasMark_root_layout t) t'

-- of two marked nodes around the name, the inner one separates it from the list
example :
    let list (text : String) : Element :=
      .node ⟨⟨⟨2⟩, ⟨0, []⟩, Kind.attributeList, false⟩, [.token ⟨Kind.identifier, "\t", text⟩]⟩
    let empty : Element := .node ⟨⟨⟨3⟩, ⟨0, []⟩, Kind.attributeList, false⟩, []⟩
    let inner : Element := .node ⟨⟨⟨1⟩, ⟨0, []⟩, Kind.fieldDeclaration, true⟩,
      [empty, .token ⟨Kind.identifier, "", "foo"⟩]⟩
    (Node.layout .lf ⟨1, []⟩
      ⟨⟨⟨0⟩, ⟨0, []⟩, Kind.fieldDeclaration, true⟩, [list "[A]", inner]⟩).text = "\t[A]\nfoo" := by
  decide +kernel

end CodeFix
