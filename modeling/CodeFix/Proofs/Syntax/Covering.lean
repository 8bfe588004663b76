import CodeFix.Proofs.Syntax.Place

/-!
# Nodes at an offset

A node in a context covers the offsets from behind its leading trivia to its end. What it covers,
the nodes around it cover as well (`Covers.fill`), and siblings have no offset in common, since one
begins where the other one has ended (`Covers.before_eq`). So the descent to the innermost node
enters every node that covers the offset, and it enters no other node below the root
(`innermostFrom_covers`).

Ids play no part in the descent to an offset, so what it ends at is said of places. The places whose
nodes hold a given offset are all passed by the descent, hence they are prefixes of one place. From
that it follows that two text ranges of a tree are nested, and then one place lies below the other,
or have no offset in common; an empty range, that of a node without tokens, holds no offset at all.
-/

namespace CodeFix

theorem Token.utf8ByteSize_leadingAll_le (ts : List Token) :
    (leadingAll ts).utf8ByteSize ≤ (textAll ts).utf8ByteSize := by
  rw [textAll_eq_leadingAll_append, String.utf8ByteSize_append]
  exact Nat.le_add_right _ _

namespace TreeContext

/-- The text of a node in the hole of a tree that begins at `start` holds the offset. -/
structure Covers (c : TreeContext) (n : Node) (start offset : Nat) : Prop where
  le : start + (Token.textAll c.tokensBefore).utf8ByteSize + n.leadingTrivia.utf8ByteSize ≤ offset
  lt : offset < start + (Token.textAll c.tokensBefore).utf8ByteSize + n.text.utf8ByteSize

variable {c c' : TreeContext} {n g : Node} {start offset : Nat}

theorem covers_comp : (c.comp c').Covers n start offset ↔
    c'.Covers n (start + (Token.textAll c.tokensBefore).utf8ByteSize) offset := by
  have hstart : start + (Token.textAll (c.comp c').tokensBefore).utf8ByteSize =
      start + (Token.textAll c.tokensBefore).utf8ByteSize +
        (Token.textAll c'.tokensBefore).utf8ByteSize := by
    rw [tokensBefore_comp, Token.textAll_append, String.utf8ByteSize_append, Nat.add_assoc]
  constructor
  · rintro ⟨hle, hlt⟩
    rw [hstart] at hle hlt
    exact ⟨hle, hlt⟩
  · rintro ⟨hle, hlt⟩
    rw [← hstart] at hle hlt
    exact ⟨hle, hlt⟩

theorem covers_child {head : NodeHead} {before after : List Element} {inner : TreeContext} :
    (child head before inner after).Covers n start offset ↔ inner.Covers n
      (start + (Token.textAll (Element.tokensAll before)).utf8ByteSize) offset := by
  have hcomp : child head before inner after = (child head before hole after).comp inner := rfl
  rw [hcomp, covers_comp, tokensBefore, tokensBefore, List.append_nil]

theorem Covers.fill (h : c.Covers n start offset) : hole.Covers (c.fill n) start offset := by
  obtain ⟨hle, hlt⟩ := h
  have hne : n.tokens ≠ [] := by
    intro hnil
    rw [Node.text, hnil, Token.textAll_nil, String.utf8ByteSize_empty] at hlt
    omega
  -- the trivia in front of the tree stand in front of the node, or else are the node's own
  have hleading : (Token.leadingAll (c.fill n).tokens).utf8ByteSize ≤
      (Token.textAll c.tokensBefore).utf8ByteSize + n.leadingTrivia.utf8ByteSize := by
    rw [tokens_fill, List.append_assoc]
    by_cases hbefore : c.tokensBefore = []
    · rw [hbefore, List.nil_append, Token.leadingAll_append_of_ne_nil hne, Node.leadingTrivia_eq]
      exact Nat.le_add_left _ _
    · rw [Token.leadingAll_append_of_ne_nil hbefore]
      exact Nat.le_add_right_of_le (Token.utf8ByteSize_leadingAll_le _)
  have htext : (Token.textAll c.tokensBefore).utf8ByteSize + n.text.utf8ByteSize ≤
      (c.fill n).text.utf8ByteSize := by
    rw [text_fill, String.utf8ByteSize_append, String.utf8ByteSize_append]
    exact Nat.le_add_right _ _
  refine ⟨?_, ?_⟩ <;> simp only [tokensBefore, Token.textAll_nil, String.utf8ByteSize_empty]
  · rw [Node.leadingTrivia_eq]
    omega
  · omega

theorem Covers.outer (h : (c.comp c').Covers n start offset) :
    c.Covers (c'.fill n) start offset := by
  obtain ⟨hle, hlt⟩ := (covers_comp.1 h).fill
  exact ⟨hle, hlt⟩

theorem Covers.before_eq {before before' after after' : List Element} {k k' : Node}
    (hchildren : before ++ .node k :: after = before' ++ .node k' :: after')
    (h : hole.Covers k (start + (Token.textAll (Element.tokensAll before)).utf8ByteSize) offset)
    (h' : hole.Covers k' (start + (Token.textAll (Element.tokensAll before')).utf8ByteSize)
      offset) :
    before = before' := by
  have hend : ∀ (es rest : List Element) (x : Node),
      (Token.textAll (Element.tokensAll es)).utf8ByteSize + x.text.utf8ByteSize ≤
        (Token.textAll (Element.tokensAll (es ++ .node x :: rest))).utf8ByteSize := by
    intro es rest x
    rw [Element.tokensAll_append, Element.tokensAll_cons, Element.tokens_node, Token.textAll_append,
      Token.textAll_append, String.utf8ByteSize_append, String.utf8ByteSize_append, Node.text]
    omega
  have hle := h.le
  have hlt := h.lt
  have hle' := h'.le
  have hlt' := h'.lt
  simp only [tokensBefore, Token.textAll_nil, String.utf8ByteSize_empty, Nat.add_zero] at hle hlt
  simp only [tokensBefore, Token.textAll_nil, String.utf8ByteSize_empty, Nat.add_zero] at hle' hlt'
  -- whichever child stands first, the other one begins behind its end
  rcases List.append_eq_append_iff.1 hchildren with ⟨rest, rfl, hrest⟩ | ⟨rest, rfl, hrest⟩
  · cases rest with
    | nil => exact (List.append_nil before).symm
    | cons x rest =>
      obtain ⟨rfl, -⟩ := List.cons.inj hrest
      have hgap := hend before rest k
      omega
  · cases rest with
    | nil => exact List.append_nil before'
    | cons x rest =>
      obtain ⟨rfl, -⟩ := List.cons.inj hrest
      have hgap := hend before' rest k'
      omega

end TreeContext

open TreeContext

/-! ## The descent -/

variable {c : TreeContext} {n g x : Node} {e : Element} {es es' : List Element}
  {start offset : Nat}

theorem Element.innermostFrom?_eq_some_iff : e.innermostFrom? offset start = some x ↔
    ∃ k, e = .node k ∧ hole.Covers k start offset ∧ k.innermostFrom offset start = x := by
  cases e with
  | node k =>
    rw [Element.innermostFrom?, Option.ite_none_right_eq_some, Option.some_inj, Node.fullLength_eq]
    constructor
    · rintro ⟨⟨hle, hlt⟩, hx⟩
      exact ⟨k, rfl, ⟨hle, hlt⟩, hx⟩
    · rintro ⟨_, ⟨⟩, ⟨hle, hlt⟩, hx⟩
      exact ⟨⟨hle, hlt⟩, hx⟩
  | token t => simp [Element.innermostFrom?]

theorem Element.innermostFromAll?_append (es es' : List Element) (start : Nat) :
    Element.innermostFromAll? offset (es ++ es') start =
      (Element.innermostFromAll? offset es start).or (Element.innermostFromAll? offset es'
        (start + (Token.textAll (Element.tokensAll es)).utf8ByteSize)) := by
  induction es generalizing start with
  | nil => rfl
  | cons e es ih =>
    rw [List.cons_append, Element.innermostFromAll?, ih, ← Option.or_assoc,
      Element.innermostFromAll?, Element.tokensAll_cons, Token.textAll_append,
      String.utf8ByteSize_append, ← Nat.add_assoc, Element.fullLength_eq, Element.text]

theorem Element.exists_of_innermostFromAll?
    (h : Element.innermostFromAll? offset es start = some x) :
    ∃ before k after, es = before ++ .node k :: after ∧
      hole.Covers k (start + (Token.textAll (Element.tokensAll before)).utf8ByteSize) offset ∧
      k.innermostFrom offset
        (start + (Token.textAll (Element.tokensAll before)).utf8ByteSize) = x := by
  induction es generalizing start with
  | nil => exact nomatch h
  | cons e es ih =>
    rw [Element.innermostFromAll?, Option.or_eq_some_iff] at h
    rcases h with h | ⟨-, h⟩
    · obtain ⟨k, rfl, hk⟩ := Element.innermostFrom?_eq_some_iff.1 h
      exact ⟨[], k, es, rfl, hk⟩
    · obtain ⟨before, k, after, rfl, hk⟩ := ih h
      refine ⟨e :: before, k, after, rfl, ?_⟩
      rwa [Element.tokensAll_cons, Token.textAll_append, String.utf8ByteSize_append,
        ← Nat.add_assoc, ← Element.text, ← Element.fullLength_eq]

theorem Element.innermostFromAll?_eq_none
    (h : start + (Token.textAll (Element.tokensAll es)).utf8ByteSize ≤ offset) :
    Element.innermostFromAll? offset es start = none := by
  by_contra hne
  obtain ⟨x, hx⟩ := Option.ne_none_iff_exists'.1 hne
  obtain ⟨before, k, after, rfl, ⟨-, hlt⟩, -⟩ := Element.exists_of_innermostFromAll? hx
  rw [Element.tokensAll_append, Element.tokensAll_cons, Element.tokens_node, Token.textAll_append,
    Token.textAll_append, String.utf8ByteSize_append, String.utf8ByteSize_append] at h
  rw [tokensBefore, Token.textAll_nil, String.utf8ByteSize_empty, Node.text] at hlt
  omega

theorem Element.innermostFromAll?_ne_none {before after : List Element} {k : Node}
    (h : hole.Covers k (start + (Token.textAll (Element.tokensAll before)).utf8ByteSize) offset) :
    Element.innermostFromAll? offset (before ++ .node k :: after) start ≠ none := by
  have hle := h.le
  rw [tokensBefore, Token.textAll_nil, String.utf8ByteSize_empty] at hle
  have hk := Element.innermostFrom?_eq_some_iff.2 ⟨k, rfl, h, rfl⟩
  rw [Element.innermostFromAll?_append, Element.innermostFromAll?_eq_none (by omega),
    Option.none_or, Element.innermostFromAll?, hk, Option.some_or]
  exact Option.some_ne_none _

namespace Node

/-- **The descent** ends at the root or at a node that covers the offset, and enters every node on
the way that covers it. -/
theorem innermostFrom_covers (offset : Nat) (n : Node) (start : Nat) :
    ∃ c : TreeContext, n = c.fill (n.innermostFrom offset start) ∧
      (c = hole ∨ c.Covers (n.innermostFrom offset start) start offset) ∧
      ∀ (c' : TreeContext) (g : Node), n = c'.fill g → c'.Covers g start offset →
        c'.place <+: c.place := by
  induction n using Node.induction generalizing start with
  | step head children ih =>
    rw [innermostFrom]
    cases hfound : Element.innermostFromAll? offset children start with
    | none =>
      refine ⟨hole, rfl, Or.inl rfl, fun c' g hfill hcovers ↦ ?_⟩
      cases c' with
      | hole => exact List.nil_prefix
      | child head' before inner after =>
        obtain ⟨rfl, rfl⟩ := Node.mk.inj hfill
        exact absurd hfound (Element.innermostFromAll?_ne_none (covers_child.1 hcovers).fill)
    | some x =>
      obtain ⟨before, k, after, rfl, hk, rfl⟩ := Element.exists_of_innermostFromAll? hfound
      obtain ⟨inner, hfill, hinner, hway⟩ := ih k List.mem_append_cons_self
        (start + (Token.textAll (Element.tokensAll before)).utf8ByteSize)
      rw [Option.getD_some]
      set x := k.innermostFrom offset
        (start + (Token.textAll (Element.tokensAll before)).utf8ByteSize)
      refine ⟨child head before inner after, ?_, Or.inr (covers_child.2 ?_),
        fun c' g hfill' hcovers ↦ ?_⟩
      · rw [fill_child, ← hfill]
      · rcases hinner with rfl | hinner
        · rw [fill_hole] at hfill
          rwa [← hfill]
        · exact hinner
      · cases c' with
        | hole => exact List.nil_prefix
        | child head' before' inner' after' =>
          obtain ⟨rfl, hchildren⟩ := Node.mk.inj hfill'
          have hbelow := covers_child.1 hcovers
          obtain rfl := Covers.before_eq hchildren hk hbelow.fill
          obtain ⟨hnode, -⟩ := List.cons.inj (List.append_cancel_left hchildren)
          exact List.cons_prefix_cons.2 ⟨rfl, hway inner' g (Element.node.inj hnode) hbelow⟩

theorem innermostFrom_mem_preorder_self (offset : Nat) (n : Node) (start : Nat) :
    n.innermostFrom offset start ∈ n.preorder := by
  obtain ⟨c, hc, -⟩ := n.innermostFrom_covers offset start
  exact (congrArg (n.innermostFrom offset start ∈ ·.preorder) hc).mpr (mem_preorder_fill _ _)

/-- What the descent ends at lies in every node that covers the offset. -/
theorem innermostFrom_mem_preorder (h : c.Covers g start offset) :
    (c.fill g).innermostFrom offset start ∈ g.preorder := by
  obtain ⟨c', hc', -, hway⟩ := (c.fill g).innermostFrom_covers offset start
  obtain ⟨d, -, hd⟩ := exists_comp_of_place_isPrefix hc' (hway c g rfl h)
  exact (congrArg ((c.fill g).innermostFrom offset start ∈ ·.preorder) hd).mpr
    (mem_preorder_fill _ _)

/-! ## Ranges by id -/

variable {root : Node}

/-- The text range of a node of the tree holds the offset. -/
def RangeHolds (root n : Node) (offset : Nat) : Prop :=
  ∃ start stop, root.textRange? n.id = some (start, stop) ∧ start ≤ offset ∧ offset < stop

theorem rangeHolds_fill_iff (h : (c.fill n).ids.Nodup) :
    (c.fill n).RangeHolds n offset ↔ c.Covers n 0 offset := by
  rw [RangeHolds, textRange?, rangeFrom?_fill (id_not_mem_idsBefore h)]
  constructor
  · rintro ⟨_, _, ⟨⟩, hle, hlt⟩
    exact ⟨hle, hlt⟩
  · rintro ⟨hle, hlt⟩
    exact ⟨_, _, rfl, hle, hlt⟩

theorem covering?_getD_mem_preorder (root : Node) (offset : Nat) :
    (root.covering? offset).getD root ∈ root.preorder := by
  rw [covering?]
  split
  · exact root.mem_preorder_self
  · exact innermostFrom_mem_preorder_self offset root 0

/-- A node whose range holds the offset contains the node that is found at the offset. -/
theorem covering?_mem_preorder (hroot : root.ids.Nodup) (hn : n ∈ root.preorder)
    (h : root.RangeHolds n offset) : (root.covering? offset).getD root ∈ n.preorder := by
  obtain ⟨c, rfl⟩ := exists_fill_of_mem hn
  have hcovers := (rangeHolds_fill_iff hroot).1 h
  have hlt : offset < (c.fill n).fullLength := by
    have hlt := hcovers.fill.lt
    rwa [tokensBefore, Token.textAll_nil, String.utf8ByteSize_empty, Nat.zero_add,
      ← fullLength_eq] at hlt
  rw [covering?, if_neg (Nat.not_lt_of_ge (Nat.le_of_lt hlt)), Option.getD_some]
  exact innermostFrom_mem_preorder hcovers

theorem rangeHolds_of_covering? (hroot : root.ids.Nodup) (hn : n ∈ root.preorder)
    (hne : n ≠ root) (h : (root.covering? offset).getD root ∈ n.preorder) :
    root.RangeHolds n offset := by
  have hnot : root ∉ n.preorder := fun hmem ↦ hne (eq_of_mem_preorder hn hmem)
  rw [covering?] at h
  by_cases hlt : offset > root.fullLength
  · rw [if_pos hlt] at h
    exact absurd h hnot
  · rw [if_neg hlt, Option.getD_some] at h
    obtain ⟨c, hc, hcovers, -⟩ := root.innermostFrom_covers offset 0
    set x := root.innermostFrom offset 0
    rcases hcovers with rfl | hcovers
    · rw [hc] at hnot
      exact absurd h hnot
    · obtain ⟨outer, houter⟩ := exists_fill_of_mem hn
      obtain ⟨inner, hinner⟩ := exists_fill_of_mem h
      have hcomp : root = (outer.comp inner).fill x := by rw [fill_comp, ← hinner, ← houter]
      have hholds : root.RangeHolds x offset := by
        rw [hc] at hroot ⊢
        exact (rangeHolds_fill_iff hroot).2 hcovers
      rw [hcomp] at hroot hholds
      have hn := ((rangeHolds_fill_iff hroot).1 hholds).outer
      rw [← hinner] at hn
      rw [fill_comp, ← hinner] at hroot
      rw [houter]
      exact (rangeHolds_fill_iff hroot).2 hn

end Node

end CodeFix

/-! ## Places that hold an offset -/

namespace CodeFix.Node

/-- A node stands at the place, and its text range holds the offset: the trivia in front of its
first token do not belong to the range, nor does its end. -/
def HoldsAt (n : Node) (place : List Nat) (offset : Nat) : Prop :=
  ∃ k, n.at? place = some (.node k) ∧
    (Token.textAll (n.tokensTo place)).utf8ByteSize + k.leadingTrivia.utf8ByteSize ≤ offset ∧
    offset < (Token.textAll (n.tokensTo place)).utf8ByteSize + k.text.utf8ByteSize

variable {n g : Node} {place p q : List Nat} {offset : Nat}

theorem holdsAt_place_iff (c : TreeContext) (k : Node) :
    (c.fill k).HoldsAt c.place offset ↔ c.Covers k 0 offset := by
  have hat : (c.fill k).at? c.place = some (.node k) :=
    TreeContext.at?_eq_some_node_iff.2 ⟨c, rfl, rfl⟩
  rw [HoldsAt, TreeContext.tokensTo_fill]
  constructor
  · rintro ⟨k', hk', hle, hlt⟩
    obtain rfl := Element.node.inj (Option.some.inj (hat.symm.trans hk'))
    exact ⟨by rwa [Nat.zero_add], by rwa [Nat.zero_add]⟩
  · rintro ⟨hle, hlt⟩
    rw [Nat.zero_add] at hle hlt
    exact ⟨k, hat, hle, hlt⟩

theorem HoldsAt.exists_node (h : n.HoldsAt place offset) :
    ∃ k, n.at? place = some (.node k) := by
  obtain ⟨k, hk, -⟩ := h
  exact ⟨k, hk⟩

theorem HoldsAt.exists_fill (h : n.HoldsAt place offset) :
    ∃ (c : TreeContext) (k : Node), n = c.fill k ∧ c.place = place ∧ c.Covers k 0 offset := by
  obtain ⟨k, hk⟩ := h.exists_node
  obtain ⟨c, rfl, rfl⟩ := TreeContext.exists_fill_of_at? hk
  exact ⟨c, k, rfl, rfl, (holdsAt_place_iff c k).1 h⟩

theorem HoldsAt.of_isPrefix (h : n.HoldsAt q offset) (hp : n.at? p = some (.node g))
    (hpq : p <+: q) : n.HoldsAt p offset := by
  obtain ⟨c', k, hfill, rfl, hcovers⟩ := h.exists_fill
  obtain ⟨c, rfl, rfl⟩ := TreeContext.exists_fill_of_at? hp
  obtain ⟨d, rfl, rfl⟩ := TreeContext.exists_comp_of_place_isPrefix hfill hpq
  exact (holdsAt_place_iff c _).2 hcovers.outer

/-- The descent passes all places that hold the offset. -/
theorem exists_place_innermostFrom (n : Node) (offset : Nat) :
    ∃ place, n.at? place = some (.node (n.innermostFrom offset 0)) ∧
      (place = [] ∨ n.HoldsAt place offset) ∧ ∀ p, n.HoldsAt p offset → p <+: place := by
  obtain ⟨c, hfill, hcovers, hway⟩ := n.innermostFrom_covers offset 0
  refine ⟨c.place, TreeContext.at?_eq_some_node_iff.2 ⟨c, hfill, rfl⟩, hcovers.imp ?_ ?_, ?_⟩
  · rintro rfl
    rfl
  · intro h
    have hholds := (holdsAt_place_iff c _).2 h
    rwa [← hfill] at hholds
  · intro p hp
    obtain ⟨c', g, hfill', rfl, hcovers'⟩ := hp.exists_fill
    exact hway c' g hfill' hcovers'

/-- Of two places that hold an offset, one lies below the other. -/
theorem HoldsAt.isPrefix_or_isPrefix (hp : n.HoldsAt p offset) (hq : n.HoldsAt q offset) :
    p <+: q ∨ q <+: p := by
  obtain ⟨place, -, -, hway⟩ := n.exists_place_innermostFrom offset
  exact List.prefix_or_prefix_of_prefix (hway p hp) (hway q hq)

/-- **The innermost node at an offset.** Nothing is found behind the end of the text. Otherwise it
is the root or a node whose range holds the offset, and it lies in every node whose range does;
for the ranges of two nodes are disjoint or nested. -/
theorem covering_innermost (n : Node) (offset : Nat) :
    (n.covering? offset = none ↔ n.fullLength < offset) ∧
      (∀ x, n.covering? offset = some x → ∃ place, n.at? place = some (.node x) ∧
        (place = [] ∨ n.HoldsAt place offset) ∧ ∀ p, n.HoldsAt p offset → p <+: place) ∧
      ∀ p q, (∀ o, ¬(n.HoldsAt p o ∧ n.HoldsAt q o)) ∨
        (p <+: q ∧ ∀ o, n.HoldsAt q o → n.HoldsAt p o) ∨
        (q <+: p ∧ ∀ o, n.HoldsAt p o → n.HoldsAt q o) := by
  rw [covering?]
  refine ⟨?_, fun x hx ↦ ?_, fun p q ↦ ?_⟩
  · rw [ite_eq_left_iff]
    refine ⟨fun h ↦ ?_, fun hlt h ↦ absurd hlt h⟩
    by_contra hle
    exact Option.some_ne_none _ (h hle)
  · obtain ⟨-, hx⟩ := Option.ite_none_left_eq_some.1 hx
    obtain rfl := Option.some.inj hx
    exact n.exists_place_innermostFrom offset
  · by_cases hcommon : ∃ o, n.HoldsAt p o ∧ n.HoldsAt q o
    · obtain ⟨o, hp, hq⟩ := hcommon
      obtain ⟨k, hk⟩ := hp.exists_node
      obtain ⟨g, hg⟩ := hq.exists_node
      exact Or.inr ((hp.isPrefix_or_isPrefix hq).imp
        (fun hpq ↦ ⟨hpq, fun _ h ↦ h.of_isPrefix hk hpq⟩)
        fun hqp ↦ ⟨hqp, fun _ h ↦ h.of_isPrefix hg hqp⟩)
    · exact Or.inl fun o h ↦ hcommon ⟨o, h⟩

end CodeFix.Node
