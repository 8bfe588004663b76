import CodeFix.Proofs.Syntax.TreeContext
import CodeFix.Syntax.Text

/-!
# Text, trivia and ranges

What a tree shows is decided by its run of tokens, so the facts about text are stated on runs:
how texts and lengths add up, what the trivia in front of a run are, and what giving a run other
trivia does to it. A node in a context begins behind the tokens in front of it, which is where
`rangeFrom?_fill` puts its range.
-/

namespace CodeFix

/-! ## Runs of tokens -/

namespace Token

variable {ts us : List Token}

@[simp] theorem textAll_nil : textAll [] = "" := String.join_nil

@[simp] theorem textAll_cons (t : Token) (ts : List Token) :
    textAll (t :: ts) = t.leading ++ t.text ++ textAll ts := by
  rw [textAll, List.map_cons, String.join_cons, fullText, textAll]

@[simp] theorem textAll_append (ts us : List Token) :
    textAll (ts ++ us) = textAll ts ++ textAll us := by
  rw [textAll, List.map_append, String.join_append, textAll, textAll]

/-- The text of a run without the trivia in front of its first token. -/
def trimmedTextAll : List Token → String
  | [] => ""
  | t :: ts => t.text ++ textAll ts

/-- The trivia in front of a run; empty if there is no token. -/
def leadingAll (ts : List Token) : String := (ts.head?.map Token.leading).getD ""

/-- The run with other trivia in front. -/
def releadAll (trivia : String) : List Token → List Token
  | [] => []
  | t :: ts => t.withLeading trivia :: ts

@[simp] theorem length_releadAll (trivia : String) (ts : List Token) :
    (releadAll trivia ts).length = ts.length := by
  cases ts <;> rfl

theorem leadingAll_append_of_ne_nil (h : ts ≠ []) : leadingAll (ts ++ us) = leadingAll ts := by
  cases ts with
  | nil => exact absurd rfl h
  | cons t ts => rfl

theorem textAll_eq_leadingAll_append (ts : List Token) :
    textAll ts = leadingAll ts ++ trimmedTextAll ts := by
  cases ts with
  | nil => rfl
  | cons t ts => rw [textAll_cons, String.append_assoc]; rfl

theorem trimmedTextAll_append_of_ne_nil (h : ts ≠ []) :
    trimmedTextAll (ts ++ us) = trimmedTextAll ts ++ textAll us := by
  cases ts with
  | nil => exact absurd rfl h
  | cons t ts => rw [List.cons_append, trimmedTextAll, textAll_append, trimmedTextAll,
      String.append_assoc]

theorem releadAll_append_of_ne_nil (h : ts ≠ []) (trivia : String) (us : List Token) :
    releadAll trivia (ts ++ us) = releadAll trivia ts ++ us := by
  cases ts with
  | nil => exact absurd rfl h
  | cons t ts => rfl

theorem leadingAll_releadAll (h : ts ≠ []) (trivia : String) :
    leadingAll (releadAll trivia ts) = trivia := by
  cases ts with
  | nil => exact absurd rfl h
  | cons t ts => rfl

theorem textAll_releadAll (h : ts ≠ []) (trivia : String) :
    textAll (releadAll trivia ts) = trivia ++ trimmedTextAll ts := by
  cases ts with
  | nil => exact absurd rfl h
  | cons t ts => rw [releadAll, textAll_cons, String.append_assoc]; rfl

theorem trimmedTextAll_releadAll (trivia : String) (ts : List Token) :
    trimmedTextAll (releadAll trivia ts) = trimmedTextAll ts := by
  cases ts <;> rfl

theorem textAll_releadAll_of_leadingAll_eq (h : ts ≠ []) (hleading : leadingAll ts = "")
    (trivia : String) : textAll (releadAll trivia ts) = trivia ++ textAll ts := by
  rw [textAll_releadAll h, textAll_eq_leadingAll_append ts, hleading, String.empty_append]

end Token

theorem Element.tokensAll_eq_flatMap (es : List Element) :
    Element.tokensAll es = es.flatMap Element.tokens := by
  induction es with
  | nil => rfl
  | cons e es ih => rw [Element.tokensAll_cons, ih, List.flatMap_cons]

/-! ## Views of nodes and elements -/

theorem Node.leadingTrivia_eq (n : Node) : n.leadingTrivia = Token.leadingAll n.tokens := by
  rw [leadingTrivia, firstToken?_eq_head?, Token.leadingAll]

/-- **Trimming.** The leading trivia are the beginning of the text, so the slice behind them begins
at a boundary, and it is the text of the tokens without the trivia of the first one. -/
theorem Node.trimmedText_eq (n : Node) : n.trimmedText = Token.trimmedTextAll n.tokens := by
  have htext : n.text = n.leadingTrivia ++ Token.trimmedTextAll n.tokens := by
    rw [text, Token.textAll_eq_leadingAll_append, leadingTrivia_eq]
  have hslice := Text.slice_append_append n.leadingTrivia (Token.trimmedTextAll n.tokens) ""
  rw [String.append_empty, ← htext, ← String.utf8ByteSize_append, ← htext] at hslice
  rw [trimmedText, hslice]

theorem Node.text_eq (n : Node) : n.text = n.leadingTrivia ++ n.trimmedText := by
  rw [text, Token.textAll_eq_leadingAll_append, leadingTrivia_eq, trimmedText_eq]

theorem Element.trimmedText_eq (e : Element) : e.trimmedText = Token.trimmedTextAll e.tokens := by
  cases e with
  | node n => exact n.trimmedText_eq
  | token t => exact (String.append_empty).symm

theorem Element.leadingTrivia_eq (e : Element) :
    e.leadingTrivia = Token.leadingAll e.tokens := by
  rw [leadingTrivia, firstToken?_eq_head?, Token.leadingAll]

theorem Element.text_eq (e : Element) : e.text = e.leadingTrivia ++ e.trimmedText := by
  rw [text, Token.textAll_eq_leadingAll_append, leadingTrivia_eq, trimmedText_eq]

mutual

/-- **Lengths.** The lengths that are added up level by level are those of the texts. -/
theorem Node.fullLength_eq : ∀ n : Node, n.fullLength = n.text.utf8ByteSize
  | ⟨_, children⟩ => Element.fullLengthAll_eq children
termination_by structural n => n

theorem Element.fullLength_eq : ∀ e : Element, e.fullLength = e.text.utf8ByteSize
  | .node n => Node.fullLength_eq n
  | .token t => by
    rw [Element.fullLength, Token.fullLength, Element.text, Element.tokens_token,
      Token.textAll_cons, Token.textAll_nil, String.append_empty, String.utf8ByteSize_append]
termination_by structural e => e

theorem Element.fullLengthAll_eq : ∀ es : List Element,
    Element.fullLengthAll es = (Token.textAll (Element.tokensAll es)).utf8ByteSize
  | [] => rfl
  | e :: es => by
    rw [Element.fullLengthAll, Element.fullLength_eq e, Element.fullLengthAll_eq es,
      Element.tokensAll_cons, Token.textAll_append, String.utf8ByteSize_append, Element.text]
termination_by structural es => es

end

/-! ## Other trivia -/

theorem Node.isSome_firstToken?_iff {n : Node} : n.firstToken?.isSome = true ↔ n.tokens ≠ [] := by
  rw [Node.firstToken?_eq_head?, List.isSome_head?]

theorem Element.isSome_firstToken?_iff {e : Element} :
    e.firstToken?.isSome = true ↔ e.tokens ≠ [] := by
  rw [Element.firstToken?_eq_head?, List.isSome_head?]

theorem Element.isSome_firstTokenAll?_iff {es : List Element} :
    (Element.firstTokenAll? es).isSome = true ↔ Element.tokensAll es ≠ [] := by
  rw [Element.firstTokenAll?_eq_head?, List.isSome_head?]

theorem Node.withLeadingTrivia_of_tokens_eq_nil {n : Node} (h : n.tokens = []) (s : Stamp)
    (trivia : String) : n.withLeadingTrivia s trivia = n := by
  obtain ⟨head, children⟩ := n
  rw [Node.withLeadingTrivia, if_neg fun hsome ↦ Element.isSome_firstTokenAll?_iff.1 hsome h]

theorem Element.withLeadingTrivia_of_tokens_eq_nil {e : Element} (h : e.tokens = []) (s : Stamp)
    (trivia : String) : e.withLeadingTrivia s trivia = e := by
  cases e with
  | node n => exact congrArg Element.node (n.withLeadingTrivia_of_tokens_eq_nil h s trivia)
  | token t => cases h

mutual

/-- **Other trivia** go to the token that is the first one of the tree's text. -/
theorem Node.tokens_withLeadingTrivia (s : Stamp) (trivia : String) : ∀ n : Node,
    (n.withLeadingTrivia s trivia).tokens = Token.releadAll trivia n.tokens
  | ⟨head, children⟩ => by
    by_cases h : (Element.firstTokenAll? children).isSome = true
    · rw [Node.withLeadingTrivia, if_pos h]
      exact Element.tokensAll_withLeadingTriviaAll s trivia children
    · have hnil : Element.tokensAll children = [] := by
        rwa [Element.isSome_firstTokenAll?_iff, not_not] at h
      rw [Node.withLeadingTrivia, if_neg h, Node.tokens_mk, hnil]
      rfl
termination_by structural n => n

@[simp] theorem Element.tokens_withLeadingTrivia (s : Stamp) (trivia : String) : ∀ e : Element,
    (e.withLeadingTrivia s trivia).tokens = Token.releadAll trivia e.tokens
  | .node n => n.tokens_withLeadingTrivia s trivia
  | .token _ => rfl
termination_by structural e => e

theorem Element.tokensAll_withLeadingTriviaAll (s : Stamp) (trivia : String) :
    ∀ es : List Element, Element.tokensAll (Element.withLeadingTriviaAll s es trivia) =
      Token.releadAll trivia (Element.tokensAll es)
  | [] => rfl
  | e :: es => by
    rw [Element.withLeadingTriviaAll, Element.tokensAll_cons]
    by_cases h : e.firstToken?.isSome = true
    · rw [if_pos h, Element.tokensAll_cons, Element.tokens_withLeadingTrivia s trivia e,
        Token.releadAll_append_of_ne_nil (Element.isSome_firstToken?_iff.1 h)]
    · have hnil : e.tokens = [] := by rwa [Element.isSome_firstToken?_iff, not_not] at h
      rw [if_neg h, Element.tokensAll_cons, hnil, List.nil_append, List.nil_append,
        Element.tokensAll_withLeadingTriviaAll s trivia es]
termination_by structural es => es

end

namespace Element

variable (s : Stamp) (trivia : String) (e : Element)

@[simp] theorem kind_withLeadingTrivia : (e.withLeadingTrivia s trivia).kind = e.kind := by
  cases e with
  | node n =>
    obtain ⟨head, children⟩ := n
    rw [withLeadingTrivia, Node.withLeadingTrivia]
    split
    · rfl
    · rfl
  | token t => rfl

variable {e}

theorem tokens_withLeadingTrivia_ne_nil (he : e.tokens ≠ []) :
    (e.withLeadingTrivia s trivia).tokens ≠ [] := by
  rw [tokens_withLeadingTrivia, ← List.length_pos_iff, Token.length_releadAll]
  exact List.length_pos_iff.2 he

theorem leadingTrivia_withLeadingTrivia (he : e.tokens ≠ []) :
    (e.withLeadingTrivia s trivia).leadingTrivia = trivia := by
  rw [leadingTrivia_eq, tokens_withLeadingTrivia, Token.leadingAll_releadAll he]

theorem text_withLeadingTrivia (he : e.tokens ≠ []) :
    (e.withLeadingTrivia s trivia).text = trivia ++ Token.trimmedTextAll e.tokens := by
  rw [text, tokens_withLeadingTrivia, Token.textAll_releadAll he]

end Element

/-! ## Ranges -/

theorem Node.rangeFrom?_eq_none {id : NodeId} {n : Node} (h : id ∉ n.ids) (start : Nat) :
    n.rangeFrom? id start = none := by
  induction n using Node.induction generalizing start with
  | step head children ih =>
    rw [Node.ids_eq, List.mem_cons, not_or] at h
    rw [Node.rangeFrom?, if_neg fun hid ↦ h.1 hid.symm]
    have hids : ∀ c, Element.node c ∈ children → id ∉ c.ids :=
      fun c hc hid ↦ h.2 (List.mem_flatMap.2 ⟨.node c, hc, hid⟩)
    clear h
    induction children generalizing start with
    | nil => rfl
    | cons e es ihes =>
      have hrest := ihes (fun c hc ↦ ih c (List.mem_cons_of_mem e hc)) (start + e.fullLength)
        fun c hc ↦ hids c (List.mem_cons_of_mem e hc)
      rw [Element.rangeFromAll?, hrest, Option.or_none]
      cases e with
      | node c => exact ih c List.mem_cons_self (hids c List.mem_cons_self) start
      | token t => rfl

theorem Element.rangeFromAll?_append {id : NodeId} {before es : List Element}
    (h : ∀ c, Element.node c ∈ before → id ∉ c.ids) (start : Nat) :
    Element.rangeFromAll? id (before ++ es) start =
      Element.rangeFromAll? id es (start + Element.fullLengthAll before) := by
  induction before generalizing start with
  | nil => rfl
  | cons e before ih =>
    have he : e.rangeFrom? id start = none := by
      cases e with
      | node c => exact Node.rangeFrom?_eq_none (h c List.mem_cons_self) start
      | token t => rfl
    rw [List.cons_append, Element.rangeFromAll?, he, Option.none_or,
      ih fun c hc ↦ h c (List.mem_cons_of_mem e hc), Element.fullLengthAll, Nat.add_assoc]

namespace TreeContext

theorem text_fill (c : TreeContext) (n : Node) :
    (c.fill n).text = Token.textAll c.tokensBefore ++ n.text ++ Token.textAll c.tokensAfter := by
  rw [Node.text, tokens_fill, Token.textAll_append, Token.textAll_append, ← Node.text]

/-- **Ranges.** A node begins behind the text in front of it and its own leading trivia. -/
theorem rangeFrom?_fill {c : TreeContext} {n : Node} (h : n.id ∉ c.idsBefore) (start : Nat) :
    (c.fill n).rangeFrom? n.id start =
      some (start + (Token.textAll c.tokensBefore).utf8ByteSize + n.leadingTrivia.utf8ByteSize,
        start + (Token.textAll c.tokensBefore).utf8ByteSize + n.text.utf8ByteSize) := by
  induction c generalizing start with
  | hole =>
    obtain ⟨head, children⟩ := n
    have hid : head.id = (Node.mk head children).id := rfl
    rw [fill_hole, Node.rangeFrom?, if_pos hid, tokensBefore, Token.textAll_nil,
      ← Node.fullLength_eq]
    rfl
  | child head before inner after ih =>
    rw [idsBefore, List.mem_append, List.mem_cons, not_or, not_or] at h
    obtain ⟨⟨hhead, hbefore⟩, hinner⟩ := h
    rw [fill_child, Node.rangeFrom?, if_neg fun hid ↦ hhead hid.symm,
      Element.rangeFromAll?_append fun k hk hid ↦
        hbefore (List.mem_flatMap.2 ⟨.node k, hk, hid⟩),
      Element.rangeFromAll?, Element.rangeFrom?, ih hinner, Option.some_or, tokensBefore,
      Token.textAll_append, String.utf8ByteSize_append, Element.fullLengthAll_eq]
    simp only [Nat.add_assoc]

theorem textRange?_fill {c : TreeContext} {n : Node} (h : n.id ∉ c.idsBefore) :
    (c.fill n).textRange? n.id =
      some ((Token.textAll c.tokensBefore).utf8ByteSize + n.leadingTrivia.utf8ByteSize,
        (Token.textAll c.tokensBefore).utf8ByteSize + n.text.utf8ByteSize) := by
  rw [Node.textRange?, rangeFrom?_fill h, Nat.zero_add]

end TreeContext

end CodeFix
