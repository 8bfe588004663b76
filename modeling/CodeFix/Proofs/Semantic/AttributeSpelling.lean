import CodeFix.Proofs.Fix.Offer
import CodeFix.Proofs.Semantic.TypeIndex
import CodeFix.Proofs.Syntax.Text
import CodeFix.Proofs.Text.Basic
import CodeFix.Proofs.Text.Spaced

/-!
# Spellings of an attribute

The name of an attribute is read as one text, with the trivia between its tokens, and what is
compared is the part of that text behind the last dot. Trivia in front of that dot are cut off with
it and do no harm. Trivia behind it are taken for a part of the name, so the tokens there must
follow one another without any (`Element.Writes`); and a name that an alias qualifies, with no dot
behind the colons, keeps its alias.

The tokens behind the last dot (`Token.lastRun`) are the end of the name in both readings, with and
without trivia, and what stands in front of them is the same in both.
-/

namespace CodeFix

/-! ## The tokens behind the last dot -/

namespace Token

/-- The texts of some tokens, without any trivia. -/
def spelledAll (ts : List Token) : String := String.join (ts.map Token.text)

/-- The tokens behind the last one with a dot in it; if there is none, all but the first. -/
def lastRun (ts : List Token) : List Token :=
  (ts.tail.reverse.takeWhile fun t ↦ !t.text.toList.contains '.').reverse

variable {ts : List Token} {t : Token}

@[simp] theorem spelledAll_nil : spelledAll [] = "" := String.join_nil

@[simp] theorem spelledAll_cons (t : Token) (ts : List Token) :
    spelledAll (t :: ts) = t.text ++ spelledAll ts := by
  rw [spelledAll, List.map_cons, String.join_cons, spelledAll]

@[simp] theorem spelledAll_append (ts us : List Token) :
    spelledAll (ts ++ us) = spelledAll ts ++ spelledAll us := by
  rw [spelledAll, List.map_append, String.join_append, spelledAll, spelledAll]

theorem textAll_eq_spelledAll (h : ∀ t ∈ ts, t.leading = "") : textAll ts = spelledAll ts := by
  induction ts with
  | nil => rw [textAll_nil, spelledAll_nil]
  | cons t ts ih =>
    rw [textAll_cons, spelledAll_cons, h t List.mem_cons_self, String.empty_append,
      ih fun u hu ↦ h u (List.mem_cons_of_mem t hu)]

theorem mem_textAll_of_mem_leading {c : Char} (ht : t ∈ ts) (hc : c ∈ t.leading.toList) :
    c ∈ (textAll ts).toList := by
  obtain ⟨before, after, rfl⟩ := List.append_of_mem ht
  rw [textAll_append, textAll_cons]
  simp [hc]

theorem not_mem_spelledAll {c : Char} (h : ∀ t ∈ ts, c ∉ t.text.toList) :
    c ∉ (spelledAll ts).toList := by
  induction ts with
  | nil => simp
  | cons t ts ih =>
    rw [spelledAll_cons, String.toList_append, List.mem_append, not_or]
    exact ⟨h t List.mem_cons_self, ih fun u hu ↦ h u (List.mem_cons_of_mem t hu)⟩

theorem not_mem_textAll {c : Char} (hleading : ∀ t ∈ ts, c ∉ t.leading.toList)
    (htext : ∀ t ∈ ts, c ∉ t.text.toList) : c ∉ (textAll ts).toList := by
  induction ts with
  | nil => simp
  | cons t ts ih =>
    rw [textAll_cons, String.toList_append, String.toList_append, List.mem_append, List.mem_append,
      not_or, not_or]
    exact ⟨⟨hleading t List.mem_cons_self, htext t List.mem_cons_self⟩,
      ih (fun u hu ↦ hleading u (List.mem_cons_of_mem t hu))
        fun u hu ↦ htext u (List.mem_cons_of_mem t hu)⟩

/-- In front of the run behind the last dot stands the first token alone, or a token with a dot. -/
theorem exists_append_lastRun (t : Token) (ts : List Token) :
    ∃ front, t :: ts = front ++ lastRun (t :: ts) ∧
      (∀ u ∈ lastRun (t :: ts), '.' ∉ u.text.toList) ∧
      (front = [t] ∨ ∃ init u, init ≠ [] ∧ front = init ++ [u] ∧ '.' ∈ u.text.toList) := by
  rw [lastRun, List.tail_cons]
  rcases takeWhile_reverse_cases (fun u : Token ↦ !u.text.toList.contains '.') ts with
    ⟨hall, htake⟩ | ⟨before, x, after, rfl, hx, hafter, htake⟩
  · rw [htake, List.reverse_reverse]
    exact ⟨[t], rfl, fun u hu ↦ by simpa using hall u hu, Or.inl rfl⟩
  · rw [htake, List.reverse_reverse]
    refine ⟨t :: before ++ [x], by simp, fun u hu ↦ by simpa using hafter u hu, Or.inr ?_⟩
    exact ⟨t :: before, x, List.cons_ne_nil _ _, rfl, by simpa using hx⟩

/-- In front of that run trivia make no difference to the last segment. -/
theorem lastSegment_front {front : List Token}
    (h : front = [t] ∨ ∃ init u, init ≠ [] ∧ front = init ++ [u] ∧ '.' ∈ u.text.toList) :
    Text.lastSegment '.' (trimmedTextAll front) = Text.lastSegment '.' (spelledAll front) := by
  rcases h with rfl | ⟨init, u, hinit, rfl, hu⟩
  · rw [trimmedTextAll, textAll_nil, spelledAll_cons, spelledAll_nil]
  · rw [trimmedTextAll_append_of_ne_nil hinit, spelledAll_append, textAll_cons, textAll_nil,
      spelledAll_cons, spelledAll_nil, String.append_empty, String.append_empty,
      ← String.append_assoc, Text.lastSegment_append_of_mem _ hu,
      Text.lastSegment_append_of_mem _ hu]

/-- Both readings end in the run behind the last dot. -/
theorem exists_lastSegment (ts : List Token) :
    ∃ start, Text.lastSegment '.' (spelledAll ts) = start ++ spelledAll (lastRun ts) ∧
      ((∀ u ∈ lastRun ts, '.' ∉ u.leading.toList) →
        Text.lastSegment '.' (trimmedTextAll ts) = start ++ textAll (lastRun ts)) := by
  cases ts with
  | nil => exact ⟨"", by decide, fun _ ↦ by decide⟩
  | cons t ts =>
    obtain ⟨front, hsplit, htext, hfront⟩ := exists_append_lastRun t ts
    have hne : front ≠ [] := by
      rcases hfront with rfl | ⟨init, u, -, rfl, -⟩ <;> simp
    refine ⟨Text.lastSegment '.' (spelledAll front), ?_, fun hleading ↦ ?_⟩
    · conv_lhs => rw [hsplit]
      rw [spelledAll_append, Text.lastSegment_append_of_not_mem _ (not_mem_spelledAll htext)]
    · conv_lhs => rw [hsplit]
      rw [trimmedTextAll_append_of_ne_nil hne,
        Text.lastSegment_append_of_not_mem _ (not_mem_textAll hleading htext),
        lastSegment_front hfront]

end Token

/-! ## Names that are recognised -/

/-- The name of an attribute on the declaration. -/
def Node.AttributeName (n : Node) (e : Element) : Prop :=
  ∃ item ∈ n.attributeItems, item.children.head? = some e

theorem Node.hasAttribute_iff {n : Node} {short : String} :
    n.HasAttribute short ↔ ∃ e, n.AttributeName e ∧
      (Text.lastSegment '.' e.trimmedText = short ∨
        Text.lastSegment '.' e.trimmedText = short ++ attributeSuffix) := by
  constructor
  · rintro ⟨spelled, hspelled, hlast⟩
    obtain ⟨item, hitem, hhead⟩ := List.mem_filterMap.1 hspelled
    obtain ⟨e, he, rfl⟩ := Option.map_eq_some_iff.1 hhead
    exact ⟨e, ⟨item, hitem, he⟩, hlast⟩
  · rintro ⟨e, ⟨item, hitem, he⟩, hlast⟩
    exact ⟨_, List.mem_filterMap.2 ⟨item, hitem, by rw [he]; rfl⟩, hlast⟩

namespace Element

/-- The text of an element's tokens, without any trivia. -/
def spelled (e : Element) : String := Token.spelledAll e.tokens

/-- The element spells a name with this last segment, possibly with the conventional suffix, and no
trivia stand behind the last dot. -/
structure Writes (e : Element) (short : String) : Prop where
  name : Text.lastSegment '.' e.spelled = short ∨
    Text.lastSegment '.' e.spelled = short ++ attributeSuffix
  tight : ∀ t ∈ Token.lastRun e.tokens, t.leading = ""

variable {e : Element} {short : String}

theorem lastSegment_trimmedText (h : ∀ t ∈ Token.lastRun e.tokens, t.leading = "") :
    Text.lastSegment '.' e.trimmedText = Text.lastSegment '.' e.spelled := by
  obtain ⟨start, hspelled, htrimmed⟩ := Token.exists_lastSegment e.tokens
  rw [trimmedText_eq, spelled, hspelled, htrimmed fun t ht ↦ by rw [h t ht]; exact List.not_mem_nil,
    Token.textAll_eq_spelledAll h]

theorem tight_of_blank (hblank : ∀ t ∈ Token.lastRun e.tokens, Text.Blank t.leading.toList)
    (hlast : ∀ c ∈ (Text.lastSegment '.' e.trimmedText).toList, Text.isBlank c = false) :
    ∀ t ∈ Token.lastRun e.tokens, t.leading = "" := by
  obtain ⟨start, -, htrimmed⟩ := Token.exists_lastSegment e.tokens
  rw [trimmedText_eq, htrimmed fun t ht ↦ (hblank t ht).not_mem rfl] at hlast
  intro t ht
  rw [← String.toList_eq_nil_iff, List.eq_nil_iff_forall_not_mem]
  intro c hc
  have hnot := hlast c (by
    rw [String.toList_append, List.mem_append]
    exact Or.inr (Token.mem_textAll_of_mem_leading ht hc))
  rw [hblank t ht c hc] at hnot
  cases hnot

/-- With blanks alone between its tokens, a name is recognised exactly if it writes the attribute.
-/
theorem writes_iff (hblank : ∀ t ∈ Token.lastRun e.tokens, Text.Blank t.leading.toList)
    (hshort : Text.Solid short.toList) :
    e.Writes short ↔ Text.lastSegment '.' e.trimmedText = short ∨
      Text.lastSegment '.' e.trimmedText = short ++ attributeSuffix := by
  constructor
  · rintro ⟨hname, htight⟩
    rw [lastSegment_trimmedText htight]
    exact hname
  · intro hname
    have hsuffix : Text.Solid attributeSuffix.toList := by decide
    have hlast : ∀ c ∈ (Text.lastSegment '.' e.trimmedText).toList, Text.isBlank c = false := by
      rcases hname with hname | hname
      · rw [hname]
        exact hshort.2
      · rw [hname, String.toList_append]
        exact List.forall_mem_append.2 ⟨hshort.2, hsuffix.2⟩
    have htight := tight_of_blank hblank hlast
    refine ⟨?_, htight⟩
    rw [← lastSegment_trimmedText htight]
    exact hname

private theorem append_ne_of_not_suffix {x y z : String} (h : ¬ y.toList <:+ z.toList) :
    x ++ y ≠ z := by
  rintro rfl
  exact h ⟨x.toList, by rw [String.toList_append]⟩

private theorem append_eq_right_iff {x y : String} : x ++ y = y ↔ x = "" := by
  rw [← String.toList_inj, String.toList_append, List.append_left_eq_self, String.toList_eq_nil_iff]

/-- Of the names that end in the attribute's, those are written with it that have a dot in front of
that end, or nothing. -/
theorem writes_serializable_iff {qualifier last : String}
    (hlast : last = "Serializable" ∨ last = "SerializableAttribute")
    (he : e.spelled = qualifier ++ last) :
    e.Writes "Serializable" ↔ (qualifier = "" ∨ ∃ outer, qualifier = outer ++ ".") ∧
      ∀ t ∈ Token.lastRun e.tokens, t.leading = "" := by
  have hdot : '.' ∉ last.toList := by
    rcases hlast with rfl | rfl <;> decide
  have hname : (Text.lastSegment '.' e.spelled = "Serializable" ∨
      Text.lastSegment '.' e.spelled = "Serializable" ++ attributeSuffix) ↔
      Text.lastSegment '.' qualifier = "" := by
    rw [he, Text.lastSegment_append_of_not_mem qualifier hdot, ← append_eq_right_iff (y := last)]
    rcases hlast with rfl | rfl
    · exact or_iff_left (append_ne_of_not_suffix (by decide))
    · exact or_iff_right (append_ne_of_not_suffix (by decide))
  rw [Text.lastSegment_eq_empty_iff] at hname
  exact ⟨fun h ↦ ⟨hname.1 h.name, h.tight⟩, fun h ↦ ⟨hname.2 h.1, h.2⟩⟩

end Element

/-! ## Types that are marked already -/

namespace Serialization

variable {preference : NameStylePreference} {extract : FieldExtractor} {ctx : FixContext}
  {d : Document} {field : Node} {s s' : FixState} {a : CodeAction} {actions : List CodeAction}

theorem title_of_excludeFieldAction (h : excludeFieldAction preference ctx d field s = .ok a s') :
    a.title = excludeField.title := by
  obtain ⟨-, cls, new, u, v, -, rfl⟩ := exists_of_excludeFieldAction h
  rfl

theorem typeToMark?_of_hasAttribute {type : Symbol}
    (htype : (ctx.semantic.declaredSymbol ctx.node).bind ctx.semantic.fieldType = some type)
    (hattribute : type.hasAttribute "Serializable" = true) : typeToMark? ctx = none := by
  obtain ⟨symbol, hsymbol, hfield⟩ := Option.bind_eq_some_iff.1 htype
  rw [typeToMark?, hsymbol, Option.bind_eq_bind, Option.bind_some, hfield, Option.bind_some,
    hattribute, Bool.not_true, Bool.and_false]
  rfl

theorem title_of_mem_fixes {type : Symbol}
    (htype : (ctx.semantic.declaredSymbol ctx.node).bind ctx.semantic.fieldType = some type)
    (hattribute : type.hasAttribute "Serializable" = true)
    (h : fixes preference extract ctx s = .ok actions s') (ha : a ∈ actions) :
    a.title = excludeField.title := by
  rcases exists_candidate_of_mem_fixes h ha with ⟨d, field, s₁, s₂, -, hfirst⟩ | ⟨s₁, s₂, hsecond⟩
  · exact title_of_excludeFieldAction hfirst
  · have href : referenceToMark? ctx = none := by
      rw [referenceToMark?, typeToMark?_of_hasAttribute htype hattribute]
      rfl
    cases (markTypeAction?_of_none preference href s₁).symm.trans hsecond

end Serialization

namespace Solution

variable {s : Solution} {name : String} {e : Element}

/-- The name of an attribute on some declaration of the type. -/
def AttributedBy (s : Solution) (name : String) (e : Element) : Prop :=
  ∃ d ∈ s.documents, ∃ n ∈ d.root.preorder, n.DeclaresType name ∧ n.AttributeName e

theorem typeSymbol_hasAttribute_iff {short : String} :
    (s.typeSymbol name).hasAttribute short = true ↔ ∃ e, s.AttributedBy name e ∧
      (Text.lastSegment '.' e.trimmedText = short ∨
        Text.lastSegment '.' e.trimmedText = short ++ attributeSuffix) := by
  by_cases hds : s.declarationsOf name = []
  · refine iff_of_false ?_ ?_
    · rw [typeSymbol, hds]
      exact Bool.false_ne_true
    · rintro ⟨e, ⟨d, hd, n, hn, hdeclares, -⟩, -⟩
      exact absurd hds (declarationsOf_ne_nil_iff.2 ⟨d, hd, n, hn, hdeclares⟩)
  · rw [← not_iff_not, Bool.not_eq_true, typeSymbol_hasAttribute_eq_false_iff hds]
    constructor
    · rintro hnone ⟨e, ⟨d, hd, n, hn, hdeclares, he⟩, hlast⟩
      exact hnone d hd n hn hdeclares (Node.hasAttribute_iff.2 ⟨e, he, hlast⟩)
    · intro hnone d hd n hn hdeclares hattribute
      obtain ⟨e, he, hlast⟩ := Node.hasAttribute_iff.1 hattribute
      exact hnone ⟨e, ⟨d, hd, n, hn, hdeclares, he⟩, hlast⟩

/-- **Spellings that are recognised.** A type whose declarations write the attribute, with no trivia
behind the last dot of its name, has it, whatever trivia stand elsewhere, and no fix adds it again.
If nothing but blanks stands behind the last dots, a type has it only then. A name that ends in the
attribute's is written in this way exactly if a dot stands in front of that end, or nothing, and the
tokens behind the dot have no trivia. So an alias alone in front of the name, or a blank behind the
dot, makes it another name. -/
theorem spellings_recognised (s : Solution) (name : String) :
    (∀ e, s.AttributedBy name e → e.Writes "Serializable" →
      (s.typeSymbol name).hasAttribute "Serializable" = true ∧
      ∀ preference extract ctx st actions st',
        (ctx.semantic.declaredSymbol ctx.node).bind ctx.semantic.fieldType =
          some (s.typeSymbol name) →
        Serialization.fixes preference extract ctx st = .ok actions st' →
        ∀ a ∈ actions, a.title = Serialization.excludeField.title) ∧
    ((∀ e, s.AttributedBy name e → ∀ t ∈ Token.lastRun e.tokens, Text.Blank t.leading.toList) →
      (s.typeSymbol name).hasAttribute "Serializable" = true →
      ∃ e, s.AttributedBy name e ∧ e.Writes "Serializable") ∧
    ∀ (e : Element) (qualifier last : String),
      (last = "Serializable" ∨ last = "SerializableAttribute") → e.spelled = qualifier ++ last →
      (e.Writes "Serializable" ↔ (qualifier = "" ∨ ∃ outer, qualifier = outer ++ ".") ∧
        ∀ t ∈ Token.lastRun e.tokens, t.leading = "") := by
  refine ⟨fun e he hwrites ↦ ?_, fun hblank hattribute ↦ ?_,
    fun e qualifier last hlast hspelled ↦ Element.writes_serializable_iff hlast hspelled⟩
  · have hattribute : (s.typeSymbol name).hasAttribute "Serializable" = true := by
      refine typeSymbol_hasAttribute_iff.2 ⟨e, he, ?_⟩
      rw [Element.lastSegment_trimmedText hwrites.tight]
      exact hwrites.name
    exact ⟨hattribute, fun preference extract ctx st actions st' htype hfixes a ha ↦
      Serialization.title_of_mem_fixes htype hattribute hfixes ha⟩
  · obtain ⟨e, he, hlast⟩ := typeSymbol_hasAttribute_iff.1 hattribute
    exact ⟨e, he, (Element.writes_iff (hblank e he) (by decide)).2 hlast⟩

/-! ### A class with an attribute -/

private def attributedType (name : Element) : Node :=
  ⟨Holder.type.head, .node ⟨⟨⟨10⟩, ⟨10, []⟩, Kind.attributeList, false⟩,
    [.token ⟨"[", "", "["⟩, .node ⟨⟨⟨11⟩, ⟨11, []⟩, Kind.attributeItem, false⟩, [name]⟩,
      .token ⟨"]", "", "]"⟩]⟩ :: Holder.type.children⟩

private def attributedDocument (name : Element) : Document :=
  { Holder.document with
    root := ⟨Holder.document.root.head,
      .node (attributedType name) :: Holder.document.root.children.tail⟩ }

private def attributedSolution (name : Element) : Solution :=
  Solution.empty.withProject
    ((Project.create "Holder" ⟨0⟩).1.withDocument (attributedDocument name) rfl)

private def attributedContext (name : Element) : FixContext :=
  { Holder.context with
    solution := attributedSolution name
    semantic := (attributedSolution name).semanticModel }

/-- `System.Serializable` with trivia in front of its last two tokens. -/
private def dottedName (beforeDot behindDot : String) : Element :=
  .node ⟨⟨⟨12⟩, ⟨12, []⟩, Kind.qualifiedName, false⟩,
    [.token ⟨Kind.identifier, "", "System"⟩, .token ⟨".", beforeDot, "."⟩,
      .token ⟨Kind.identifier, behindDot, "Serializable"⟩]⟩

/-- `global::Serializable`. -/
private def aliasedName : Element :=
  .node ⟨⟨⟨12⟩, ⟨12, []⟩, "alias_qualified_name", false⟩,
    [.token ⟨Kind.identifier, "", "global"⟩, .token ⟨"::", "", "::"⟩,
      .token ⟨Kind.identifier, "", "Serializable"⟩]⟩

private theorem attributedBy_attributedSolution (name : Element) :
    (attributedSolution name).AttributedBy "Foo" name := by
  refine ⟨attributedDocument name, List.mem_singleton_self _, attributedType name,
    Node.mem_preorder_iff.2 (Or.inr ⟨_, List.mem_cons_self, Node.mem_preorder_self _⟩),
    ⟨rfl, rfl⟩, ⟨⟨⟨11⟩, ⟨11, []⟩, Kind.attributeItem, false⟩, [name]⟩, ?_, rfl⟩
  exact List.mem_singleton_self _

/-- Blanks in front of the dot do no harm. -/
theorem spellings_recognised_before_dot :
    ((attributedSolution (dottedName "\n" "")).typeSymbol "Foo").hasAttribute "Serializable" =
      true := by
  obtain ⟨hrecognised, -, hwrites⟩ :=
    spellings_recognised (attributedSolution (dottedName "\n" "")) "Foo"
  have hname : (dottedName "\n" "").Writes "Serializable" :=
    (hwrites _ "System." "Serializable" (Or.inl rfl) (by decide)).2
      ⟨Or.inr ⟨"System", rfl⟩, by decide⟩
  exact (hrecognised _ (attributedBy_attributedSolution _) hname).1

/-- A blank behind the dot, or an alias alone in front of the name, and the attribute is missed; so
it is offered again. -/
theorem spellings_missed :
    ((dottedName "" " ").spelled = "System.Serializable" ∧
      (attributedSolution (dottedName "" " ")).AttributedBy "Foo" (dottedName "" " ") ∧
      ((attributedSolution (dottedName "" " ")).typeSymbol "Foo").hasAttribute "Serializable" =
        false ∧
      ∃ a b s', Serialization.fixes .auto enclosingField (attributedContext (dottedName "" " "))
        ⟨⟨100⟩, false⟩ = .ok [a, b] s' ∧ b.title = Serialization.markType.title) ∧
    (aliasedName.spelled = "global::Serializable" ∧
      (attributedSolution aliasedName).AttributedBy "Foo" aliasedName ∧
      ((attributedSolution aliasedName).typeSymbol "Foo").hasAttribute "Serializable" = false) := by
  refine ⟨⟨by decide, attributedBy_attributedSolution _, by decide +kernel, ?_⟩, by decide,
    attributedBy_attributedSolution _, by decide +kernel⟩
  have hdistinct : (attributedContext (dottedName "" " ")).solution.Distinct := by decide
  have hdocument : attributedDocument (dottedName "" " ") ∈
      (attributedContext (dottedName "" " ")).solution.documents := by decide
  have hfield : Holder.field ∈ (attributedDocument (dottedName "" " ")).root.preorder := by decide
  have htype : attributedType (dottedName "" " ") ∈
      (attributedDocument (dottedName "" " ")).root.preorder := by decide
  have hreference : Serialization.referenceToMark? (attributedContext (dottedName "" " ")) =
      some ⟨Holder.document.id, attributedType (dottedName "" " ")⟩ := by decide +kernel
  obtain ⟨a, v, hfirst, -⟩ := Serialization.excludeFieldAction_of_class .auto hdocument hfield rfl
    rfl ⟨⟨100⟩, false⟩
  obtain ⟨b, w, hsecond, hmade⟩ := Serialization.markTypeAction?_of_class .auto hdistinct rfl
    hreference hdocument htype rfl (by decide) rfl (s := ⟨v, false⟩) rfl
  exact ⟨a, b, _, Serialization.fixes_of_candidates rfl rfl (by decide) hfirst hsecond,
    hmade.title_eq⟩

end Solution

end CodeFix
