import CodeFix.Proofs.Attribute.Text
import CodeFix.Proofs.Fix.Revision

/-!
# Declarations that share a line

Behind the first list of a declaration layout puts one space if the declaration shares its line with
what stands before it, and a line break otherwise. Which of the two it is is read off the trivia in
front of the declaration, and nothing in front of these is looked at. So a declaration that follows
a brace directly, without a blank, counts as one that begins a line, like the first one of a file:
its list is followed by a line break, and the declaration stands on a line of its own then.
-/

namespace CodeFix

/-- Adds an attribute to a declaration of the document and lays the document out. -/
def Document.addAttribute (d : Document) (declaration : Node) (cls : AttributeClass)
    (style : NameStyle) : EditM Document := do
  let updated ← addAttributes declaration [cls] style
  let edited ← d.replaceNode declaration.id updated
  edited.layout

/-- The number of line feeds in a text. -/
def lineBreaks (s : String) : Nat := s.toList.count '\n'

variable {d d' : Document} {n list new : Node} {leading name separator before behind text : String}
  {u v : Supply}

@[simp] theorem lineBreaks_append (s t : String) :
    lineBreaks (s ++ t) = lineBreaks s + lineBreaks t := by
  rw [lineBreaks, String.toList_append, List.count_append]
  rfl

@[simp] theorem lineBreaks_newline (newline : Newline) : lineBreaks newline.text = 1 := by
  cases newline <;> decide

/-! ## The separator -/

/-- Without a line break in the trivia the separator is a space, or a line break if there are none.
-/
theorem separatorFor_of_not_mem (h : '\n' ∉ leading.toList) (newline : Newline) :
    separatorFor leading newline = if leading = "" then newline.text else " " := by
  rw [separatorFor]
  by_cases hempty : leading = ""
  · subst hempty
    rw [if_pos rfl]
    exact String.append_empty
  · have hsome : leading.toList.isEmpty = false := by simpa using hempty
    have hnone : leading.toList.contains '\n' = false := by simpa using h
    rw [hsome, hnone, if_neg hempty]
    rfl

theorem Node.TextWithList.eq_of_no_list (h : n.TextWithList name separator text)
    (hnone : ∀ e ∈ n.children, e.kind ≠ Kind.attributeList) :
    text = n.leadingTrivia ++ ("[" ++ name ++ "]") ++ separator ++ n.trimmedText := by
  cases h with
  | front => rfl
  | behind hchildren hlast =>
    refine absurd hlast (hnone _ ?_)
    rw [hchildren]
    exact List.mem_append_right _ List.mem_cons_self

/-! ## The document -/

/-- A later version of a document that differs from it in one list and a separator, which stand
between the leading trivia and the first token of a node. -/
structure Document.FirstList (d d' : Document) (n : Node) (name separator before behind : String) :
    Prop where
  text_eq : d.text = before ++ n.text ++ behind
  range_eq : d.root.textRange? n.id = some (before.utf8ByteSize + n.leadingTrivia.utf8ByteSize,
    before.utf8ByteSize + n.text.utf8ByteSize)
  id_eq : d'.id = d.id
  text_later_eq : d'.text =
    before ++ n.leadingTrivia ++ ("[" ++ name ++ "]") ++ separator ++ n.trimmedText ++ behind

theorem Document.FirstList.lineBreaks_eq (h : d.FirstList d' n name separator before behind) :
    lineBreaks d'.text = lineBreaks d.text + lineBreaks name + lineBreaks separator := by
  have hopen : lineBreaks "[" = 0 := by decide
  have hclose : lineBreaks "]" = 0 := by decide
  rw [h.text_later_eq, h.text_eq, n.text_eq]
  simp only [lineBreaks_append, hopen, hclose]
  omega

section Document

variable (hids : d.root.ids.Nodup) (hn : n ∈ d.root.preorder)
  (hkind : Kind.isAttributable n.kind = true)
include hids hn hkind

theorem Document.addAttribute_eq (cls : AttributeClass) (style : NameStyle) (u : Supply) :
    ∃ c list new v, d.root = TreeContext.fill c n ∧ n.id ∉ c.idsBefore ∧
      n.Extended list new (style.render cls) u v ∧
      d.addAttribute n cls style u = .ok (d.revision c new v) ⟨v.next + 2⟩ := by
  obtain ⟨c, hroot⟩ := TreeContext.exists_fill_of_mem hn
  have hid : n.id ∉ c.idsBefore := TreeContext.id_not_mem_idsBefore (hroot ▸ hids)
  obtain ⟨list, new, v, hrun, hextended⟩ := addAttributes_extended hkind cls style u
  refine ⟨c, list, new, v, hroot, hid, hextended, ?_⟩
  rw [addAttribute, bind_of_ok hrun, replaceNode, hroot, bind_of_ok (d.replaceIn_fill hid new v)]
  exact Supply.liftM_of_eq (d.layout_of_marked hextended.marked v)

variable (hmark : ∀ m ∈ d.root.preorder, m.marked = false)
  (hchildren : ∀ m ∈ d.root.preorder, m.children ≠ [])
include hmark hchildren

/-- **Declarations without a line break in front.** The list and what separates it from the
declaration are all that is added. The separator is one space, unless nothing at all stands between
the declaration and the token in front of it: then it is a line break, the only one that is
added. -/
theorem Document.addAttribute_shared_line (hnone : ∀ e ∈ n.children, e.kind ≠ Kind.attributeList)
    (hline : '\n' ∉ n.leadingTrivia.toList) (cls : AttributeClass) (style : NameStyle)
    (u : Supply) :
    ∃ d' v before behind newline, d.addAttribute n cls style u = .ok d' v ∧
      newline = Newline.detect (before ++ n.leadingTrivia ++ ("[" ++ style.render cls ++ "]") ++
        n.trimmedText ++ behind) ∧
      d.FirstList d' n (style.render cls) (if n.leadingTrivia = "" then newline.text else " ")
        before behind ∧
      lineBreaks d'.text = lineBreaks d.text + lineBreaks (style.render cls) +
        if n.leadingTrivia = "" then 1 else 0 := by
  obtain ⟨c, list, new, v, hroot, hid, hextended, hrun⟩ :=
    addAttribute_eq hids hn hkind cls style u
  have hinner : ∀ m ∈ n.preorder, m.children ≠ [] :=
    fun m hm ↦ hchildren m (Node.mem_preorder_trans hm hn)
  have hunmarked := TreeContext.unmarked_of_fill (hroot ▸ hmark)
  -- the line break is that of the text with the list, before the separator is there
  have hplain : new.text =
      n.leadingTrivia ++ ("[" ++ style.render cls ++ "]") ++ n.trimmedText := by
    rw [(hextended.annotated.textWithList hinner).eq_of_no_list hnone, String.append_empty]
  have hlaidOut := fun newline ↦
    (hextended.annotated.textWithList_laidOut hinner hunmarked.2 newline).eq_of_no_list hnone
  have hfirst : d.FirstList (d.revision c new v) n (style.render cls)
      (separatorFor n.leadingTrivia (Newline.detect (c.fill new).text))
      (Token.textAll c.tokensBefore) (Token.textAll c.tokensAfter) := by
    refine ⟨by rw [text, hroot, c.text_fill], by rw [hroot, TreeContext.textRange?_fill hid], rfl,
      ?_⟩
    rw [d.text_revision hunmarked.1, hlaidOut]
    simp only [String.append_assoc]
  have hbreaks := hfirst.lineBreaks_eq
  rw [separatorFor_of_not_mem hline] at hfirst hbreaks
  refine ⟨_, _, _, _, _, hrun, ?_, hfirst, ?_⟩
  · rw [c.text_fill, hplain]
    simp only [String.append_assoc]
  · rw [hbreaks]
    split
    · rw [lineBreaks_newline]
    · rfl

end Document

/-! ### A class on one line -/

namespace OneLine

private def unmarked (id : Nat) (kind : String) (children : List Element) : Node :=
  ⟨⟨⟨id⟩, ⟨id, []⟩, kind, false⟩, children⟩

/-- The field `int x;` with what stands between it and the brace in front. -/
def field (leading : String) : Node :=
  unmarked 2 Kind.fieldDeclaration
    [.token ⟨"int", leading, "int"⟩,
      .node (unmarked 3 Kind.variableDeclarator [.token ⟨Kind.identifier, " ", "x"⟩]),
      .token ⟨";", "", ";"⟩]

/-- What stands around the field. -/
def surroundings : TreeContext :=
  .child ⟨⟨0⟩, ⟨0, []⟩, Kind.compilationUnit, false⟩ []
    (.child ⟨⟨1⟩, ⟨1, []⟩, Kind.classDeclaration, false⟩
      [.token ⟨"class", "", "class"⟩, .token ⟨Kind.identifier, " ", "Foo"⟩,
        .token ⟨"\x7b", " ", "\x7b"⟩] .hole [.token ⟨"\x7d", " ", "\x7d"⟩]) []

/-- A class with the field, all on one line. -/
def document (leading : String) : Document :=
  ⟨⟨0⟩, ⟨0⟩, ⟨"Foo.cs"⟩, surroundings.fill (field leading), 0⟩

end OneLine

open OneLine in
/-- With a blank behind the brace the field stays on the line. -/
theorem Document.addAttribute_shared_line_blank :
    ∃ d' v before behind, (OneLine.document " ").addAttribute (field " ")
        (.wellKnown .nonSerialized) .simple ⟨100⟩ = .ok d' v ∧
      (OneLine.document " ").FirstList d' (field " ") "NonSerialized" " " before behind ∧
      lineBreaks d'.text = 0 := by
  obtain ⟨d', v, before, behind, newline, hrun, -, hfirst, hbreaks⟩ :=
    addAttribute_shared_line (d := OneLine.document " ") (n := field " ") (by decide) (by decide)
      (by decide) (by decide) (by decide) (by decide) (by decide) (.wellKnown .nonSerialized)
      .simple ⟨100⟩
  rw [if_neg (by decide)] at hfirst hbreaks
  exact ⟨d', v, before, behind, hrun, hfirst, hbreaks.trans (by decide)⟩

open OneLine in
/-- **A shared line that is broken.** The field stands directly behind the brace, all of it on one
line, and is on the next line afterwards. -/
theorem Document.addAttribute_shared_line_breaks :
    (OneLine.document "").root.ids.Nodup ∧
      (∀ m ∈ (OneLine.document "").root.preorder, m.marked = false ∧ m.children ≠ []) ∧
      (OneLine.document "").root = surroundings.fill (field "") ∧
      surroundings.tokensBefore.getLast? = some ⟨"\x7b", " ", "\x7b"⟩ ∧
      Kind.isAttributable (field "").kind = true ∧
      (∀ e ∈ (field "").children, e.kind ≠ Kind.attributeList) ∧
      '\n' ∉ (field "").leadingTrivia.toList ∧
      (OneLine.document "").text = "class Foo \x7bint x; \x7d" ∧
      ∃ d' v, (OneLine.document "").addAttribute (field "") (.wellKnown .nonSerialized) .simple
          ⟨100⟩ = .ok d' v ∧
        d'.text = "class Foo \x7b[NonSerialized]\nint x; \x7d" ∧
        lineBreaks (OneLine.document "").text < lineBreaks d'.text := by
  refine ⟨by decide, by decide, rfl, by decide, by decide, by decide, by decide, by decide, ?_⟩
  have htext : (match (OneLine.document "").addAttribute (field "") (.wellKnown .nonSerialized)
      .simple ⟨100⟩ with
      | .ok d' _ => d'.text == "class Foo \x7b[NonSerialized]\nint x; \x7d"
      | .error .. => false) = true := by decide +kernel
  cases hrun : (OneLine.document "").addAttribute (field "") (.wellKnown .nonSerialized) .simple
      ⟨100⟩ with
  | ok d' v =>
    rw [hrun] at htext
    have htext' : d'.text = "class Foo \x7b[NonSerialized]\nint x; \x7d" := beq_iff_eq.1 htext
    exact ⟨d', v, rfl, htext', htext' ▸ by decide⟩
  | error e v =>
    rw [hrun] at htext
    cases htext

end CodeFix
