import CodeFix.Proofs.Fix.Fidelity
import CodeFix.Proofs.Layout.LineBreak

/-!
# Edits keep the line breaks of a file

A file with one kind of line breaks has only these after an edit. Line breaks come into the new text
with trivia that are moved or copied and with separators, whose line break is the one that is found
in the text with the list. Trivia and separators are pieces that fit the kind (`Newline.Fits`), so a
declaration with one more list fits it whatever trivia were copied (`Node.TextWithList.fits`). The
line break that is found is the one of the file, because the text in which it is looked for fits
already and no line feed is lost on the way (`Node.TextWithList.sublist`).

Into a file without line breaks a line feed may come, but no carriage return.
-/

namespace CodeFix

variable {newline : Newline} {n : Node} {es : List Element} {name separator text : String}

/-! ## The declaration -/

theorem Element.fits_spacedText (hes : ∀ t ∈ Element.tokensAll es, newline.FitsToken t)
    (hseparator : newline.Fits separator) (follows : Bool) :
    newline.Fits (Element.spacedText separator follows es) := by
  induction es generalizing follows with
  | nil => exact Newline.fits_empty
  | cons e es ih =>
    obtain ⟨he, hes⟩ := List.forall_mem_append.1 hes
    rw [spacedText]
    refine (Newline.Fits.append ?_ (Newline.fits_textAll he)).append (ih hes _)
    split
    · exact hseparator
    · exact Newline.fits_empty

theorem Element.sublist_spacedText (separator : String) (follows : Bool) (es : List Element) :
    (Token.textAll (Element.tokensAll es)).toList.Sublist
      (Element.spacedText separator follows es).toList := by
  induction es generalizing follows with
  | nil => exact List.Sublist.refl _
  | cons e es ih =>
    rw [tokensAll_cons, Token.textAll_append, spacedText, String.toList_append,
      String.toList_append, String.toList_append]
    exact (List.sublist_append_right _ _).append (ih _)

namespace Node.TextWithList

variable (h : n.TextWithList name separator text)
include h

/-- **A declaration with one more list** fits the line break that all its tokens fit. -/
theorem fits (hn : ∀ t ∈ n.tokens, newline.FitsToken t) (hname : newline.Fits name)
    (hseparator : newline.Fits separator) : newline.Fits text := by
  have hopen : newline.Fits "[" := Newline.fits_of_not_mem (by decide) (by decide)
  have hclose : newline.Fits "]" := Newline.fits_of_not_mem (by decide) (by decide)
  have hlist : newline.Fits ("[" ++ name ++ "]") := (hopen.append hname).append hclose
  cases h with
  | front hsome hnone =>
    have hleading : newline.Fits n.leadingTrivia := by
      rw [Node.leadingTrivia_eq]
      exact Newline.fits_leadingAll hn
    have htrimmed : newline.Fits n.trimmedText := by
      rw [Node.trimmedText_eq]
      exact Newline.fits_trimmedTextAll hn
    exact ((hleading.append hlist).append hseparator).append htrimmed
  | @behind before after last gap hchildren hlast hafter hgap =>
    rw [Node.tokens_eq, hchildren, List.append_cons, Element.tokensAll_append,
      List.forall_mem_append] at hn
    obtain ⟨hbefore, hbehind⟩ := hn
    have hgapFits : newline.Fits gap := by
      rw [hgap]
      cases after with
      | nil => exact Newline.fits_empty
      | cons e after =>
        rw [List.head?_cons, Option.map_some, Option.getD_some, Element.leadingTrivia_eq]
        exact Newline.fits_leadingAll fun t ht ↦ hbehind t (List.mem_append_left _ ht)
    have hseparated : newline.Fits (if gap.isEmpty then separator else gap) := by
      split
      · exact hseparator
      · exact hgapFits
    exact (((Element.fits_spacedText hbefore hseparator _).append hseparated).append hlist).append
      (Element.fits_spacedText hbehind hseparator _)

/-- Nothing of the declaration is lost. -/
theorem sublist : n.text.toList.Sublist text.toList := by
  cases h with
  | front hsome hnone =>
    rw [Node.text_eq, String.toList_append, String.toList_append, String.toList_append,
      String.toList_append]
    exact ((List.sublist_append_left _ _).trans (List.sublist_append_left _ _)).append
      (List.Sublist.refl _)
  | @behind before after last gap hchildren hlast hafter hgap =>
    rw [Node.text, Node.tokens_eq, hchildren, List.append_cons, Element.tokensAll_append,
      Token.textAll_append, String.toList_append, String.toList_append, String.toList_append,
      String.toList_append]
    have hbefore := Element.sublist_spacedText separator false (before ++ [last])
    exact ((hbefore.trans (List.sublist_append_left _ _)).trans
      (List.sublist_append_left _ _)).append (Element.sublist_spacedText separator true after)

end Node.TextWithList

namespace Serialization

variable {preference : NameStylePreference} {ctx : FixContext} {base : Solution} {d : Document}
  {s s' : FixState} {o : Offer} {a : CodeAction} {actions : List CodeAction}

/-! ## The names -/

theorem Offer.Names.fits (h : o.Names ctx name) (hsemantic : ctx.semantic =
    ctx.solution.semanticModel) (newline : Newline) : newline.Fits name := by
  obtain ⟨cls, style, hcls, rfl⟩ := h
  rw [attributeClass_eq hsemantic] at hcls
  obtain rfl := Option.some.inj hcls
  refine Newline.fits_of_not_mem ?_ ?_ <;> cases style <;> cases o.added <;> decide

/-! ## The document -/

/-- An offered action adds to one text, and keeps it to its line break if no token ends within
one. -/
theorem Offer.Made.keepsBreaks (hs : base.Distinct) (h : o.Made base d n name a)
    (hchildren : ∀ m ∈ d.root.preorder, m.children ≠ [])
    (hmark : ∀ m ∈ d.root.preorder, m.marked = false) (hclosed : ∀ t ∈ d.root.tokens, t.Closed)
    (hname : ∀ newline : Newline, newline.Fits name) (t : Supply) :
    ∃ d' u, a.changedDocuments t = .ok [d'] u ∧ d'.id = d.id ∧
      d.text.toList.Sublist d'.text.toList ∧
      ∀ newline : Newline, (newline = .crlf → '\n' ∈ d.text.toList) →
        newline.Throughout d.text → newline.Throughout d'.text := by
  obtain ⟨c, plain, text, hroot, hplain, htext, hchanged⟩ := h.exchangesText hs hchildren hmark
  obtain ⟨d', u, hrun, hid, -, hd'⟩ := hchanged t
  have hd : d.text = Token.textAll c.tokensBefore ++ n.text ++ Token.textAll c.tokensAfter := by
    rw [Document.text, hroot, c.text_fill]
  have hadds : ∀ {separator text}, n.TextWithList name separator text → d.text.toList.Sublist
      (Token.textAll c.tokensBefore ++ text ++ Token.textAll c.tokensAfter).toList := by
    intro separator text hwith
    rw [hd, String.toList_append, String.toList_append, String.toList_append, String.toList_append]
    exact ((List.Sublist.refl _).append hwith.sublist).append (List.Sublist.refl _)
  refine ⟨d', u, hrun, hid, hd' ▸ hadds htext, fun newline hbreak hthroughout ↦ ?_⟩
  have htokens := Newline.Throughout.fitsToken hthroughout hclosed
  rw [hroot, TreeContext.tokens_fill, List.forall_mem_append, List.forall_mem_append] at htokens
  obtain ⟨⟨hbefore, hn⟩, hbehind⟩ := htokens
  have hfits : ∀ {separator text}, n.TextWithList name separator text → newline.Fits separator →
      newline.Fits (Token.textAll c.tokensBefore ++ text ++ Token.textAll c.tokensAfter) :=
    fun hwith hseparator ↦ ((Newline.fits_textAll hbefore).append
      (hwith.fits hn (hname newline) hseparator)).append (Newline.fits_textAll hbehind)
  -- the text with the list alone tells the line break of the file
  have hdetect := Newline.detect_eq (hfits hplain Newline.fits_empty).throughout
    fun hcrlf ↦ (hadds hplain).subset (hbreak hcrlf)
  rw [hdetect] at htext
  rw [hd']
  exact (hfits htext (Newline.fits_separator (isSeparator_separatorFor _ _))).throughout

/-- **Line breaks are kept.** Each action changes one document of the snapshot, provided that no
token of the snapshot ends with a carriage return. If all line feeds of the document stand behind a
carriage return, and there is one, then this is true of the new text, and if none does, then none
does in the new text. -/
theorem fixes_keep_line_breaks (hs : ctx.solution.Distinct)
    (hchildren : ∀ d ∈ ctx.solution.documents, ∀ m ∈ d.root.preorder, m.children ≠ [])
    (hmark : ∀ d ∈ ctx.solution.documents, ∀ m ∈ d.root.preorder, m.marked = false)
    (hclosed : ∀ d ∈ ctx.solution.documents, ∀ t ∈ d.root.tokens, t.Closed)
    (hsemantic : ctx.semantic = ctx.solution.semanticModel) (hhost : ctx.host = snapshotHost)
    (hfixes : fixes preference enclosingField ctx s = .ok actions s') (ha : a ∈ actions) :
    ∃ d ∈ ctx.solution.documents, ∀ t, ∃ d' u, a.changedDocuments t = .ok [d'] u ∧ d'.id = d.id ∧
      ('\n' ∈ d.text.toList ∧ Newline.crlf.Throughout d.text →
        '\n' ∈ d'.text.toList ∧ Newline.crlf.Throughout d'.text) ∧
      (Newline.lf.Throughout d.text → Newline.lf.Throughout d'.text) := by
  obtain ⟨o, d, n, name, hname, hmade⟩ := made_of_mem_fixes hs hhost hfixes ha
  have hd := hmade.document
  refine ⟨d, hd, fun t ↦ ?_⟩
  obtain ⟨d', u, hrun, hid, hadds, hkeeps⟩ := hmade.keepsBreaks hs (hchildren d hd) (hmark d hd)
    (hclosed d hd) (hname.fits hsemantic) t
  exact ⟨d', u, hrun, hid,
    fun ⟨hbreak, hcrlf⟩ ↦ ⟨hadds.subset hbreak, hkeeps .crlf (fun _ ↦ hbreak) hcrlf⟩,
    hkeeps .lf fun h ↦ absurd h Newline.noConfusion⟩

end Serialization

/-! ## A file with carriage returns -/

namespace Carriage

private def node (id : Nat) (kind : String) (children : List Element) : Node :=
  ⟨⟨⟨id⟩, ⟨id, []⟩, kind, false⟩, children⟩

private def list (id : Nat) (leading name : String) : Element :=
  .node (node id Kind.attributeList [.token ⟨"[", leading, "["⟩,
    .node (node (id + 1) Kind.attributeItem [.token ⟨Kind.identifier, "", name⟩]),
    .token ⟨"]", "", "]"⟩])

/-- The field `int x;`, on a line below two attribute lists that share one. -/
def field : Node :=
  node 2 Kind.fieldDeclaration [list 3 "\r\n\t" "A", list 5 "" "B",
    .token ⟨Kind.identifier, "\r\n\t", "int"⟩, .token ⟨Kind.identifier, " ", "x"⟩,
    .token ⟨";", "", ";"⟩]

/-- A class with the field. -/
def document : Document where
  id := ⟨0⟩
  project := ⟨0⟩
  path := ⟨"Carriage.cs"⟩
  root := node 0 Kind.compilationUnit
    [.node (node 1 Kind.classDeclaration
      [.token ⟨"class", "", "class"⟩, .token ⟨Kind.identifier, " ", "Carriage"⟩,
        .token ⟨"\x7b", " ", "\x7b"⟩, .node field, .token ⟨"\x7d", "\r\n", "\x7d"⟩]),
      .token ⟨Kind.endOfFile, "\r\n", ""⟩]
  version := 0

/-- The solution with that file alone. -/
def solution : Solution :=
  Solution.empty.withProject ((Project.create "Carriage" ⟨0⟩).1.withDocument document rfl)

/-- The context of a finding at the field. -/
def context : FixContext :=
  ⟨solution, document.id, field, ⟨Serialization.rule, document.path, 1, 1, .warning, none⟩,
    solution.semanticModel, snapshotHost⟩

end Carriage

namespace Serialization

/-- The field of `Carriage` gets a third list, and each of the three gets a line of its own. -/
theorem fixes_keep_line_breaks_carriage :
    ∃ a s', fixes .simple enclosingField Carriage.context ⟨⟨100⟩, false⟩ = .ok [a] s' ∧
      ∀ t, ∃ d' u, a.changedDocuments t = .ok [d'] u ∧ '\n' ∈ d'.text.toList ∧
        Newline.crlf.Throughout d'.text := by
  have hdistinct : Carriage.context.solution.Distinct := by decide
  have hdocument : Carriage.document ∈ Carriage.context.solution.documents := by decide
  have hfield : Carriage.field ∈ Carriage.document.root.preorder := by decide
  have hnone : referenceToMark? Carriage.context = none := by decide +kernel
  obtain ⟨a, u, hfirst, -⟩ := excludeFieldAction_of_class .simple hdocument hfield rfl rfl
    ⟨⟨100⟩, false⟩
  have hextract : enclosingField Carriage.document.root Carriage.context.node =
      some Carriage.field := by decide
  have hfixes := fixes_of_candidates rfl rfl hextract hfirst
    (markTypeAction?_of_none .simple hnone _)
  refine ⟨a, _, hfixes, fun t ↦ ?_⟩
  obtain ⟨d, hd, hkeeps⟩ := fixes_keep_line_breaks hdistinct (by decide) (by decide) (by decide)
    rfl rfl hfixes List.mem_cons_self
  obtain rfl : d = Carriage.document := List.mem_singleton.1 hd
  obtain ⟨d', u', hrun, -, hcrlf, -⟩ := hkeeps t
  exact ⟨d', u', hrun, hcrlf (by decide)⟩

end Serialization

end CodeFix
