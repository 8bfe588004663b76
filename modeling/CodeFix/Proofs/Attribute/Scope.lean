import CodeFix.Attribute.Insert
import CodeFix.Proofs.Syntax.Preorder
import CodeFix.Proofs.Text.Spaced

/-!
# Where the namespace of the attributes is in scope

A using directive is valid where it stands: at the top of a file it is for the whole file, in a
namespace it is for what the namespace holds (`Node.ImportedAt`). And the namespace of a node is
named by all the declarations around it together, from the outside in (`Node.IsFullNamespace`). The
simple spelling of an attribute resolves where one of the two leads to the attributes' namespace
(`Node.AttributeNamespaceInScope`).

The automatic choice looks at less. A directive counts wherever it stands in the file, and each
namespace declaration is read by itself. So the simple spelling is chosen wherever it resolves, and
beyond that below directives of other namespaces and in namespaces that only end in the attributes'
namespace (`NameStylePreference.resolve_auto_iff`).
-/

namespace CodeFix

/-! ## Scopes -/

/-- The kind of what stands between the braces of a namespace. -/
def Kind.declarationList : String := "declaration_list"

/-- The namespace of the attributes, or one below it. -/
def IsWithinAttributes (name : String) : Prop :=
  name = attributeNamespace ∨ ∃ below, name = attributeNamespace ++ "." ++ below

namespace Node

/-- The directive `using System;`, which may be a global one. -/
def ImportsAttributes (directive : Node) : Prop :=
  directive.kind = Kind.usingDirective ∧
    (Text.Spaced ["using".toList, attributeNamespace.toList, [';']] directive.trimmedText.toList ∨
      Text.Spaced ["global".toList, "using".toList, attributeNamespace.toList, [';']]
        directive.trimmedText.toList)

/-- The namespace declarations around a node, from the outside in. -/
def enclosingNamespaces (root target : Node) : List Node :=
  root.preorder.filter fun n ↦
    n.kind == Kind.namespaceDeclaration && n.contains target.id && n.id != target.id

/-- The namespaces that are declared for a whole file. -/
def fileNamespaces (root : Node) : List Node :=
  root.childNodes.filter fun n ↦ n.kind == Kind.fileScopedNamespace

/-- The directive stands where it is valid for the target. -/
inductive ImportedAt (root target directive : Node) : Prop
  | file (h : Element.node directive ∈ root.children)
  | block {ns : Node} (hns : ns ∈ root.enclosingNamespaces target)
      (h : Element.node directive ∈ ns.children)
  | body {ns body : Node} (hns : ns ∈ root.enclosingNamespaces target)
      (hbody : Element.node body ∈ ns.children) (hkind : body.kind = Kind.declarationList)
      (h : Element.node directive ∈ body.children)

/-- The names around the target, from the outside in: that of a namespace of the whole file, if
there is one, and those of the declarations that enclose the target. -/
inductive HasNamespacePath (root target : Node) : List String → Prop
  | plain (h : root.fileNamespaces.filterMap namespaceName? = []) :
      HasNamespacePath root target ((root.enclosingNamespaces target).filterMap namespaceName?)
  | file {name : String} (h : name ∈ root.fileNamespaces.filterMap namespaceName?) :
      HasNamespacePath root target
        (name :: (root.enclosingNamespaces target).filterMap namespaceName?)

/-- The full namespace of the target. -/
def IsFullNamespace (root target : Node) (name : String) : Prop :=
  ∃ path, root.HasNamespacePath target path ∧ name = ".".intercalate path

/-- Names of namespaces that are around the target or the target itself, but do not begin its full
namespace. -/
def innerNamespaces (root target : Node) : List String :=
  ((root.fileNamespaces ++ root.enclosingNamespaces target).filterMap namespaceName?).tail ++
    if target.kind = Kind.namespaceDeclaration then (namespaceName? target).toList else []

/-- The simple name of an attribute resolves at the target. -/
inductive AttributeNamespaceInScope (root target : Node) : Prop
  | imported {directive : Node} (h : directive.ImportsAttributes)
      (hat : root.ImportedAt target directive)
  | within {name : String} (h : root.IsFullNamespace target name) (hname : IsWithinAttributes name)

end Node

/-! ## Reading directives -/

/-- The reading of a directive from the keyword on. -/
def readsUsing (text : List Char) : Bool :=
  match "using".toList.isPrefixOf? text with
  | none => false
  | some rest =>
    match [';'].isSuffixOf? (Text.trimChars rest) with
    | none => false
    | some name => Text.trimChars name == attributeNamespace.toList

theorem importsAttributeNamespace_eq (directive : String) :
    importsAttributeNamespace directive =
      readsUsing (match "global".toList.isPrefixOf? (Text.trimChars directive.toList) with
        | some rest => Text.trimStartChars rest
        | none => Text.trimChars directive.toList) := rfl

theorem solid_keyword : Text.Solid "using".toList := by decide

theorem solid_attributeNamespace : Text.Solid attributeNamespace.toList := by decide

theorem forall_solid_directive :
    ∀ token ∈ ["using".toList, attributeNamespace.toList, [';']], Text.Solid token := by
  have hend : Text.Solid [';'] := by decide
  exact List.forall_mem_cons.2 ⟨solid_keyword,
    List.forall_mem_cons.2 ⟨solid_attributeNamespace, List.forall_mem_singleton.2 hend⟩⟩

theorem readsUsing_iff {text : List Char} : readsUsing text = true ↔
    ∃ rest, text = "using".toList ++ rest ∧
      Text.Spaced [attributeNamespace.toList, [';']] rest := by
  rw [readsUsing]
  constructor
  · intro h
    split at h
    · cases h
    next rest hrest =>
      split at h
      · cases h
      next name hname =>
        have hsystem : Text.Spaced [attributeNamespace.toList] name := by
          refine .of_trim ?_
          rw [eq_of_beq h]
          exact .of_dropWhile (solid_attributeNamespace.dropWhile_append []) (.nil Text.blank_nil)
        refine ⟨rest, (List.append_eq_of_isPrefixOf?_eq_some hrest).symm, .of_trim ?_⟩
        rw [← List.append_eq_of_isSuffixOf?_eq_some hname]
        exact Text.Spaced.append_iff.2 ⟨name, [';'], rfl, hsystem,
          Text.Spaced.singleton_iff.2 ⟨[], [], rfl, Text.blank_nil, Text.blank_nil⟩⟩
  · rintro ⟨rest, rfl, hrest⟩
    have hsolid : ∀ token ∈ [attributeNamespace.toList], Text.Solid token :=
      List.forall_mem_singleton.2 solid_attributeNamespace
    obtain ⟨name, htrim, hname⟩ :=
      Text.Spaced.trimChars_concat hsolid (forall_solid_directive [';'] (by simp)) hrest
    obtain ⟨gap, gap', rfl, hgap, hgap'⟩ := Text.Spaced.singleton_iff.1 hname
    rw [List.isPrefixOf?_eq_some_iff_append_eq.2 rfl]
    simp only
    rw [htrim, List.isSuffixOf?_eq_some_iff_append_eq.2 rfl]
    simp only
    rw [solid_attributeNamespace.trimChars_eq hgap hgap', beq_self_eq_true]

/-- **Reading a directive.** -/
theorem importsAttributeNamespace_iff (directive : String) :
    importsAttributeNamespace directive = true ↔
      Text.Spaced ["using".toList, attributeNamespace.toList, [';']] directive.toList ∨
        Text.Spaced ["global".toList, "using".toList, attributeNamespace.toList, [';']]
          directive.toList := by
  have hglobal : Text.Solid "global".toList := by decide
  rw [importsAttributeNamespace_eq, readsUsing_iff]
  constructor
  · rintro ⟨rest, htext, hrest⟩
    have husing : Text.Spaced ["using".toList, attributeNamespace.toList, [';']]
        ("using".toList ++ rest) := .cons Text.blank_nil hrest
    rw [← htext] at husing
    split at husing
    next rest hprefix =>
      refine .inr (.of_trim ?_)
      rw [← List.append_eq_of_isPrefixOf?_eq_some hprefix]
      exact .cons Text.blank_nil husing.of_trimStart
    next => exact .inl husing.of_trim
  · rintro (h | h)
    · obtain ⟨rest, htrim, hrest⟩ := Text.Spaced.trimChars_cons
        (fun token htoken ↦ forall_solid_directive token (List.mem_cons_of_mem _ htoken))
        solid_keyword h
      exact ⟨rest, by rw [htrim]; rfl, hrest⟩
    · obtain ⟨rest, htrim, hrest⟩ :=
        Text.Spaced.trimChars_cons forall_solid_directive hglobal h
      obtain ⟨rest', hstart, hrest'⟩ := Text.Spaced.trimStartChars_cons solid_keyword hrest
      refine ⟨rest', ?_, hrest'⟩
      rw [htrim, List.isPrefixOf?_eq_some_iff_append_eq.2 rfl]
      exact hstart

/-! ## Names of namespaces -/

theorem isWithinAttributeNamespace_iff (name : String) :
    isWithinAttributeNamespace name = true ↔ IsWithinAttributes name := by
  rw [isWithinAttributeNamespace, Bool.or_eq_true, beq_iff_eq, List.isPrefixOf_iff_prefix,
    IsWithinAttributes]
  refine or_congr_right ⟨fun ⟨below, h⟩ ↦ ⟨String.ofList below, ?_⟩, fun ⟨below, h⟩ ↦ ?_⟩
  · rw [← String.toList_inj, String.toList_append, String.toList_ofList, h]
  · exact ⟨below.toList, by rw [h, String.toList_append, String.toList_append]; rfl⟩

/-- Only the outermost of several names decides. -/
theorem isWithinAttributes_intercalate_iff (outer : String) (inner : List String) :
    IsWithinAttributes (".".intercalate (outer :: inner)) ↔ IsWithinAttributes outer := by
  cases inner with
  | nil => rw [String.intercalate_singleton]
  | cons name inner =>
    rw [String.intercalate_cons_cons]
    generalize ".".intercalate (name :: inner) = joined
    have hplain : '.' ∉ attributeNamespace.toList := by decide
    constructor
    · rintro (h | ⟨below, h⟩)
      · refine absurd ?_ hplain
        rw [← h, String.toList_append, String.toList_append]
        exact List.mem_append_left _ (List.mem_append_right _ List.mem_cons_self)
      · have hchars : outer.toList ++ '.' :: joined.toList =
            attributeNamespace.toList ++ '.' :: below.toList := by
          simpa using congrArg String.toList h
        -- the name ends before the first dot, at it, or goes on behind it
        rcases List.append_eq_append_iff.1 hchars with ⟨cs, houter, hcs⟩ | ⟨cs, houter, hcs⟩
        · cases cs with
          | nil => exact .inl (String.toList_inj.1 (by rw [houter, List.append_nil]))
          | cons c cs =>
            obtain ⟨rfl, -⟩ := List.cons.inj hcs
            exact absurd (houter ▸ List.mem_append_right _ List.mem_cons_self) hplain
        · cases cs with
          | nil => exact .inl (String.toList_inj.1 (by rw [houter, List.append_nil]))
          | cons c cs =>
            obtain ⟨rfl, -⟩ := List.cons.inj hcs
            refine .inr ⟨String.ofList cs, String.toList_inj.1 ?_⟩
            simp [houter]
    · rintro (rfl | ⟨below, rfl⟩)
      · exact .inr ⟨joined, rfl⟩
      · exact .inr ⟨below ++ "." ++ joined, by simp only [String.append_assoc]⟩

/-! ## The automatic choice -/

section Auto

variable {root target n : Node} {name : String}

theorem Node.mem_enclosingNamespaces_iff (hroot : root.ids.Nodup)
    (htarget : target ∈ root.preorder) :
    n ∈ root.enclosingNamespaces target ↔ n ∈ root.preorder ∧
      n.kind = Kind.namespaceDeclaration ∧ target ∈ n.preorder ∧ n ≠ target := by
  rw [enclosingNamespaces, List.mem_filter, Bool.and_eq_true, Bool.and_eq_true, beq_iff_eq,
    contains_iff, bne_iff_ne]
  refine and_congr_right fun hn ↦ ?_
  rw [id_mem_ids_iff hroot hn htarget, and_assoc]
  refine and_congr_right fun _ ↦ and_congr_right fun _ ↦ not_congr ?_
  exact ⟨fun hid ↦ List.inj_on_of_nodup_map hroot hn htarget hid, congrArg Node.id⟩

theorem mem_coveringNamespaces_iff (hroot : root.ids.Nodup) (htarget : target ∈ root.preorder) :
    n ∈ coveringNamespaces root target.id ↔
      n ∈ root.fileNamespaces ++ root.enclosingNamespaces target ∨
        n = target ∧ n.kind = Kind.namespaceDeclaration := by
  rw [coveringNamespaces, Node.pathTo?_eq_filter hroot (Node.mem_ids_of_mem htarget),
    List.mem_append, List.mem_append, Option.getD_some, List.mem_filter, List.mem_filter,
    beq_iff_eq, Node.contains_iff, Node.mem_enclosingNamespaces_iff hroot htarget]
  rw [show root.childNodes.filter _ = root.fileNamespaces from rfl]
  constructor
  · rintro (⟨⟨hn, hid⟩, hkind⟩ | hfile)
    · by_cases hself : n = target
      · exact .inr ⟨hself, hkind⟩
      · exact .inl (.inr ⟨hn, hkind, (Node.id_mem_ids_iff hroot hn htarget).1 hid, hself⟩)
    · exact .inl (.inl hfile)
  · rintro ((hfile | ⟨hn, hkind, hmem, -⟩) | ⟨rfl, hkind⟩)
    · exact .inr hfile
    · exact .inl ⟨⟨hn, Node.mem_ids_of_mem hmem⟩, hkind⟩
    · exact .inl ⟨⟨htarget, Node.mem_ids_of_mem (Node.mem_preorder_self n)⟩, hkind⟩

/-- What is asked: there is a directive in the file, or one of the names that are read leads to the
attributes' namespace. -/
theorem attributeNamespaceInScope_iff (hroot : root.ids.Nodup) (htarget : target ∈ root.preorder) :
    attributeNamespaceInScope root target.id = true ↔
      (∃ directive ∈ root.preorder, directive.ImportsAttributes) ∨
        ∃ name, (name ∈ (root.fileNamespaces ++ root.enclosingNamespaces target).filterMap
            namespaceName? ∨ target.kind = Kind.namespaceDeclaration ∧
              namespaceName? target = some name) ∧ IsWithinAttributes name := by
  rw [attributeNamespaceInScope, Node.descendants_eq, Bool.or_eq_true, List.any_eq_true,
    List.any_eq_true]
  refine or_congr ?_ (exists_congr fun name ↦ ?_)
  · refine exists_congr fun directive ↦ and_congr_right fun _ ↦ ?_
    rw [Bool.and_eq_true, beq_iff_eq, importsAttributeNamespace_iff, Node.ImportsAttributes]
  · rw [isWithinAttributeNamespace_iff, List.mem_filterMap, List.mem_filterMap]
    refine and_congr_left fun _ ↦ ⟨?_, ?_⟩
    · rintro ⟨n, hn, hname⟩
      rcases (mem_coveringNamespaces_iff hroot htarget).1 hn with hn | ⟨rfl, hkind⟩
      · exact .inl ⟨n, hn, hname⟩
      · exact .inr ⟨hkind, hname⟩
    · rintro (⟨n, hn, hname⟩ | ⟨hkind, hname⟩)
      · exact ⟨n, (mem_coveringNamespaces_iff hroot htarget).2 (.inl hn), hname⟩
      · exact ⟨target, (mem_coveringNamespaces_iff hroot htarget).2 (.inr ⟨rfl, hkind⟩), hname⟩

theorem Node.ImportedAt.mem_preorder {directive : Node} (hroot : root.ids.Nodup)
    (htarget : target ∈ root.preorder) (h : root.ImportedAt target directive) :
    directive ∈ root.preorder := by
  have hself := Node.mem_preorder_self directive
  cases h with
  | file h => exact mem_preorder_of_child h hself
  | block hns h =>
    obtain ⟨hmem, -⟩ := (mem_enclosingNamespaces_iff hroot htarget).1 hns
    exact mem_preorder_trans (mem_preorder_of_child h hself) hmem
  | body hns hbody _ h =>
    obtain ⟨hmem, -⟩ := (mem_enclosingNamespaces_iff hroot htarget).1 hns
    exact mem_preorder_trans (mem_preorder_of_child hbody (mem_preorder_of_child h hself)) hmem

/-- A full namespace begins with one of the names that are read. -/
theorem Node.IsFullNamespace.exists_within (h : root.IsFullNamespace target name)
    (hname : IsWithinAttributes name) : ∃ outer ∈ (root.fileNamespaces ++
      root.enclosingNamespaces target).filterMap namespaceName?, IsWithinAttributes outer := by
  obtain ⟨path, hpath, rfl⟩ := h
  rw [List.filterMap_append]
  cases hpath with
  | plain h =>
    rw [h, List.nil_append]
    generalize (root.enclosingNamespaces target).filterMap namespaceName? = names at hname
    cases names with
    | nil =>
      rcases hname with h | ⟨below, h⟩
      · exact absurd h (by decide)
      · exact absurd (congrArg String.toList h) (by simp [attributeNamespace])
    | cons outer inner =>
      exact ⟨outer, List.mem_cons_self, (isWithinAttributes_intercalate_iff _ _).1 hname⟩
  | file h =>
    exact ⟨_, List.mem_append_left _ h, (isWithinAttributes_intercalate_iff _ _).1 hname⟩

/-- A name that is read begins a full namespace, or it stands in another one. -/
theorem Node.exists_isFullNamespace (h : name ∈ (root.fileNamespaces ++
    root.enclosingNamespaces target).filterMap namespaceName?) (hname : IsWithinAttributes name) :
    (∃ full, root.IsFullNamespace target full ∧ IsWithinAttributes full) ∨
      name ∈ root.innerNamespaces target := by
  have hbegins : ∀ {inner}, root.HasNamespacePath target (name :: inner) →
      ∃ full, root.IsFullNamespace target full ∧ IsWithinAttributes full := fun hpath ↦
    ⟨_, ⟨_, hpath, rfl⟩, (isWithinAttributes_intercalate_iff _ _).2 hname⟩
  rw [innerNamespaces]
  rw [List.filterMap_append] at h ⊢
  rcases List.mem_append.1 h with hfile | henclosing
  · exact .inl (hbegins (.file hfile))
  · cases hfiles : root.fileNamespaces.filterMap namespaceName? with
    | nil =>
      have hpath : root.HasNamespacePath target
          ((root.enclosingNamespaces target).filterMap namespaceName?) := .plain hfiles
      cases hnames : (root.enclosingNamespaces target).filterMap namespaceName? with
      | nil => exact absurd henclosing (hnames ▸ List.not_mem_nil)
      | cons outer inner =>
        rw [hnames] at henclosing hpath
        rcases List.mem_cons.1 henclosing with rfl | hinner
        · exact .inl (hbegins hpath)
        · exact .inr (List.mem_append_left _ hinner)
    | cons first rest =>
      exact .inr (List.mem_append_left _ (List.mem_append_right rest henclosing))

/-- **The automatic choice.** The simple spelling is chosen wherever it resolves, and besides in two
cases where it may not: a directive stands somewhere else in the file, or a namespace that is inside
of another one has the name of the attributes' namespace or of one below it. -/
theorem NameStylePreference.resolve_auto_iff (hroot : root.ids.Nodup)
    (htarget : target ∈ root.preorder) :
    NameStylePreference.auto.resolve root target.id = .simple ↔
      root.AttributeNamespaceInScope target ∨
        (∃ directive ∈ root.preorder, directive.ImportsAttributes ∧
          ¬ root.ImportedAt target directive) ∨
        ∃ name ∈ root.innerNamespaces target, IsWithinAttributes name := by
  have hresolve : NameStylePreference.auto.resolve root target.id = .simple ↔
      attributeNamespaceInScope root target.id = true := by
    rw [resolve]
    split <;> simp_all
  rw [hresolve, attributeNamespaceInScope_iff hroot htarget]
  constructor
  · rintro (⟨directive, hmem, himports⟩ | ⟨name, hread | ⟨hkind, hself⟩, hname⟩)
    · by_cases hat : root.ImportedAt target directive
      · exact .inl (.imported himports hat)
      · exact .inr (.inl ⟨directive, hmem, himports, hat⟩)
    · rcases Node.exists_isFullNamespace hread hname with ⟨full, hfull, hwithin⟩ | hinner
      · exact .inl (.within hfull hwithin)
      · exact .inr (.inr ⟨name, hinner, hname⟩)
    · refine .inr (.inr ⟨name, List.mem_append_right _ ?_, hname⟩)
      rw [if_pos hkind, hself]
      exact List.mem_singleton.2 rfl
  · rintro (hscope | ⟨directive, hmem, himports, -⟩ | ⟨name, hinner, hname⟩)
    · cases hscope with
      | imported himports hat => exact .inl ⟨_, hat.mem_preorder hroot htarget, himports⟩
      | within hfull hwithin =>
        obtain ⟨outer, hread, houter⟩ := hfull.exists_within hwithin
        exact .inr ⟨outer, .inl hread, houter⟩
    · exact .inl ⟨directive, hmem, himports⟩
    · refine .inr ⟨name, ?_, hname⟩
      rcases List.mem_append.1 hinner with htail | hself
      · exact .inl (List.mem_of_mem_tail htail)
      · split at hself
        next hkind => exact .inr ⟨hkind, Option.mem_toList.1 hself⟩
        next => cases hself

end Auto

/-! ### A directive in another namespace -/

namespace Elsewhere

private def branch (id : Nat) (kind : String) (children : List Element) : Node :=
  ⟨⟨⟨id⟩, ⟨id, []⟩, kind, false⟩, children⟩

private def inBraces (id : Nat) (name : String) (n : Node) : Node :=
  branch id Kind.namespaceDeclaration
    [.token ⟨Kind.namespaceKeyword, "", "namespace"⟩, .token ⟨Kind.identifier, " ", name⟩,
      .node (branch (id + 1) Kind.declarationList
        [.token ⟨"\x7b", " ", "\x7b"⟩, .node n, .token ⟨"\x7d", " ", "\x7d\n"⟩])]

/-- The directive `using System;`. -/
def directive : Node :=
  branch 3 Kind.usingDirective [.token ⟨"using", " ", "using"⟩,
    .token ⟨Kind.identifier, " ", "System"⟩, .token ⟨";", "", ";"⟩]

/-- The class `Foo`. -/
def type : Node :=
  branch 6 Kind.classDeclaration [.token ⟨"class", " ", "class"⟩,
    .token ⟨Kind.identifier, " ", "Foo"⟩, .token ⟨"\x7b", " ", "\x7b"⟩,
    .token ⟨"\x7d", " ", "\x7d"⟩]

/-- The directive in a namespace `A`, and the class in a namespace `B` behind it. -/
def root : Node :=
  branch 0 Kind.compilationUnit
    [.node (inBraces 1 "A" directive), .node (inBraces 4 "B" type)]

theorem not_importedAt : ¬ root.ImportedAt type directive := by
  have hout : Element.node directive ∉ root.children ∧ ∀ ns ∈ root.enclosingNamespaces type,
      Element.node directive ∉ ns.children ∧
        ∀ body ∈ ns.childNodes, Element.node directive ∉ body.children := by decide
  rintro (h | ⟨hns, h⟩ | ⟨hns, hbody, -, h⟩)
  · exact hout.1 h
  · exact (hout.2 _ hns).1 h
  · exact (hout.2 _ hns).2 _ (Node.mem_childNodes_iff.2 hbody) h

theorem importsAttributes : directive.ImportsAttributes :=
  ⟨rfl, (importsAttributeNamespace_iff _).1 (by decide)⟩

end Elsewhere

theorem NameStylePreference.resolve_auto_iff_elsewhere :
    (Elsewhere.root.ids.Nodup ∧ Elsewhere.type ∈ Elsewhere.root.preorder) ∧
      NameStylePreference.auto.resolve Elsewhere.root Elsewhere.type.id = .simple := by
  have hroot : Elsewhere.root.ids.Nodup := by decide
  have htype : Elsewhere.type ∈ Elsewhere.root.preorder := by decide
  exact ⟨⟨hroot, htype⟩, (resolve_auto_iff hroot htype).2 (.inr (.inl
    ⟨Elsewhere.directive, by decide, Elsewhere.importsAttributes, Elsewhere.not_importedAt⟩))⟩

/-- The simple spelling is chosen where it does not resolve. -/
theorem NameStylePreference.resolve_auto_out_of_scope :
    (Elsewhere.root.ids.Nodup ∧ Elsewhere.type ∈ Elsewhere.root.preorder) ∧
      NameStylePreference.auto.resolve Elsewhere.root Elsewhere.type.id = .simple ∧
      ¬ Elsewhere.root.AttributeNamespaceInScope Elsewhere.type := by
  have hroot : Elsewhere.root.ids.Nodup := by decide
  have htype : Elsewhere.type ∈ Elsewhere.root.preorder := by decide
  refine ⟨⟨hroot, htype⟩, by decide, ?_⟩
  rintro (⟨himports, hat⟩ | ⟨⟨path, hpath, rfl⟩, hname⟩)
  · have honly : ∀ n ∈ Elsewhere.root.preorder, n.kind = Kind.usingDirective →
        n = Elsewhere.directive := by decide
    obtain rfl := honly _ (hat.mem_preorder hroot htype) himports.1
    exact Elsewhere.not_importedAt hat
  · have hfile : Elsewhere.root.fileNamespaces.filterMap namespaceName? = [] := by decide
    have hnames : (Elsewhere.root.enclosingNamespaces Elsewhere.type).filterMap namespaceName? =
        ["B"] := by decide
    cases hpath with
    | plain =>
      rw [hnames, isWithinAttributes_intercalate_iff, ← isWithinAttributeNamespace_iff] at hname
      exact absurd hname (by decide)
    | file h => exact absurd (hfile ▸ h) List.not_mem_nil

end CodeFix
