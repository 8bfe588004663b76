import CodeFix.Proofs.Fix.Offer
import CodeFix.Proofs.Semantic.FieldSymbol
import CodeFix.Proofs.Syntax.Covering

/-!
# The field at a reported position

A finding comes with a path, a line and a column. They are taken for the innermost node at the byte
offset, and the field is looked for from there upwards. That is the field one would point to at the
offset: the node lies in every node whose range holds the offset, and all nodes around it, the root
apart, have ranges that hold it. The root is never asked for its range, so the statements leave out
trees that are a single field.
-/

namespace CodeFix

/-- The innermost field declaration whose text range holds the offset. -/
structure Node.FieldAt (root : Node) (offset : Nat) (field : Node) : Prop where
  mem : field ∈ root.preorder
  kind : field.kind = Kind.fieldDeclaration
  holds : root.RangeHolds field offset
  innermost : ∀ g ∈ root.preorder, g.kind = Kind.fieldDeclaration → root.RangeHolds g offset →
    field ∈ g.preorder

theorem Node.FieldAt.eq {root field field' : Node} {offset : Nat}
    (h : root.FieldAt offset field) (h' : root.FieldAt offset field') : field = field' :=
  Node.eq_of_mem_preorder (h.innermost field' h'.mem h'.kind h'.holds)
    (h'.innermost field h.mem h.kind h.holds)

/-- From the node at an offset, the extractor finds the field at the offset. -/
theorem enclosingField_covering? {root : Node} (hroot : root.ids.Nodup)
    (hkind : root.kind ≠ Kind.fieldDeclaration) (offset : Nat) :
    (enclosingField root ((root.covering? offset).getD root) = none ∧
        ∀ g ∈ root.preorder, g.kind = Kind.fieldDeclaration → ¬root.RangeHolds g offset) ∨
      ∃ field, enclosingField root ((root.covering? offset).getD root) = some field ∧
        root.FieldAt offset field := by
  have hnode := Node.covering?_getD_mem_preorder root offset
  rcases enclosingField_cases hroot hnode with
    ⟨hnone, houtside⟩ | ⟨field, above, below, hsome, hpath⟩
  · refine Or.inl ⟨hnone, fun g hg hgkind hholds ↦ ?_⟩
    exact houtside g hg hgkind (Node.covering?_mem_preorder hroot hg hholds)
  · have hnearest := hpath.nearestField hroot hnode
    have hne : field ≠ root := fun h ↦ hkind (h ▸ hnearest.kind)
    refine Or.inr ⟨field, hsome, hnearest.mem, hnearest.kind, ?_, fun g hg hgkind hholds ↦ ?_⟩
    · exact Node.rangeHolds_of_covering? hroot hnearest.mem hne hnearest.inside
    · exact hnearest.innermost g hg hgkind (Node.covering?_mem_preorder hroot hg hholds)

namespace PathName

theorem same_iff {p q : PathName} : p.same q = true ↔ p.components = q.components := by
  rw [same, beq_iff_eq]

end PathName

theorem Solution.documentAt?_eq_some {s : Solution} {d : Document} {path : PathName}
    (hd : d ∈ s.documents) (hpath : d.path.same path = true)
    (hunique : ∀ d' ∈ s.documents, d'.path.same d.path = true → d' = d) :
    s.documentAt? path = some d := by
  rw [PathName.same_iff] at hpath
  cases hfound : s.documentAt? path with
  | none => exact absurd (PathName.same_iff.2 hpath) (List.find?_eq_none.1 hfound d hd)
  | some b =>
    have hsame := PathName.same_iff.1
      (List.find?_some (p := fun d : Document ↦ d.path.same path) hfound)
    exact congrArg some (hunique b (List.mem_of_find?_eq_some hfound)
      (PathName.same_iff.2 (hsame.trans hpath.symm)))

namespace FixContext

/-- **A reported position selects the field at the position.** A path that no document has and a
position that the document does not have are refused, by what was reported. -/
theorem atDiagnostic_selects_field {s : Solution} (hs : s.Distinct) (diagnostic : Diagnostic)
    (semantic : SemanticModel) (host : DocumentHost) :
    ((∀ d ∈ s.documents, d.path.same diagnostic.file = false) →
        atDiagnostic s diagnostic semantic host =
          .error (.documentNotFound diagnostic.file.text)) ∧
      ∀ d ∈ s.documents, d.path.same diagnostic.file = true →
        (∀ d' ∈ s.documents, d'.path.same d.path = true → d' = d) →
          (d.offsetAt? diagnostic.line diagnostic.column = none →
            atDiagnostic s diagnostic semantic host = .error (.documentNotFound
              s!"{diagnostic.file.text}:{diagnostic.line}:{diagnostic.column}")) ∧
          ∀ offset, d.offsetAt? diagnostic.line diagnostic.column = some offset →
            d.root.kind ≠ Kind.fieldDeclaration →
              ∃ ctx, atDiagnostic s diagnostic semantic host = .ok ctx ∧
                ctx.document = .ok d ∧
                ((enclosingField d.root ctx.node = none ∧ ∀ g ∈ d.root.preorder,
                    g.kind = Kind.fieldDeclaration → ¬d.root.RangeHolds g offset) ∨
                  ∃ field, enclosingField d.root ctx.node = some field ∧
                    d.root.FieldAt offset field) := by
  refine ⟨fun hnone ↦ ?_, fun d hd hpath hunique ↦ ?_⟩
  · have hlookup : s.documentAt? diagnostic.file = none :=
      List.find?_eq_none.2 fun d hd ↦ by rw [hnone d hd]; exact Bool.false_ne_true
    rw [atDiagnostic, hlookup]
  · have hlookup := Solution.documentAt?_eq_some hd hpath hunique
    refine ⟨fun hoffset ↦ ?_, fun offset hoffset hkind ↦ ?_⟩
    · rw [atDiagnostic, hlookup]
      simp only [hoffset]
    · refine ⟨⟨s, d.id, (d.root.covering? offset).getD d.root, diagnostic, semantic, host⟩,
        ?_, ?_, enclosingField_covering? (hs.nodes.nodup_ids hd) hkind offset⟩
      · rw [atDiagnostic, hlookup]
        simp only [hoffset]
      · rw [document, Solution.document?_of_mem hs.documents hd]

/-- The third line of the file begins with four blanks; behind them the field is found. -/
theorem atDiagnostic_holder :
    ∃ ctx, atDiagnostic Holder.solution Holder.context.diagnostic Holder.solution.semanticModel
        snapshotHost = .ok ctx ∧
      enclosingField Holder.document.root ctx.node = some Holder.field := by
  have hdistinct : Holder.solution.Distinct := by decide
  have hdocuments : Holder.solution.documents = [Holder.document] := by decide
  have hmem : Holder.document ∈ Holder.solution.documents := by simp [hdocuments]
  have hoffset : Holder.document.offsetAt? 3 5 = some 33 := by decide +kernel
  have hat : Holder.document.root.FieldAt 33 Holder.field := by
    refine ⟨by decide, rfl, ⟨33, 41, by decide +kernel, by decide, by decide⟩, ?_⟩
    intro g hg hkind _
    have hall : ∀ g ∈ Holder.document.root.preorder, g.kind = Kind.fieldDeclaration →
        Holder.field ∈ g.preorder := by decide
    exact hall g hg hkind
  obtain ⟨ctx, hctx, -, ⟨-, hnone⟩ | ⟨field, hfield, hat'⟩⟩ :=
    ((atDiagnostic_selects_field hdistinct Holder.context.diagnostic _ _).2 Holder.document hmem
      rfl (by simp [hdocuments])).2 33 hoffset (by decide)
  · exact absurd hat.holds (hnone _ hat.mem hat.kind)
  · exact ⟨ctx, hctx, hfield.trans (congrArg some (hat'.eq hat))⟩

end FixContext

end CodeFix
