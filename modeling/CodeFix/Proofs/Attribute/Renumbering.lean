import CodeFix.Attribute.Insert
import CodeFix.Proofs.Fix.TwoRuns
import CodeFix.Proofs.Identity
import CodeFix.Proofs.Syntax.Alike

/-!
# Attributes that two runs bring

Two runs that add the same attributes to the same declaration draw their ids in the same turns. The
versions of the declaration that they come to are alike, with the ids of one run exchanged for those
of the other (`runsAlike_addAttributes`).

The synthesized nodes are built from the inside to the outside, so each step takes elements that are
alike and the supplies abreast, and leaves both so. Trivia, positions and kinds are read off the
declaration, which is the same in both runs.
-/

namespace CodeFix

variable {u u' : Supply}

theorem drawsAlike_create (kind : String) {es es' : List Element}
    (hes : Element.AlikeAll (u.Renumbered u') es es') :
    DrawsAlike (u.Abreast u') (Node.Reissued (u.Renumbered u') u u')
      (Node.create kind es) (Node.create kind es') := by
  rintro v v' ⟨k, hv, hv'⟩
  refine ⟨⟨.mk (Or.inr ⟨k, hv, hv'⟩) rfl rfl hes, ?_, ?_⟩, k + 1, ?_, ?_⟩
  · exact Nat.le.intro hv.symm
  · exact Nat.le.intro hv'.symm
  · exact congrArg (· + 1) hv
  · exact congrArg (· + 1) hv'

private theorem drawsAlike_foldlM_qualifiedName (segments : List String) {name name' : Element}
    (hname : name.Alike (u.Renumbered u') name') :
    let extend : Element → String → StateM Supply Element := fun name segment ↦ do
      return .node (← Node.create Kind.qualifiedName
        [name, .token ⟨".", "", "."⟩, .token ⟨Kind.identifier, "", segment⟩])
    DrawsAlike (u.Abreast u') (Element.Alike (u.Renumbered u'))
      (segments.foldlM extend name) (segments.foldlM extend name') := by
  intro extend
  induction segments generalizing name name' with
  | nil => exact .pure hname
  | cons segment segments ih =>
    rw [List.foldlM_cons, List.foldlM_cons]
    have hparts := Element.AlikeAll.cons hname
      (.refl Supply.Renumbered.refl [.token ⟨".", "", "."⟩, .token ⟨Kind.identifier, "", segment⟩])
    refine .bind (R := Element.Alike (u.Renumbered u')) ?_ fun _ _ h ↦ ih h
    exact .bind (drawsAlike_create Kind.qualifiedName hparts) fun _ _ h ↦ .pure (.node h.alike)

theorem drawsAlike_attributeNameElement (rendered : String) :
    DrawsAlike (u.Abreast u') (Element.Alike (u.Renumbered u'))
      (attributeNameElement rendered) (attributeNameElement rendered) := by
  rw [attributeNameElement]
  cases Text.segments '.' rendered with
  | nil => exact .pure (.token _)
  | cons first rest => exact drawsAlike_foldlM_qualifiedName rest (.token _)

theorem drawsAlike_attributeListNode (rendered leading : String) :
    DrawsAlike (u.Abreast u') (Node.Reissued (u.Renumbered u') u u')
      (attributeListNode rendered leading) (attributeListNode rendered leading) := by
  rw [attributeListNode]
  refine .bind (drawsAlike_attributeNameElement rendered) fun name name' hname ↦ ?_
  refine .bind (drawsAlike_create Kind.attributeItem (.cons hname .nil)) fun item item' hitem ↦ ?_
  exact drawsAlike_create Kind.attributeList
    (.cons (.token _) (.cons (.node hitem.alike) (.cons (.token _) .nil)))

theorem drawsAlike_attributeListElements (lists : List (String × String)) :
    DrawsAlike (u.Abreast u') (Element.AlikeAll (u.Renumbered u'))
      (attributeListElements lists) (attributeListElements lists) := by
  induction lists with
  | nil => exact .pure .nil
  | cons list lists ih =>
    rw [attributeListElements]
    refine .bind (drawsAlike_attributeListNode list.1 list.2) fun n n' hn ↦ ?_
    exact .bind ih fun es es' hes ↦ .pure (.cons (.node hn.alike) hes)

theorem drawsAlike_insertLists (n : Node) (rendered : List String) :
    DrawsAlike (u.Abreast u') (Element.AlikeAll (u.Renumbered u'))
      (insertLists n rendered) (insertLists n rendered) := by
  have hsame := Element.AlikeAll.refl (r := u.Renumbered u') Supply.Renumbered.refl
  rw [insertLists]
  split
  · refine .bind (R := fun _ _ ↦ True) ?_ fun s s' _ ↦ ?_
    · rintro v v' ⟨k, hv, hv'⟩
      exact ⟨trivial, k + 1, congrArg (· + 1) hv, congrArg (· + 1) hv'⟩
    · refine .bind (drawsAlike_attributeListElements _) fun lists lists' hlists ↦ ?_
      split
      · exact .pure hlists
      · next first rest _ =>
        -- the trivia of the declaration are taken off its first element in both runs
        have hfirst := (Element.Alike.refl (r := u.Renumbered u') Supply.Renumbered.refl
          first).withLeadingTrivia s s' ""
        exact .pure (hlists.append (.cons hfirst (hsame rest)))
  · refine .bind (drawsAlike_attributeListElements _) fun lists lists' hlists ↦ ?_
    exact .pure (((hsame _).append hlists).append (hsame _))

/-- **Adding attributes** to a declaration in two runs gives versions of it that are alike, or fails
in both. -/
theorem runsAlike_addAttributes (n : Node) {attributes : List AttributeClass}
    (hne : attributes ≠ []) (style : NameStyle) :
    RunsAlike (fun _ ↦ True) (u.Abreast u') (Node.Reissued (u.Renumbered u') u u')
      (addAttributes n attributes style) (addAttributes n attributes style) := by
  rw [addAttributes]
  cases Kind.isAttributable n.kind with
  | false => exact .throw trivial
  | true =>
    rw [List.isEmpty_eq_false_iff.2 hne]
    refine .bind (drawsAlike_insertLists n _).liftM fun es es' hes ↦ ?_
    refine .bind (drawsAlike_create n.kind hes).liftM fun m m' hm ↦ .pure ⟨?_, hm.2, hm.3⟩
    cases hm.alike with
    | mk hid hkind _ hchildren => exact .mk hid hkind rfl hchildren

end CodeFix
