import CodeFix.Proofs.Syntax.Preorder
import Mathlib.Data.List.Nodup

/-!
# Ids drawn from a supply

A computation that synthesizes nodes takes its ids from the supply, one after another, so all that
is ever needed of them is the interval they come from: ids from intervals that follow each other
are different, and so are they from everything that was drawn before.

Two runs of a computation that begin with different supplies draw different ids, but in the same
turns. As long as they have drawn equally often (`Supply.Abreast`), what either draws next is the
same but for the number it began with (`Supply.Renumbered`).
-/

namespace CodeFix

namespace Supply

variable {u v w : Supply} {ids ids' : List NodeId}

/-- The ids were drawn between two states of a supply, each of them once. -/
structure Draws (u v : Supply) (ids : List NodeId) : Prop where
  le : u.next ≤ v.next
  nodup : ids.Nodup
  mem : ∀ id ∈ ids, u.next ≤ id.value ∧ id.value < v.next

namespace Draws

theorem nil (h : u.next ≤ v.next) : Draws u v [] := ⟨h, List.nodup_nil, by simp⟩

theorem append (h : Draws u v ids) (h' : Draws v w ids') : Draws u w (ids ++ ids') := by
  refine ⟨Nat.le_trans h.le h'.le,
    List.nodup_append.2 ⟨h.nodup, h'.nodup, fun a ha b hb hab ↦ ?_⟩, ?_⟩
  · have hlt := (h.mem a ha).2
    have hle := (h'.mem b hb).1
    rw [← hab] at hle
    omega
  · intro id hid
    rcases List.mem_append.1 hid with hid | hid
    · exact ⟨(h.mem id hid).1, Nat.lt_of_lt_of_le (h.mem id hid).2 h'.le⟩
    · exact ⟨Nat.le_trans h.le (h'.mem id hid).1, (h'.mem id hid).2⟩

theorem cons (h : Draws u v ids) : Draws u ⟨v.next + 1⟩ (⟨v.next⟩ :: ids) := by
  refine ⟨by have := h.le; simp only; omega, List.nodup_cons.2 ⟨fun hid ↦ ?_, h.nodup⟩, ?_⟩
  · have := (h.mem _ hid).2
    simp at this
  · intro id hid
    rcases List.mem_cons.1 hid with rfl | hid
    · exact ⟨h.le, Nat.lt_succ_self _⟩
    · exact ⟨(h.mem id hid).1, Nat.lt_succ_of_lt (h.mem id hid).2⟩

end Draws

/-! ## Two runs -/

/-- Two runs that began with the supplies `u` and `u'` have drawn equally often by the time they are
at `v` and `v'`. -/
def Abreast (u u' v v' : Supply) : Prop := ∃ k, v.next = u.next + k ∧ v'.next = u'.next + k

theorem Abreast.refl (u u' : Supply) : u.Abreast u' u u' := ⟨0, rfl, rfl⟩

/-- The ids are the same, or two runs that began with `u` and `u'` drew them in the same turn. -/
def Renumbered (u u' : Supply) (id id' : NodeId) : Prop :=
  id = id' ∨ ∃ k, id.value = u.next + k ∧ id'.value = u'.next + k

theorem Renumbered.refl (id : NodeId) : u.Renumbered v id id := Or.inl rfl

/-- The supplies came after `u` and `u'`, each in its own run. -/
def After (u u' v v' : Supply) : Prop := u.next ≤ v.next ∧ u'.next ≤ v'.next

end Supply

theorem Node.create_draws {u v : Supply} {es : List Element}
    (h : u.Draws v (es.flatMap fun e ↦ e.preorder.map Node.id)) (kind : String) :
    u.Draws (Node.create kind es v).2 (Node.create kind es v).1.ids := by
  rw [Node.ids_eq]
  exact h.cons

end CodeFix
