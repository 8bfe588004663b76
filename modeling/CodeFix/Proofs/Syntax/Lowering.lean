import CodeFix.Proofs.Identity
import CodeFix.Proofs.Syntax.Preorder
import CodeFix.Proofs.Syntax.Text
import CodeFix.Syntax.Concrete

/-!
# Lowering loses nothing

Lowering gives the source away piece by piece: the position before a run of trees and the position
behind it are the ends of the slice that the run's tokens spell (`Lowers.text_eq`). Slices that meet
join, so the whole tree spells the whole source. The ranges of the leaves only have to cut no
character; a leaf may be empty, begin in front of the leaf before it, or lie inside of it, as leaves
do when a parser has recovered from an error.

What inner nodes claim to span is not looked at, so all that is said about lowering is said in terms
of the leaves.
-/

namespace CodeFix

namespace ConcreteTree

/-! ## Leaves -/

mutual

/-- The trees without children, from left to right. -/
def leaves : ConcreteTree → List ConcreteTree
  | mk kind start stop [] => [mk kind start stop []]
  | mk _ _ _ (t :: ts) => leaves t ++ leavesAll ts
termination_by structural t => t

/-- The trees without children in some trees, from left to right. -/
def leavesAll : List ConcreteTree → List ConcreteTree
  | [] => []
  | t :: ts => leaves t ++ leavesAll ts
termination_by structural ts => ts

end

/-- The range of the tree cuts no character of the source. -/
structure Fits (source : String) (t : ConcreteTree) : Prop where
  start : Text.IsBoundary source t.start
  stop : Text.IsBoundary source t.stop

/-- Where a position comes to when some leaves are passed. -/
def reach (position : Nat) (ts : List ConcreteTree) : Nat :=
  ts.foldl (fun p t ↦ max t.stop (max t.start p)) position

theorem reach_append (position : Nat) (ts ts' : List ConcreteTree) :
    reach position (ts ++ ts') = reach (reach position ts) ts' :=
  List.foldl_append

/-- The position that is reached is the furthest of all that were passed. -/
theorem reach_le_iff {position q : Nat} {ts : List ConcreteTree} :
    reach position ts ≤ q ↔ position ≤ q ∧ ∀ t ∈ ts, t.start ≤ q ∧ t.stop ≤ q := by
  induction ts generalizing position with
  | nil => simp [reach]
  | cons t ts ih =>
    rw [reach, List.foldl_cons, ← reach, ih, Nat.max_le, Nat.max_le, List.forall_mem_cons]
    tauto

theorem le_reach (position : Nat) (ts : List ConcreteTree) : position ≤ reach position ts :=
  (reach_le_iff.1 le_rfl).1

theorem isBoundary_reach {source : String} {position : Nat} {ts : List ConcreteTree}
    (hposition : Text.IsBoundary source position) (hts : ∀ t ∈ ts, t.Fits source) :
    Text.IsBoundary source (reach position ts) := by
  induction ts generalizing position with
  | nil => exact hposition
  | cons t ts ih =>
    rw [List.forall_mem_cons] at hts
    exact ih (hts.1.stop.max (hts.1.start.max hposition)) hts.2

end ConcreteTree

open ConcreteTree

/-! ## A run of elements and its slice -/

/-- The elements came from trees with the given leaves, read from one position of the source to
another one, and their ids were drawn meanwhile. -/
structure Lowers (source : String) (leaves : List ConcreteTree) (start stop : Nat) (u v : Supply)
    (es : List Element) : Prop where
  stop_eq : stop = reach start leaves
  text_eq : Text.IsBoundary source start → (∀ l ∈ leaves, l.Fits source) →
    Token.textAll (Element.tokensAll es) = Text.slice source start stop
  kinds_eq : (Element.tokensAll es).map Token.kind = leaves.map ConcreteTree.kind
  children_ne_nil : ∀ e ∈ es, ∀ m ∈ e.preorder, m.children ≠ []
  draws : u.Draws v (es.flatMap fun e ↦ e.preorder.map Node.id)

namespace Lowers

variable {source : String} {leaves leaves' : List ConcreteTree} {p q r : Nat} {u v w : Supply}
  {es es' : List Element}

theorem nil (source : String) (p : Nat) (u : Supply) : Lowers source [] p p u u [] :=
  ⟨rfl, fun hp _ ↦ (Text.slice_self hp).symm, rfl, by simp, .nil le_rfl⟩

theorem token (source kind : String) (start stop p : Nat) (u : Supply) :
    Lowers source [leaf kind start stop] p (lowerLeaf source kind start stop p).2 u u
      [.token (lowerLeaf source kind start stop p).1] := by
  refine ⟨rfl, fun hp hleaf ↦ ?_, rfl, by simp [Element.preorder], .nil le_rfl⟩
  have hfits := hleaf _ (List.mem_singleton_self _)
  have hstart : Text.IsBoundary source (max start p) := hfits.start.max hp
  rw [Element.tokensAll_cons, Element.tokens_token, Element.tokensAll_nil, List.append_nil,
    Token.textAll_cons, Token.textAll_nil, String.append_empty]
  exact Text.slice_append_slice (le_max_right _ _) (le_max_right _ _) hp hstart
    (hfits.stop.max hstart)

theorem append (h : Lowers source leaves p q u v es) (h' : Lowers source leaves' q r v w es') :
    Lowers source (leaves ++ leaves') p r u w (es ++ es') := by
  refine ⟨by rw [reach_append, ← h.stop_eq, h'.stop_eq], fun hp hall ↦ ?_, ?_, fun e he ↦ ?_, ?_⟩
  · obtain ⟨hleaves, hleaves'⟩ := List.forall_mem_append.1 hall
    have hq : Text.IsBoundary source q := h.stop_eq ▸ isBoundary_reach hp hleaves
    have hr : Text.IsBoundary source r := h'.stop_eq ▸ isBoundary_reach hq hleaves'
    rw [Element.tokensAll_append, Token.textAll_append, h.text_eq hp hleaves,
      h'.text_eq hq hleaves']
    exact Text.slice_append_slice (h.stop_eq ▸ le_reach p leaves)
      (h'.stop_eq ▸ le_reach q leaves') hp hq hr
  · rw [Element.tokensAll_append, List.map_append, h.kinds_eq, h'.kinds_eq, List.map_append]
  · exact (List.mem_append.1 he).elim (h.children_ne_nil e) (h'.children_ne_nil e)
  · rw [List.flatMap_append]
    exact h.draws.append h'.draws

theorem node (h : Lowers source leaves p q u v es) (hes : es ≠ []) (kind : String) :
    Lowers source leaves p q u (Node.create kind es v).2 [.node (Node.create kind es v).1] := by
  have htokens : Element.tokensAll [.node (Node.create kind es v).1] = Element.tokensAll es := by
    rw [Element.tokensAll_cons, Element.tokensAll_nil, List.append_nil]
    rfl
  refine ⟨h.stop_eq, by rw [htokens]; exact h.text_eq, by rw [htokens]; exact h.kinds_eq, ?_, ?_⟩
  · intro e he m hm
    rw [List.mem_singleton.1 he] at hm
    rcases Node.mem_preorder_iff.1 hm with rfl | ⟨c, hc, hm⟩
    · exact hes
    · exact h.children_ne_nil _ hc m hm
  · rw [List.flatMap_singleton]
    exact Node.create_draws h.draws kind

end Lowers

/-! ## Lowering -/

mutual

theorem ConcreteTree.lower_spec (source : String) : ∀ (t : ConcreteTree) (p : Nat) (u : Supply),
    Lowers source t.leaves p (t.lower source p u).1.2 u (t.lower source p u).2
      [(t.lower source p u).1.1]
  | .mk kind start stop [], p, u => Lowers.token source kind start stop p u
  | .mk kind _ _ (t :: ts), p, u => by
    have hall := (ConcreteTree.lowerAll_spec source (t :: ts) p u).node (List.cons_ne_nil _ _) kind
    exact hall
termination_by structural t => t

theorem ConcreteTree.lowerAll_spec (source : String) :
    ∀ (ts : List ConcreteTree) (p : Nat) (u : Supply),
    Lowers source (leavesAll ts) p (lowerAll source ts p u).1.2 u (lowerAll source ts p u).2
      (lowerAll source ts p u).1.1
  | [], p, u => Lowers.nil source p u
  | t :: ts, p, u =>
    (ConcreteTree.lower_spec source t p u).append (ConcreteTree.lowerAll_spec source ts _ _)
termination_by structural ts => ts

end

/-! ## The whole tree -/

namespace ConcreteTree

variable {t : ConcreteTree} {source : String} {u : Supply}

theorem toNode_draws (t : ConcreteTree) (source : String) (u : Supply) :
    u.Draws (t.toNode source u).2 (t.toNode source u).1.ids := by
  refine Node.create_draws ?_ t.kind
  rw [List.flatMap_append, List.flatMap_singleton, Element.preorder, List.map_nil, List.append_nil]
  exact (lowerAll_spec source t.children 0 u).draws

theorem tokens_toNode (t : ConcreteTree) (source : String) (u : Supply) :
    (t.toNode source u).1.tokens = Element.tokensAll (lowerAll source t.children 0 u).1.1 ++
      [⟨Kind.endOfFile,
        Text.slice source (lowerAll source t.children 0 u).1.2 source.utf8ByteSize, ""⟩] :=
  Element.tokensAll_append _ _

/-- The tree of a source spells the source. -/
theorem text_toNode (h : ∀ l ∈ leavesAll t.children, l.Fits source) (u : Supply) :
    (t.toNode source u).1.text = source := by
  have hall := lowerAll_spec source t.children 0 u
  have hzero := Text.isBoundary_zero source
  have hp := isBoundary_reach hzero h
  rw [← hall.stop_eq] at hp
  rw [Node.text, tokens_toNode, Token.textAll_append, hall.text_eq hzero h, Token.textAll_cons,
    Token.textAll_nil, String.append_empty, String.append_empty,
    Text.slice_append_slice (Nat.zero_le _) hp.le_utf8ByteSize hzero hp
      (Text.isBoundary_utf8ByteSize source), Text.slice_zero_utf8ByteSize]

/-- **Lowering is lossless.** The tokens in front of the end-of-file token are those of the leaves
and spell the source up to the furthest byte that a leaf touches; the end-of-file token has the rest
in front of it. -/
theorem toNode_lossless (h : ∀ l ∈ leavesAll t.children, l.Fits source) (u : Supply) :
    (t.toNode source u).1.text = source ∧
      (∃ p ts, (t.toNode source u).1.tokens =
          ts ++ [⟨Kind.endOfFile, Text.slice source p source.utf8ByteSize, ""⟩] ∧
        Token.textAll ts = Text.slice source 0 p ∧
        ts.map Token.kind = (leavesAll t.children).map ConcreteTree.kind ∧
        ∀ q, p ≤ q ↔ ∀ l ∈ leavesAll t.children, l.start ≤ q ∧ l.stop ≤ q) ∧
      ∀ m ∈ (t.toNode source u).1.preorder, m.children ≠ [] := by
  have hall := lowerAll_spec source t.children 0 u
  set es := (lowerAll source t.children 0 u).1.1
  set p := (lowerAll source t.children 0 u).1.2
  refine ⟨text_toNode h u, ⟨p, Element.tokensAll es, tokens_toNode t source u,
    hall.text_eq (Text.isBoundary_zero source) h, hall.kinds_eq, fun q ↦ ?_⟩, ?_⟩
  · rw [hall.stop_eq, reach_le_iff]
    exact and_iff_right (Nat.zero_le q)
  · intro m hm
    rcases Node.mem_preorder_iff.1 hm with rfl | ⟨c, hc, hm⟩
    · exact List.append_ne_nil_of_right_ne_nil es (List.cons_ne_nil _ _)
    · rcases List.mem_append.1 hc with hc | hc
      · exact hall.children_ne_nil _ hc m hm
      · cases List.mem_singleton.1 hc

/-- A source with a character of two bytes, after a parser has recovered from an error: a leaf is
missing, one begins in front of it, and one lies inside of another. -/
def recovered : ConcreteTree :=
  mk "compilation_unit" 0 6
    [leaf "identifier" 0 1, leaf ";" 3 3,
      branch "ERROR" [leaf "identifier" 1 5, leaf "identifier" 3 4]]

theorem toNode_recovered :
    (∀ l ∈ leavesAll recovered.children, l.Fits "aé b\n") ∧
      (recovered.toNode "aé b\n" Supply.start).1.text = "aé b\n" := by
  have h : ∀ l ∈ leavesAll recovered.children, l.Fits "aé b\n" := by
    simp only [recovered, leavesAll, leaves, children, leaf, branch, List.append_nil,
      List.nil_append, List.cons_append, List.forall_mem_cons]
    exact ⟨⟨by decide, by decide⟩, ⟨by decide, by decide⟩, ⟨by decide, by decide⟩,
      ⟨by decide, by decide⟩, fun _ h ↦ nomatch h⟩
  exact ⟨h, (toNode_lossless h Supply.start).1⟩

end ConcreteTree

/-! ## Parsers -/

/-- Every source is parsed, and no leaf of its tree cuts a character of the source. -/
structure Parser.Sound (parse : Parser) : Prop where
  total : ∀ source, (parse source).isSome
  fits : ∀ {source t}, parse source = some t → ∀ l ∈ leavesAll t.children, l.Fits source

end CodeFix
