import CodeFix.Solution.Basic
import CodeFix.Syntax.Kind
import CodeFix.Syntax.Text

/-!
# Layout of synthesized nodes

Only marked nodes are laid out. In a marked node every child that follows an attribute list without
anything between them gets a separator: a line break and the indentation of the declaration, or one
space if the declaration shares its line with what stands before it. Then the mark is taken off, so
a tree is laid out once. Nodes without a mark below them are returned as they are, as the same
values.
-/

namespace CodeFix

/-! ## Line breaks -/

inductive Newline where
  | lf
  | crlf
deriving DecidableEq, Repr

namespace Newline

def text : Newline → String
  | lf => "\n"
  | crlf => "\r\n"

private def hasPair : List Char → Bool
  | '\r' :: '\n' :: _ => true
  | _ :: cs => hasPair cs
  | [] => false

/-- The line break that a text already uses: a carriage return with a line feed if there is one
anywhere. -/
def detect (s : String) : Newline := if hasPair s.toList then crlf else lf

private theorem hasPair_iff (cs : List Char) : hasPair cs = true ↔ ['\r', '\n'] <:+: cs := by
  fun_induction hasPair cs with
  | case1 cs => exact iff_of_true rfl ⟨[], cs, rfl⟩
  | case2 c cs hpair ih =>
    have hprefix : ¬['\r', '\n'] <+: c :: cs := by
      rintro ⟨rest, hrest⟩
      obtain ⟨rfl, rfl⟩ := List.cons.inj hrest
      exact hpair rest rfl rfl
    rw [ih, List.infix_cons_iff, or_iff_right hprefix]
  | case3 => exact iff_of_false Bool.false_ne_true (by simp)

theorem detect_eq_crlf_iff (s : String) : detect s = crlf ↔ crlf.text.toList <:+: s.toList := by
  have hchars : crlf.text.toList = ['\r', '\n'] := rfl
  rw [hchars, ← hasPair_iff, detect]
  split
  · next h => exact iff_of_true rfl h
  · next h => exact iff_of_false Newline.noConfusion h

end Newline

/-! ## Separators -/

/-- What separates a declaration from its attribute list, given the trivia in front of the
declaration. -/
def separatorFor (leading : String) (newline : Newline) : String :=
  let cs := leading.toList
  if !cs.isEmpty && !cs.contains '\n' then " "
  else
    let lastLine := (cs.reverse.takeWhile (· != '\n')).reverse
    let indent := (lastLine.reverse.takeWhile fun c ↦ c == ' ' || c == '\t').reverse
    newline.text ++ String.ofList indent

/-- Puts the separator between an attribute list and the element behind it; the first argument is
the element before the run, as it was. Elements are numbered from `index` on. -/
def separateFrom (s : Stamp) (separator : String) :
    Option Element → Nat → List Element → List Element
  | _, _, [] => []
  | previous, index, e :: es =>
    let follows := previous.any fun p ↦ p.kind == Kind.attributeList
    let e' :=
      if follows && e.leadingTrivia.isEmpty then e.withLeadingTrivia (s.below index) separator
      else e
    e' :: separateFrom s separator (some e') (index + 1) es

/-- Lays out one marked node whose children are laid out already, and takes its mark off. -/
def layoutMarked (s : Stamp) (newline : Newline) (n : Node) : Node :=
  let separator := separatorFor n.leadingTrivia newline
  ⟨{ n.head with stamp := s, marked := false }, separateFrom s separator none 0 n.children⟩

/-! ## Trees -/

mutual

/-- Some node of the tree is marked. -/
def Node.hasMark : Node → Bool
  | ⟨head, children⟩ => head.marked || Element.hasMarkAll children
termination_by structural n => n

def Element.hasMark : Element → Bool
  | .node n => n.hasMark
  | .token _ => false
termination_by structural e => e

def Element.hasMarkAll : List Element → Bool
  | [] => false
  | e :: es => e.hasMark || Element.hasMarkAll es
termination_by structural es => es

end

mutual

/-- Lays out every marked node of the tree, children first. -/
def Node.layout (newline : Newline) : Stamp → Node → Node
  | s, ⟨head, children⟩ =>
    if head.marked then
      layoutMarked s newline ⟨head, Element.layoutAll newline s 0 children⟩
    else if Element.hasMarkAll children then
      ⟨{ head with stamp := s }, Element.layoutAll newline s 0 children⟩
    else ⟨head, children⟩
termination_by structural _ n => n

def Element.layout (newline : Newline) : Stamp → Element → Element
  | s, .node n => .node (Node.layout newline s n)
  | _, .token t => .token t
termination_by structural _ e => e

/-- Lays out every marked node of the elements, which are numbered from `index` on. -/
def Element.layoutAll (newline : Newline) (s : Stamp) : Nat → List Element → List Element
  | _, [] => []
  | index, e :: es =>
    Element.layout newline (s.below index) e :: Element.layoutAll newline s (index + 1) es
termination_by structural _ es => es

end

/-! ## Documents -/

/-- Lays out the tree of a document. A document without marked nodes is returned as it is; otherwise
the result is its next version, with the line breaks that its text already uses. -/
def Document.layout (d : Document) : StateM Supply Document :=
  if d.root.hasMark then do
    let stamp ← Stamp.fresh
    return d.withRoot (Node.layout (Newline.detect d.text) stamp d.root)
  else return d

end CodeFix
