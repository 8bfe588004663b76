import CodeFix.Proofs.Text.Spaced

/-!
# The language of type spellings

A type is spelled as a qualified name with suffixes behind it, and each segment of the name may have
type arguments, which are spelled types again. `TypeSpelling` has the three rules of this language,
and what is written for a spelling is its run of tokens with blanks around them.

Whoever reads a spelling from the outside sees the ends of its run. No suffix ends a qualified name
(`QualifiedName.exists_last`), and up to the first type arguments it consists of identifiers and
dots (`NameSegment.exists_cut`).
-/

namespace CodeFix

/-! ## Spelled types -/

/-- The characters that type spellings are punctuated with. -/
def TypeSpelling.punctuation : List Char := ['?', '[', ']', ',', '<', '>', '.', ':']

/-- An identifier: not empty, without blanks and without punctuation. -/
structure Identifier where
  text : List Char
  solid : Text.Solid text
  plain : ∀ c ∈ text, c ∉ TypeSpelling.punctuation

mutual

/-- A name with any number of suffixes behind it. -/
inductive TypeSpelling where
  | named (name : QualifiedName)
  /-- A question mark behind the type. -/
  | nullable (inner : TypeSpelling)
  /-- Brackets behind the type, with commas in them for further dimensions. -/
  | array (inner : TypeSpelling) (commas : Nat)

/-- Segments with dots between them, behind an alias and two colons if there is one. -/
inductive QualifiedName where
  | mk (qualifier : Option Identifier) (first : NameSegment) (rest : List NameSegment)

/-- An identifier with type arguments behind it, if it has any. -/
inductive NameSegment where
  | mk (name : Identifier) (arguments : List TypeSpelling)

end

namespace NameSegment

/-- The identifier of the segment. -/
def name : NameSegment → Identifier
  | ⟨name, _⟩ => name

/-- The type arguments of the segment. -/
def arguments : NameSegment → List TypeSpelling
  | ⟨_, arguments⟩ => arguments

/-- The identifier of the first segment that has type arguments, or of the last one. -/
def readName : NameSegment → List NameSegment → Identifier
  | ⟨_, []⟩, segment :: segments => segment.readName segments
  | ⟨name, _⟩, _ => name

end NameSegment

namespace QualifiedName

/-- The alias in front of the name. -/
def qualifier : QualifiedName → Option Identifier
  | ⟨qualifier, _, _⟩ => qualifier

/-- The segments of the name. -/
def segments : QualifiedName → List NameSegment
  | ⟨_, first, rest⟩ => first :: rest

/-- The identifier of the last segment: the name of the type that is meant. -/
def lastName : QualifiedName → Identifier
  | ⟨_, first, rest⟩ => (rest.getLastD first).name

/-- The identifier that a reduction finds. -/
def readName : QualifiedName → Identifier
  | ⟨_, first, rest⟩ => first.readName rest

/-- The tokens of the alias and the colons behind it. -/
def qualifierTokens (q : QualifiedName) : List (List Char) :=
  match q.qualifier with
  | none => []
  | some q => [q.text, [':', ':']]

end QualifiedName

/-! ### Tokens -/

mutual

/-- The tokens of a spelled type. -/
def TypeSpelling.tokens : TypeSpelling → List (List Char)
  | .named name => name.tokens
  | .nullable inner => inner.tokens ++ [['?']]
  | .array inner commas => inner.tokens ++ ['['] :: (List.replicate commas [','] ++ [[']']])
termination_by structural t => t

/-- The tokens of a qualified name. -/
def QualifiedName.tokens : QualifiedName → List (List Char)
  | ⟨qualifier, first, rest⟩ =>
    QualifiedName.qualifierTokens ⟨qualifier, first, rest⟩ ++
      (first.tokens ++ NameSegment.tokensBehindDots rest)
termination_by structural q => q

/-- The tokens of a segment. -/
def NameSegment.tokens : NameSegment → List (List Char)
  | ⟨name, arguments⟩ => name.text :: TypeSpelling.argumentTokens arguments
termination_by structural s => s

/-- The tokens of further segments, each behind a dot. -/
def NameSegment.tokensBehindDots : List NameSegment → List (List Char)
  | [] => []
  | segment :: segments => ['.'] :: (segment.tokens ++ NameSegment.tokensBehindDots segments)
termination_by structural ss => ss

/-- The tokens of type arguments, in angle brackets if there are any. -/
def TypeSpelling.argumentTokens : List TypeSpelling → List (List Char)
  | [] => []
  | type :: types => ['<'] :: (type.tokens ++ TypeSpelling.tokensBehindCommas types ++ [['>']])
termination_by structural ts => ts

/-- The tokens of further type arguments, each behind a comma. -/
def TypeSpelling.tokensBehindCommas : List TypeSpelling → List (List Char)
  | [] => []
  | type :: types => [','] :: (type.tokens ++ TypeSpelling.tokensBehindCommas types)
termination_by structural ts => ts

end

namespace TypeSpelling

/-- Induction over the suffixes of a type. -/
@[elab_as_elim]
theorem induction {motive : TypeSpelling → Prop} (named : ∀ name, motive (.named name))
    (nullable : ∀ inner, motive inner → motive (.nullable inner))
    (array : ∀ inner commas, motive inner → motive (.array inner commas)) : ∀ t, motive t
  | .named name => named name
  | .nullable inner => nullable inner (induction named nullable array inner)
  | .array inner commas => array inner commas (induction named nullable array inner)
termination_by structural t => t

/-- The name behind which the suffixes stand. -/
def core : TypeSpelling → QualifiedName
  | named name => name
  | nullable inner => inner.core
  | array inner _ => inner.core

/-- At least one pair of brackets stands behind the name. -/
def hasBrackets : TypeSpelling → Bool
  | named _ => false
  | nullable inner => inner.hasBrackets
  | array _ _ => true

/-- At least one question mark stands behind the name. -/
def hasQuestionMark : TypeSpelling → Bool
  | named _ => false
  | nullable _ => true
  | array inner _ => inner.hasQuestionMark

end TypeSpelling

/-! ### What tokens are made of -/

theorem TypeSpelling.forall_solid_cons {c : Char} {tokens : List (List Char)}
    (hc : c ∈ punctuation) (h : ∀ token ∈ tokens, Text.Solid token) :
    ∀ token ∈ [c] :: tokens, Text.Solid token := by
  have hsolid : Text.Solid punctuation := by decide
  exact List.forall_mem_cons.2
    ⟨⟨List.cons_ne_nil _ _, fun x hx ↦ List.mem_singleton.1 hx ▸ hsolid.2 c hc⟩, h⟩

theorem QualifiedName.solid_qualifierTokens (q : QualifiedName) :
    ∀ token ∈ q.qualifierTokens, Text.Solid token := by
  rw [qualifierTokens]
  cases q.qualifier with
  | none => simp
  | some i =>
    have hcolons : Text.Solid [':', ':'] := by decide
    exact List.forall_mem_cons.2 ⟨i.solid, List.forall_mem_singleton.2 hcolons⟩

mutual

theorem TypeSpelling.solid_tokens :
    ∀ (t : TypeSpelling), ∀ token ∈ t.tokens, Text.Solid token
  | .named name => by
    rw [TypeSpelling.tokens]
    exact QualifiedName.solid_tokens name
  | .nullable inner => by
    rw [TypeSpelling.tokens]
    exact List.forall_mem_append.2 ⟨TypeSpelling.solid_tokens inner,
      TypeSpelling.forall_solid_cons (by decide) (by simp)⟩
  | .array inner commas => by
    have hcommas : ∀ token ∈ List.replicate commas [','], Text.Solid token := by
      intro token htoken
      rw [List.eq_of_mem_replicate htoken]
      exact by decide
    rw [TypeSpelling.tokens]
    refine List.forall_mem_append.2 ⟨TypeSpelling.solid_tokens inner,
      TypeSpelling.forall_solid_cons (by decide) (List.forall_mem_append.2 ⟨hcommas, ?_⟩)⟩
    exact TypeSpelling.forall_solid_cons (by decide) (by simp)
termination_by structural t => t

theorem QualifiedName.solid_tokens :
    ∀ (q : QualifiedName), ∀ token ∈ q.tokens, Text.Solid token
  | ⟨qualifier, first, rest⟩ => by
    rw [QualifiedName.tokens]
    exact List.forall_mem_append.2 ⟨QualifiedName.solid_qualifierTokens _,
      List.forall_mem_append.2 ⟨NameSegment.solid_tokens first,
        NameSegment.solid_tokensBehindDots rest⟩⟩
termination_by structural q => q

theorem NameSegment.solid_tokens :
    ∀ (s : NameSegment), ∀ token ∈ s.tokens, Text.Solid token
  | ⟨name, arguments⟩ => by
    rw [NameSegment.tokens]
    exact List.forall_mem_cons.2 ⟨name.solid, TypeSpelling.solid_argumentTokens arguments⟩
termination_by structural s => s

theorem NameSegment.solid_tokensBehindDots :
    ∀ (ss : List NameSegment), ∀ token ∈ NameSegment.tokensBehindDots ss, Text.Solid token
  | [] => by simp [NameSegment.tokensBehindDots]
  | s :: ss => by
    rw [NameSegment.tokensBehindDots]
    exact TypeSpelling.forall_solid_cons (by decide) (List.forall_mem_append.2
      ⟨NameSegment.solid_tokens s, NameSegment.solid_tokensBehindDots ss⟩)
termination_by structural ss => ss

theorem TypeSpelling.solid_argumentTokens :
    ∀ (ts : List TypeSpelling), ∀ token ∈ TypeSpelling.argumentTokens ts, Text.Solid token
  | [] => by simp [TypeSpelling.argumentTokens]
  | t :: ts => by
    rw [TypeSpelling.argumentTokens]
    refine TypeSpelling.forall_solid_cons (by decide) (List.forall_mem_append.2
      ⟨List.forall_mem_append.2 ⟨TypeSpelling.solid_tokens t,
        TypeSpelling.solid_tokensBehindCommas ts⟩, ?_⟩)
    exact TypeSpelling.forall_solid_cons (by decide) (by simp)
termination_by structural ts => ts

theorem TypeSpelling.solid_tokensBehindCommas :
    ∀ (ts : List TypeSpelling), ∀ token ∈ TypeSpelling.tokensBehindCommas ts, Text.Solid token
  | [] => by simp [TypeSpelling.tokensBehindCommas]
  | t :: ts => by
    rw [TypeSpelling.tokensBehindCommas]
    exact TypeSpelling.forall_solid_cons (by decide) (List.forall_mem_append.2
      ⟨TypeSpelling.solid_tokens t, TypeSpelling.solid_tokensBehindCommas ts⟩)
termination_by structural ts => ts

end

/-! ### The ends of a run -/

theorem NameSegment.exists_last (s : NameSegment) :
    ∃ front last, s.tokens = front ++ [last] ∧ '?' ∉ last ∧ ']' ∉ last := by
  obtain ⟨name, arguments⟩ := s
  rw [tokens]
  cases arguments with
  | nil =>
    exact ⟨[], name.text, rfl, fun h ↦ name.plain _ h (by decide),
      fun h ↦ name.plain _ h (by decide)⟩
  | cons t ts =>
    rw [TypeSpelling.argumentTokens]
    exact ⟨name.text :: ['<'] :: (t.tokens ++ TypeSpelling.tokensBehindCommas ts), ['>'],
      by simp, by decide, by decide⟩

theorem QualifiedName.exists_last (q : QualifiedName) :
    ∃ front last, q.tokens = front ++ [last] ∧ '?' ∉ last ∧ ']' ∉ last := by
  obtain ⟨qualifier, first, rest⟩ := q
  rw [tokens]
  generalize qualifierTokens _ = before
  induction rest generalizing before first with
  | nil =>
    obtain ⟨front, last, hlast, hmark, hbracket⟩ := first.exists_last
    exact ⟨before ++ front, last, by simp [NameSegment.tokensBehindDots, hlast], hmark, hbracket⟩
  | cons s ss ih =>
    obtain ⟨front, last, hlast, hplain⟩ := ih s (before ++ first.tokens ++ [['.']])
    refine ⟨front, last, ?_, hplain⟩
    rw [← hlast, NameSegment.tokensBehindDots]
    simp

/-- What stands behind the qualifier: identifiers with dots between them, up to the one that is
read, and behind that one nothing or type arguments. -/
theorem NameSegment.exists_cut (first : NameSegment) (rest : List NameSegment) :
    ∃ front behind, first.tokens ++ NameSegment.tokensBehindDots rest =
        front ++ (first.readName rest).text :: behind ∧
      (∀ token ∈ front, '<' ∉ token ∧ ':' ∉ token) ∧
      (front = [] ∨ ∃ front', front = front' ++ [['.']]) ∧
      (behind = [] ∨ ∃ behind', behind = ['<'] :: behind') := by
  induction rest generalizing first with
  | nil =>
    obtain ⟨name, arguments⟩ := first
    refine ⟨[], TypeSpelling.argumentTokens arguments, ?_, by simp, .inl rfl, ?_⟩
    · cases arguments <;> simp [NameSegment.tokens, NameSegment.tokensBehindDots,
        NameSegment.readName]
    · cases arguments with
      | nil => exact .inl (by rw [TypeSpelling.argumentTokens])
      | cons t ts => exact .inr ⟨_, by rw [TypeSpelling.argumentTokens]⟩
  | cons s ss ih =>
    obtain ⟨name, arguments⟩ := first
    cases arguments with
    | nil =>
      obtain ⟨front, behind, htokens, hplain, hdot, hbehind⟩ := ih s
      refine ⟨name.text :: ['.'] :: front, behind, ?_, ?_, .inr ?_, hbehind⟩
      · rw [NameSegment.tokensBehindDots, htokens]
        simp [NameSegment.tokens, TypeSpelling.argumentTokens, NameSegment.readName]
      · have hname : '<' ∉ name.text ∧ ':' ∉ name.text :=
          ⟨fun h ↦ name.plain _ h (by decide), fun h ↦ name.plain _ h (by decide)⟩
        exact List.forall_mem_cons.2 ⟨hname, List.forall_mem_cons.2 ⟨by decide, hplain⟩⟩
      · rcases hdot with rfl | ⟨front', rfl⟩
        · exact ⟨[name.text], rfl⟩
        · exact ⟨name.text :: ['.'] :: front', rfl⟩
    | cons t ts =>
      refine ⟨[], TypeSpelling.argumentTokens (t :: ts) ++ NameSegment.tokensBehindDots (s :: ss),
        by simp [NameSegment.tokens, NameSegment.readName], by simp, .inl rfl, .inr ?_⟩
      exact ⟨_, by rw [TypeSpelling.argumentTokens, List.cons_append]⟩

/-- If only the last segment has type arguments, it is the one that is read. -/
theorem NameSegment.readName_eq (first : NameSegment) (rest : List NameSegment)
    (h : ∀ s ∈ (first :: rest).dropLast, s.arguments = []) :
    first.readName rest = (rest.getLastD first).name := by
  induction rest generalizing first with
  | nil =>
    obtain ⟨name, arguments⟩ := first
    cases arguments <;> rfl
  | cons s ss ih =>
    obtain ⟨name, arguments⟩ := first
    rw [List.dropLast_cons_cons, List.forall_mem_cons] at h
    obtain ⟨hfirst, hrest⟩ := h
    obtain rfl : arguments = [] := hfirst
    rw [readName, ih s hrest, List.getLastD_cons]

end CodeFix
