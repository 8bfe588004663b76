import CodeFix.CSharp.Grammar
import CodeFix.Proofs.CSharp.Lexeme
import CodeFix.Proofs.Syntax.Lowering

/-!
# What the parser reads cuts no character

A rule that is given pieces of the source answers trees whose leaves begin and end at boundaries of
the source, and leaves pieces of the source over. The leaves of most rules are whole lexemes, so
this follows from how a rule is put together (`Answers`); only the parts of a string literal are
looked at by themselves.

Whatever the grammar makes of a source, the leaves of the concrete tree cut no character of it: they
come from rules of the grammar, or they are whole lexemes, comments among them. So the parser is
sound (`parser_sound`), for sources that the grammar covers and for all others.
-/

namespace CodeFix

namespace ConcreteTree

variable {source kind : String} {t : ConcreteTree} {ts ts' : List ConcreteTree}

/-- No leaf of the tree cuts a character of the source. -/
def Neat (source : String) (t : ConcreteTree) : Prop := ∀ l ∈ t.leaves, l.Fits source

/-- No leaf of the trees cuts a character of the source. -/
def AllNeat (source : String) (ts : List ConcreteTree) : Prop := ∀ l ∈ leavesAll ts, l.Fits source

@[simp] theorem allNeat_nil : AllNeat source [] := List.forall_mem_nil _

@[simp] theorem allNeat_cons : AllNeat source (t :: ts) ↔ Neat source t ∧ AllNeat source ts :=
  List.forall_mem_append

@[simp] theorem allNeat_append :
    AllNeat source (ts ++ ts') ↔ AllNeat source ts ∧ AllNeat source ts' := by
  induction ts with
  | nil => simp
  | cons t ts ih => rw [List.cons_append, allNeat_cons, allNeat_cons, ih, and_assoc]

theorem neat_leaf {start stop : Nat} (hstart : Text.IsBoundary source start)
    (hstop : Text.IsBoundary source stop) : Neat source (leaf kind start stop) :=
  List.forall_mem_singleton.2 ⟨hstart, hstop⟩

theorem neat_mk {start stop : Nat} (h : AllNeat source ts) (hne : ts ≠ []) :
    Neat source (mk kind start stop ts) := by
  obtain ⟨t, ts, rfl⟩ := List.exists_cons_of_ne_nil hne
  exact h

/-- A branch without children is a leaf at the beginning. -/
theorem neat_branch (h : AllNeat source ts) : Neat source (branch kind ts) := by
  by_cases hts : ts = []
  · rw [hts]
    exact neat_leaf (Text.isBoundary_zero source) (Text.isBoundary_zero source)
  · exact neat_mk h hts

end ConcreteTree

namespace CSharp

open ConcreteTree

variable {α β : Type} {source : String} {P : α → Prop} {Q : β → Prop}

/-- Given pieces of the source, the rule answers something that has the property, and it leaves
pieces of the source over. -/
def Answers (source : String) (P : α → Prop) (r : Rule α) : Prop :=
  ∀ ls a rest, (∀ l ∈ ls, l.Cut source) → r ls = some (a, rest) →
    P a ∧ ∀ l ∈ rest, l.Cut source

namespace Answers

theorem pure {a : α} (h : P a) : Answers source P (pure a : Rule α) := by
  intro ls b rest hls hrun
  cases hrun
  exact ⟨h, hls⟩

theorem failure : Answers source P (failure : Rule α) := by
  intro ls a rest _ hrun
  cases hrun

theorem bind {r : Rule α} {f : α → Rule β} (hr : Answers source P r)
    (hf : ∀ a, P a → Answers source Q (f a)) : Answers source Q (r >>= f) := by
  intro ls b rest hls hrun
  obtain ⟨⟨a, ls'⟩, hfirst, hnext⟩ := Option.bind_eq_some_iff.1 hrun
  obtain ⟨ha, hls'⟩ := hr ls a ls' hls hfirst
  exact hf a ha ls' b rest hls' hnext

theorem orElse {r r' : Rule α} (hr : Answers source P r) (hr' : Answers source P r') :
    Answers source P (r <|> r') := by
  intro ls a rest hls hrun
  change (r ls).orElse (fun _ ↦ r' ls) = some (a, rest) at hrun
  cases hfirst : r ls with
  | some x =>
    rw [hfirst] at hrun
    exact hr ls a rest hls (hfirst.trans hrun)
  | none =>
    rw [hfirst] at hrun
    exact hr' ls a rest hls hrun

theorem get : Answers source (fun _ ↦ True) (get : Rule (List Lexeme)) := by
  intro ls a rest hls hrun
  cases hrun
  exact ⟨trivial, hls⟩

theorem ahead {r : Rule Unit} : Answers source (fun _ ↦ True) (ahead r) := by
  intro ls a rest hls hrun
  obtain ⟨x, -, hx⟩ := Option.map_eq_some_iff.1 hrun
  cases hx
  exact ⟨trivial, hls⟩

theorem lexemeWhere (p : Lexeme → Bool) :
    Answers source (fun l ↦ l.Cut source ∧ p l = true) (lexemeWhere p) := by
  intro ls l rest hls hrun
  cases ls with
  | nil => cases hrun
  | cons l' ls =>
    obtain ⟨hl', hrest⟩ := List.forall_mem_cons.1 hls
    rw [CSharp.lexemeWhere] at hrun
    split at hrun
    · next hp =>
      cases hrun
      exact ⟨⟨hl', hp⟩, hrest⟩
    · cases hrun

end Answers

/-! ## Leaves and repetition -/

/-- The rule answers a neat tree. -/
abbrev AnswersTree (source : String) (r : Rule ConcreteTree) : Prop :=
  Answers source (Neat source) r

/-- The rule answers neat trees. -/
abbrev AnswersTrees (source : String) (r : Rule Trees) : Prop := Answers source (AllNeat source) r

theorem neat_leafOf {l : Lexeme} (kind : String) (h : l.Cut source) :
    Neat source (leafOf kind l) :=
  neat_leaf h.isBoundary_start h.isBoundary_stop

section

variable {r item : Rule Trees} {one : Rule ConcreteTree}

theorem answersTree_leafOf (kind : String) (p : Lexeme → Bool) :
    AnswersTree source (do return leafOf kind (← lexemeWhere p)) :=
  (Answers.lexemeWhere p).bind fun _ hl ↦ .pure (neat_leafOf kind hl.1)

theorem answersTree_exactly (text : String) : AnswersTree source (exactly text) :=
  answersTree_leafOf text _

theorem answersTrees_optionally (h : AnswersTrees source r) :
    AnswersTrees source (optionally r) :=
  h.orElse (.pure allNeat_nil)

theorem answersTrees_single (h : AnswersTree source one) : AnswersTrees source (single one) :=
  h.bind fun _ ht ↦ .pure (by simp [ht])

theorem answersTrees_upTo (h : AnswersTrees source r) (n : Nat) :
    AnswersTrees source (upTo r n) := by
  induction n with
  | zero => exact .pure allNeat_nil
  | succ n ih =>
    refine (h.bind fun first hfirst ↦ ih.bind fun others hothers ↦ ?_).orElse (.pure allNeat_nil)
    exact .pure (by simp [hfirst, hothers])

theorem answersTrees_repeatedly (h : AnswersTrees source r) :
    AnswersTrees source (repeatedly r) :=
  Answers.get.bind fun ls _ ↦ answersTrees_upTo h ls.length

theorem answersTrees_separated (mark : String) (h : AnswersTrees source item) :
    AnswersTrees source (separated mark item) := by
  refine h.bind fun first hfirst ↦ (answersTrees_repeatedly ?_).bind fun others hothers ↦
    .pure (by simp [hfirst, hothers])
  exact (answersTrees_single (answersTree_exactly mark)).bind fun mark hmark ↦
    h.bind fun next hnext ↦ .pure (by simp [hmark, hnext])

theorem answersTree_node (kind : String) (h : AnswersTrees source r) :
    AnswersTree source (node kind r) :=
  h.bind fun _ hts ↦ .pure (neat_branch hts)

theorem answersTrees_between (left right : String) (h : AnswersTrees source r) :
    AnswersTrees source (between left right r) :=
  (answersTree_exactly left).bind fun _ hleft ↦ h.bind fun _ hinner ↦
    (answersTree_exactly right).bind fun _ hright ↦ .pure (by simp [hleft, hinner, hright])

end

/-! ## Names, types and expressions -/

theorem answersTree_identifier : AnswersTree source identifier := answersTree_leafOf _ _

theorem answersTree_predefinedType : AnswersTree source predefinedType := answersTree_leafOf _ _

theorem answersTree_aliasQualifiedName : AnswersTree source aliasQualifiedName := by
  refine answersTree_node _ ?_
  refine (answersTree_node _ (answersTrees_single (answersTree_exactly _))).bind fun _ hstart ↦ ?_
  exact (answersTree_exactly _).bind fun _ hmark ↦ answersTree_identifier.bind fun _ hname ↦
    .pure (by simp [hstart, hmark, hname])

theorem answersTree_typeSuffixes {type : ConcreteTree} (h : Neat source type) (n : Nat) :
    AnswersTree source (typeSuffixes type n) := by
  induction n generalizing type with
  | zero => exact .pure h
  | succ n ih =>
    have hnullable : AnswersTree source (do
        let mark ← exactly "?"
        typeSuffixes (branch "nullable_type" [type, mark]) n) :=
      (answersTree_exactly _).bind fun _ hmark ↦ ih (neat_branch (by simp [h, hmark]))
    have harray : AnswersTree source (do
        let rank ← node "array_rank_specifier"
          (between "[" "]" (repeatedly (single (exactly ","))))
        typeSuffixes (branch "array_type" [type, rank]) n) :=
      (answersTree_node _ (answersTrees_between _ _ (answersTrees_repeatedly
        (answersTrees_single (answersTree_exactly _))))).bind fun _ hrank ↦
          ih (neat_branch (by simp [h, hrank]))
    exact hnullable.orElse (harray.orElse (.pure h))

theorem answersTree_moreSegments {segment : Rule ConcreteTree} {name : ConcreteTree}
    (hsegment : AnswersTree source segment) (h : Neat source name) (n : Nat) :
    AnswersTree source (moreSegments segment name n) := by
  induction n generalizing name with
  | zero => exact .pure h
  | succ n ih =>
    refine ((answersTree_exactly _).bind fun dot hdot ↦ hsegment.bind fun next hnext ↦ ?_).orElse
      (.pure h)
    exact ih (neat_branch (by simp [h, hdot, hnext]))

mutual

theorem answersTree_name : ∀ depth, AnswersTree source (name depth)
  | 0 => .failure
  | depth + 1 => by
    have hgeneric : AnswersTree source (node "generic_name" do
        let head ← identifier
        let arguments ← node "type_argument_list"
          (between "<" ">" (separated "," (single (type depth))))
        return [head, arguments]) :=
      answersTree_node _ <| answersTree_identifier.bind fun _ hhead ↦
        (answersTree_node _ (answersTrees_between _ _ (answersTrees_separated _
          (answersTrees_single (answersTree_type depth))))).bind fun _ harguments ↦
            .pure (by simp [hhead, harguments])
    have hsegment := hgeneric.orElse answersTree_identifier
    exact (answersTree_aliasQualifiedName.orElse hsegment).bind fun _ hfirst ↦
      Answers.get.bind fun ls _ ↦ answersTree_moreSegments hsegment hfirst ls.length
termination_by structural depth => depth

theorem answersTree_type : ∀ depth, AnswersTree source (type depth)
  | 0 => .failure
  | depth + 1 =>
    (answersTree_predefinedType.orElse (answersTree_name depth)).bind fun _ hcore ↦
      Answers.get.bind fun ls _ ↦ answersTree_typeSuffixes hcore ls.length
termination_by structural depth => depth

end

theorem allNeat_literalParts {start : Nat} {cs : List Char} (h : StandsAt source start cs)
    (n : Nat) : AllNeat source (literalParts n cs start) := by
  fun_induction literalParts n cs start with
  | case1 cs start => exact allNeat_nil
  | case2 n start => exact allNeat_nil
  | case3 n c cs start stop ih =>
    have hrest : StandsAt source stop cs := h.tail.tail
    exact allNeat_cons.2 ⟨neat_leaf h.isBoundary hrest.isBoundary, ih hrest⟩
  | case4 n cs start hne hescape plain hempty => exact allNeat_nil
  | case5 n cs start hne hescape plain hempty stop ih =>
    have hplain : plain ++ cs.drop plain.length = cs :=
      List.prefix_iff_eq_append.1 (List.takeWhile_prefix _)
    rw [← hplain] at h
    exact allNeat_cons.2 ⟨neat_leaf h.isBoundary h.append.2.isBoundary, ih h.append.2⟩

theorem answersTree_stringLiteral : AnswersTree source stringLiteral := by
  refine (Answers.lexemeWhere _).bind fun l ⟨hl, hstring⟩ ↦ .pure (neat_branch ?_)
  obtain ⟨inner, hinner⟩ := hl.quoted (beq_iff_eq.1 hstring)
  have hstands := hl.standsAt
  rw [hinner] at hstands
  have hbehind : StandsAt source (l.start + 1) (inner ++ ['"']) := hstands.tail
  obtain ⟨hparts, hclose⟩ := hbehind.append
  have hsize : l.text.utf8ByteSize = 1 + ((String.ofList inner).utf8ByteSize + 1) := by
    rw [← String.ofList_toList (s := l.text), hinner, String.ofList_cons, String.ofList_append,
      String.utf8ByteSize_append, String.utf8ByteSize_append]
    rfl
  have hstop : l.stop - 1 = l.start + 1 + (String.ofList inner).utf8ByteSize := by
    rw [Lexeme.stop, hsize]
    omega
  have hends : ((l.text.toList.drop 1).dropLast) = inner := by
    rw [hinner, List.drop_one, List.tail_cons, List.dropLast_concat]
  rw [hends, hstop]
  simp [allNeat_literalParts hparts, neat_leaf hstands.isBoundary hparts.isBoundary,
    neat_leaf hclose.isBoundary hl.isBoundary_stop]

theorem answersTree_expression (depth : Nat) : AnswersTree source (expression depth) := by
  have hcreation : AnswersTree source (node "object_creation_expression" do
      let keyword ← exactly "new"
      let created ← type depth
      return [keyword, created, ← node "argument_list" (between "(" ")" (pure []))]) :=
    answersTree_node _ <| (answersTree_exactly _).bind fun _ hkeyword ↦
      (answersTree_type depth).bind fun _ hcreated ↦
        (answersTree_node _ (answersTrees_between _ _ (.pure allNeat_nil))).bind fun _ harguments ↦
          .pure (by simp [hkeyword, hcreated, harguments])
  have hboolean : AnswersTree source
      (node "boolean_literal" (single (exactly "true" <|> exactly "false"))) :=
    answersTree_node _ (answersTrees_single
      ((answersTree_exactly _).orElse (answersTree_exactly _)))
  exact (answersTree_leafOf _ _).orElse <| answersTree_stringLiteral.orElse <|
    (answersTree_leafOf _ _).orElse <| hboolean.orElse <| hcreation.orElse answersTree_identifier

/-! ## Parts of declarations -/

theorem answersTree_attributeList (depth : Nat) : AnswersTree source (attributeList depth) := by
  have hargument : AnswersTrees source
      (single (node "attribute_argument" (single (expression depth)))) :=
    answersTrees_single (answersTree_node _ (answersTrees_single (answersTree_expression depth)))
  refine answersTree_node _ (answersTrees_between _ _ (answersTrees_separated _
    (answersTrees_single (answersTree_node _ ?_))))
  refine (answersTree_name depth).bind fun head hhead ↦ (answersTrees_optionally ?_).bind
    fun arguments harguments ↦ .pure (by simp [hhead, harguments])
  exact answersTrees_single (answersTree_node _ (answersTrees_between _ _
    (answersTrees_optionally (answersTrees_separated _ hargument))))

theorem answersTree_modifier : AnswersTree source modifier :=
  (Answers.lexemeWhere _).bind fun l hl ↦ Answers.ahead.bind fun _ _ ↦
    .pure (neat_branch (by simp [neat_leafOf l.text hl.1]))

theorem answersTrees_preamble (depth : Nat) : AnswersTrees source (preamble depth) :=
  (answersTrees_repeatedly (answersTrees_single (answersTree_attributeList depth))).bind
    fun _ hlists ↦ (answersTrees_repeatedly (answersTrees_single answersTree_modifier)).bind
      fun _ hmodifiers ↦ .pure (by simp [hlists, hmodifiers])

theorem answersTrees_initializer (depth : Nat) : AnswersTrees source (initializer depth) :=
  (answersTree_exactly _).bind fun _ hmark ↦ (answersTree_expression depth).bind
    fun _ hvalue ↦ .pure (by simp [hmark, hvalue])

theorem answersTree_variableDeclaration (depth : Nat) :
    AnswersTree source (variableDeclaration depth) := by
  refine answersTree_node _ <| (answersTree_type depth).bind fun declared hdeclared ↦
    (answersTrees_separated _ (answersTrees_single (answersTree_node _ ?_))).bind
      fun declarators hdeclarators ↦ .pure (by simp [hdeclared, hdeclarators])
  exact answersTree_identifier.bind fun name hname ↦
    (answersTrees_optionally (answersTrees_initializer depth)).bind
      fun value hvalue ↦ .pure (by simp [hname, hvalue])

theorem answersTree_parameterList (depth : Nat) : AnswersTree source (parameterList depth) := by
  refine answersTree_node _ (answersTrees_between _ _ (answersTrees_optionally
    (answersTrees_separated _ (answersTrees_single (answersTree_node _ ?_)))))
  exact (answersTree_type depth).bind fun type htype ↦ answersTree_identifier.bind
    fun name hname ↦ .pure (by simp [htype, hname])

theorem answersTree_typeParameterList : AnswersTree source typeParameterList :=
  answersTree_node _ (answersTrees_between _ _ (answersTrees_separated _ (answersTrees_single
    (answersTree_node _ (answersTrees_single answersTree_identifier)))))

theorem answersTree_baseList (depth : Nat) : AnswersTree source (baseList depth) :=
  answersTree_node _ <| (answersTree_exactly _).bind fun _ hmark ↦
    (answersTrees_separated _ (answersTrees_single (answersTree_type depth))).bind
      fun _ htypes ↦ .pure (by simp [hmark, htypes])

theorem answersTree_statement (depth : Nat) : AnswersTree source (statement depth) := by
  have hreturn : AnswersTree source (node "return_statement" do
      let keyword ← exactly "return"
      let value ← optionally (single (expression depth))
      return keyword :: value ++ [← exactly ";"]) :=
    answersTree_node _ <| (answersTree_exactly _).bind fun _ hkeyword ↦
      (answersTrees_optionally (answersTrees_single (answersTree_expression depth))).bind
        fun _ hvalue ↦ (answersTree_exactly _).bind
          fun _ hend ↦ .pure (by simp [hkeyword, hvalue, hend])
  refine hreturn.orElse <| answersTree_node _ <| (answersTree_variableDeclaration depth).bind
    fun declared hdeclared ↦ (answersTree_exactly _).bind
      fun stop hend ↦ .pure (by simp [hdeclared, hend])

theorem answersTree_block (depth : Nat) : AnswersTree source (block depth) :=
  answersTree_node _ (answersTrees_between _ _ (answersTrees_repeatedly
    (answersTrees_single (answersTree_statement depth))))

/-! ## Members -/

section

variable {front : Trees}

theorem answersTree_accessorList (depth : Nat) : AnswersTree source (accessorList depth) := by
  have hkeyword : AnswersTree source (exactly "get" <|> exactly "set" <|> exactly "init") :=
    (answersTree_exactly _).orElse ((answersTree_exactly _).orElse (answersTree_exactly _))
  have hbody : AnswersTree source (exactly ";" <|> block depth) :=
    (answersTree_exactly _).orElse (answersTree_block depth)
  refine answersTree_node _ (answersTrees_between _ _ (answersTrees_repeatedly
    (answersTrees_single (answersTree_node _ ?_))))
  exact (answersTrees_preamble depth).bind fun front hfront ↦ hkeyword.bind
    fun keyword hkeyword ↦ hbody.bind fun body hbody ↦ .pure (by simp [hfront, hkeyword, hbody])

theorem answersTree_member (depth : Nat) (hfront : AllNeat source front) :
    AnswersTree source (member depth front) := by
  have hevent : AnswersTree source (node Kind.eventFieldDeclaration do
      let keyword ← exactly "event"
      let declaration ← variableDeclaration depth
      return front ++ [keyword, declaration, ← exactly ";"]) :=
    answersTree_node _ <| (answersTree_exactly _).bind fun _ hkeyword ↦
      (answersTree_variableDeclaration depth).bind fun _ hdeclaration ↦
        (answersTree_exactly _).bind fun _ hend ↦
          .pure (by simp [hfront, hkeyword, hdeclaration, hend])
  have hconstructor : AnswersTree source (node "constructor_declaration" do
      let introduced ← identifier
      let parameters ← parameterList depth
      return front ++ [introduced, parameters, ← block depth]) :=
    answersTree_node _ <| answersTree_identifier.bind fun _ hname ↦
      (answersTree_parameterList depth).bind fun _ hparameters ↦
        (answersTree_block depth).bind fun _ hbody ↦
          .pure (by simp [hfront, hname, hparameters, hbody])
  have hmethod : AnswersTree source (node Kind.methodDeclaration do
      let result ← type depth
      let introduced ← identifier
      let parameters ← parameterList depth
      return front ++ [result, introduced, parameters, ← block depth]) :=
    answersTree_node _ <| (answersTree_type depth).bind fun _ hresult ↦
      answersTree_identifier.bind fun _ hname ↦ (answersTree_parameterList depth).bind
        fun _ hparameters ↦ (answersTree_block depth).bind fun _ hbody ↦
          .pure (by simp [hfront, hresult, hname, hparameters, hbody])
  have hproperty : AnswersTree source (node Kind.propertyDeclaration do
      let result ← type depth
      let introduced ← identifier
      return front ++ [result, introduced, ← accessorList depth]) :=
    answersTree_node _ <| (answersTree_type depth).bind fun _ hresult ↦
      answersTree_identifier.bind fun _ hname ↦ (answersTree_accessorList depth).bind
        fun _ haccessors ↦ .pure (by simp [hfront, hresult, hname, haccessors])
  have hfield : AnswersTree source (node Kind.fieldDeclaration do
      let declaration ← variableDeclaration depth
      return front ++ [declaration, ← exactly ";"]) :=
    answersTree_node _ <| (answersTree_variableDeclaration depth).bind fun _ hdeclaration ↦
      (answersTree_exactly _).bind fun _ hend ↦ .pure (by simp [hfront, hdeclaration, hend])
  exact hevent.orElse <| hconstructor.orElse <| hmethod.orElse <| hproperty.orElse hfield

theorem answersTree_delegateDeclaration (depth : Nat) (hfront : AllNeat source front) :
    AnswersTree source (delegateDeclaration depth front) :=
  answersTree_node _ <| (answersTree_exactly _).bind fun _ hkeyword ↦
    (answersTree_type depth).bind fun _ hresult ↦ answersTree_identifier.bind fun _ hname ↦
      (answersTree_parameterList depth).bind fun _ hparameters ↦
        (answersTree_exactly _).bind fun _ hend ↦
          .pure (by simp [hfront, hkeyword, hresult, hname, hparameters, hend])

theorem answersTree_enumDeclaration (depth : Nat) (hfront : AllNeat source front) :
    AnswersTree source (enumDeclaration depth front) := by
  have hlists : AnswersTrees source (repeatedly (single (attributeList depth))) :=
    answersTrees_repeatedly (answersTrees_single (answersTree_attributeList depth))
  have hbases : AnswersTrees source (optionally (single (baseList depth))) :=
    answersTrees_optionally (answersTrees_single (answersTree_baseList depth))
  refine answersTree_node _ <| (answersTree_exactly _).bind fun keyword hkeyword ↦
    answersTree_identifier.bind fun name hname ↦ hbases.bind fun bases hbases ↦
      (answersTree_node _ (answersTrees_between _ _ (answersTrees_optionally ?_))).bind
        fun body hbody ↦ .pure (by simp [hfront, hkeyword, hname, hbases, hbody])
  refine (answersTrees_separated _ (answersTrees_single (answersTree_node _ ?_))).bind
    fun values hvalues ↦ (answersTrees_optionally (answersTrees_single
      (answersTree_exactly _))).bind fun last hlast ↦ .pure (by simp [hvalues, hlast])
  exact hlists.bind fun lists hlists ↦ answersTree_identifier.bind fun name hname ↦
    (answersTrees_optionally (answersTrees_initializer depth)).bind
      fun value hvalue ↦ .pure (by simp [hlists, hname, hvalue])

end

/-! ## Types and namespaces -/

theorem answersTrees_typeHead (depth : Nat) {parameters : Rule Trees}
    (h : AnswersTrees source parameters) : AnswersTrees source (typeHead depth parameters) :=
  answersTree_identifier.bind fun _ hname ↦
    (answersTrees_optionally (answersTrees_single answersTree_typeParameterList)).bind
      fun _ hgeneric ↦ h.bind fun _ hprimary ↦
        (answersTrees_optionally (answersTrees_single (answersTree_baseList depth))).bind
          fun _ hbases ↦ .pure (by simp [hname, hgeneric, hprimary, hbases])

theorem answersTree_usingDirective (depth : Nat) : AnswersTree source (usingDirective depth) := by
  have halias : AnswersTrees source (do
      let introduced ← identifier
      return [introduced, ← exactly "="]) :=
    answersTree_identifier.bind fun _ hname ↦ (answersTree_exactly _).bind
      fun _ hmark ↦ .pure (by simp [hname, hmark])
  have hsort := (answersTrees_single (answersTree_exactly "static")).orElse halias
  exact answersTree_node _ <|
    (answersTrees_optionally (answersTrees_single (answersTree_exactly _))).bind fun _ hfront ↦
      (answersTree_exactly _).bind fun _ hkeyword ↦ (answersTrees_optionally hsort).bind
        fun _ hsort ↦ (answersTree_name depth).bind fun _ htarget ↦
          (answersTree_exactly _).bind fun _ hend ↦
            .pure (by simp [hfront, hkeyword, hsort, htarget, hend])

/-- **Declarations.** -/
theorem answersTree_declaration (depth : Nat) : AnswersTree source (declaration depth) := by
  induction depth with
  | zero => exact .failure
  | succ depth ih =>
    unfold declaration
    extract_lets body classLike record space
    have hbody : AnswersTree source body := answersTree_node _ (answersTrees_between _ _
      (answersTrees_repeatedly (answersTrees_single ih)))
    have hclass (kind keyword : String) {front : Trees} (hfront : AllNeat source front) :
        AnswersTree source (classLike kind keyword front) :=
      answersTree_node _ <| (answersTree_exactly _).bind fun _ hkeyword ↦
        (answersTrees_typeHead depth (.pure allNeat_nil)).bind fun _ hhead ↦
          hbody.bind fun _ hbody ↦ .pure (by simp [hfront, hkeyword, hhead, hbody])
    have hrecord {front : Trees} (hfront : AllNeat source front) :
        AnswersTree source (record front) :=
      answersTree_node _ <| (answersTree_exactly _).bind fun _ hkeyword ↦
        (answersTrees_optionally (answersTrees_single
          ((answersTree_exactly _).orElse (answersTree_exactly _)))).bind fun _ hsort ↦
            (answersTrees_typeHead depth (answersTrees_optionally (answersTrees_single
              (answersTree_parameterList depth)))).bind fun _ hhead ↦
                ((answersTree_exactly _).orElse hbody).bind fun _ hbody ↦
                  .pure (by simp [hfront, hkeyword, hsort, hhead, hbody])
    have hspace : AnswersTree source space := by
      refine (answersTree_node _ ?_).orElse (answersTree_node _ ?_)
      · exact (answersTree_exactly _).bind fun _ hkeyword ↦ (answersTree_name depth).bind
          fun _ hname ↦ hbody.bind fun _ hbody ↦ .pure (by simp [hkeyword, hname, hbody])
      · exact (answersTree_exactly _).bind fun _ hkeyword ↦ (answersTree_name depth).bind
          fun _ hname ↦ (answersTree_exactly _).bind
            fun _ hend ↦ .pure (by simp [hkeyword, hname, hend])
    refine hspace.orElse <| (answersTree_usingDirective depth).orElse <|
      (answersTrees_preamble depth).bind fun front hfront ↦ ?_
    exact (hclass _ _ hfront).orElse <| (hclass _ _ hfront).orElse <|
      (hclass _ _ hfront).orElse <| (answersTree_enumDeclaration depth hfront).orElse <|
        (answersTree_delegateDeclaration depth hfront).orElse <|
          (hrecord hfront).orElse (answersTree_member depth hfront)

/-! ## Leaves over lexemes -/

theorem allNeat_map_leafOf (kind : Lexeme → String) {ls : List Lexeme}
    (h : ∀ l ∈ ls, l.Cut source) : AllNeat source (ls.map fun l ↦ leafOf (kind l) l) := by
  induction ls with
  | nil => exact allNeat_nil
  | cons l ls ih =>
    obtain ⟨hl, hls⟩ := List.forall_mem_cons.1 h
    exact allNeat_cons.2 ⟨neat_leafOf (kind l) hl, ih hls⟩

/-! ## Comments -/

theorem allNeat_comments {comments : List Lexeme} (h : ∀ l ∈ comments, l.Cut source) :
    AllNeat source (comments.map commentLeaf) :=
  allNeat_map_leafOf _ h

theorem placeCommentsAmong_ne_nil (t : ConcreteTree) (ts : List ConcreteTree)
    (comments : List Lexeme) : placeCommentsAmong (t :: ts) comments ≠ [] := by
  obtain ⟨kind, start, stop, children⟩ := t
  rw [placeCommentsAmong]
  exact List.append_ne_nil_of_right_ne_nil _ (List.cons_ne_nil _ _)

mutual

theorem neat_placeComments : ∀ (t : ConcreteTree) {comments : List Lexeme}, Neat source t →
    (∀ l ∈ comments, l.Cut source) → Neat source (placeComments t comments)
  | .mk _ _ _ [], [], ht, _ => ht
  | .mk _ _ _ [], _ :: _, _, hcomments =>
    neat_mk (allNeat_comments hcomments) (List.cons_ne_nil _ _)
  | .mk _ _ _ (t :: ts), comments, ht, hcomments =>
    neat_mk (allNeat_placeCommentsAmong (t :: ts) ht hcomments)
      (placeCommentsAmong_ne_nil t ts comments)
termination_by structural t => t

theorem allNeat_placeCommentsAmong : ∀ (ts : List ConcreteTree) {comments : List Lexeme},
    AllNeat source ts → (∀ l ∈ comments, l.Cut source) →
      AllNeat source (placeCommentsAmong ts comments)
  | [], comments, _, hcomments => allNeat_comments hcomments
  | .mk kind start stop children :: ts, comments, hts, hcomments => by
    obtain ⟨ht, hts⟩ := allNeat_cons.1 hts
    -- the comments before, inside and behind the tree are all comments of the source
    rw [placeCommentsAmong]
    simp only [List.span_eq_takeWhile_dropWhile]
    set others := comments.dropWhile fun l ↦ decide (l.start < start)
    have hothers : ∀ l ∈ others, l.Cut source := fun l hl ↦
      hcomments l ((List.dropWhile_sublist _).subset hl)
    refine allNeat_append.2 ⟨allNeat_comments fun l hl ↦ ?_, allNeat_cons.2 ⟨?_, ?_⟩⟩
    · exact hcomments l ((List.takeWhile_sublist _).subset hl)
    · exact neat_placeComments _ ht fun l hl ↦ hothers l ((List.takeWhile_sublist _).subset hl)
    · exact allNeat_placeCommentsAmong ts hts fun l hl ↦
        hothers l ((List.dropWhile_sublist _).subset hl)
termination_by structural ts => ts

end

/-! ## Sources -/

theorem allNeat_concreteTree (source : String) : AllNeat source (concreteTree source).children := by
  have hall : ∀ l ∈ lexemes source, l.Cut source := fun l ↦ cut_of_mem_lexemes
  have hcomments : ∀ l ∈ (lexemes source).filter fun l ↦ l.sort == .comment, l.Cut source :=
    fun l hl ↦ hall l (List.mem_filter.1 hl).1
  have hread : ∀ l ∈ (lexemes source).filter fun l ↦ l.sort != .comment, l.Cut source :=
    fun l hl ↦ hall l (List.mem_filter.1 hl).1
  simp only [concreteTree]
  split
  · next ts hts =>
    refine allNeat_placeCommentsAmong ts ?_ hcomments
    exact (answersTrees_repeatedly (answersTrees_single (answersTree_declaration _))
      _ ts [] hread hts).1
  · exact allNeat_map_leafOf _ hall

/-- **The parser is sound.** -/
theorem parser_sound : parser.Sound where
  total _ := rfl
  fits h := by
    cases h
    exact allNeat_concreteTree _

end CSharp

end CodeFix
