import CodeFix.Proofs.Semantic.TypeSpelling
import CodeFix.Semantic.Symbol

/-!
# Reducing the spelling of a type

Reducing a spelling looks at characters only. The suffixes are taken off from the right and belong
to the outermost type, whatever stands in type arguments, because those are closed by an angle
bracket before any suffix of the outer type (`stripSuffixes_spec`). Of the name, all is dropped from
the first angle bracket on, so what is found is the first segment that has type arguments, or the
last one if none has (`QualifiedName.readName`). That is the last segment exactly as long as only
that one has arguments: a type that is declared inside of a generic type is taken for the outer one
(`parse_inner_type`).
-/

namespace CodeFix

variable {q : QualifiedName} {t : TypeSpelling} {text : List Char}

/-! ## Two spellings -/

/-- The type `Demo.Foo<int[]>?`. -/
def TypeSpelling.nullableFoo : TypeSpelling :=
  let demo : Identifier := ⟨"Demo".toList, by decide, by simp [punctuation]⟩
  let foo : Identifier := ⟨"Foo".toList, by decide, by simp [punctuation]⟩
  let int : Identifier := ⟨"int".toList, by decide, by simp [punctuation]⟩
  .nullable (.named ⟨none, ⟨demo, []⟩, [⟨foo, [.array (.named ⟨none, ⟨int, []⟩, []⟩) 0]⟩]⟩)

/-- The type `A<B>.C`. -/
def TypeSpelling.innerType : TypeSpelling :=
  let a : Identifier := ⟨"A".toList, by decide, by simp [punctuation]⟩
  let b : Identifier := ⟨"B".toList, by decide, by simp [punctuation]⟩
  let c : Identifier := ⟨"C".toList, by decide, by simp [punctuation]⟩
  .named ⟨none, ⟨a, [.named ⟨none, ⟨b, []⟩, []⟩]⟩, [⟨c, []⟩]⟩

/-! ## Suffixes -/

namespace TypeName

theorem stripSuffixes_questionMark (rest : List Char) (array nullable : Bool) :
    stripSuffixes ('?' :: rest) array nullable =
      stripSuffixes (rest.dropWhile Text.isBlank) array true := by
  rw [stripSuffixes, if_pos rfl]

theorem beforeBracket?_append {between : List Char} (h : '[' ∉ between) (before : List Char) :
    beforeBracket? (between ++ '[' :: before) = some before := by
  induction between with
  | nil => rw [List.nil_append, beforeBracket?, if_pos rfl]
  | cons c between ih =>
    rw [List.mem_cons, not_or] at h
    rw [List.cons_append, beforeBracket?, if_neg (Ne.symm h.1), ih h.2]

theorem stripSuffixes_brackets {between : List Char} (h : '[' ∉ between) (before : List Char)
    (array nullable : Bool) :
    stripSuffixes (']' :: between ++ '[' :: before) array nullable =
      stripSuffixes (before.dropWhile Text.isBlank) true nullable := by
  have hbefore : beforeBracket? (']' :: between ++ '[' :: before) = some before :=
    beforeBracket?_append (by simpa using h) before
  rw [List.cons_append] at hbefore ⊢
  rw [stripSuffixes, if_neg (by decide), if_pos rfl]
  split
  · next found hfound =>
    cases hbefore.symm.trans hfound
    rfl
  · next hnone => cases hbefore.symm.trans hnone

theorem stripSuffixes_of_ne {c : Char} (hmark : c ≠ '?') (hbracket : c ≠ ']') (rest : List Char)
    (array nullable : Bool) :
    stripSuffixes (c :: rest) array nullable = (c :: rest, array, nullable) := by
  rw [stripSuffixes, if_neg hmark, if_neg hbracket]

theorem stripSuffixes_of_qualifiedName (h : Text.Spaced q.tokens text) (array nullable : Bool) :
    stripSuffixes (text.reverse.dropWhile Text.isBlank) array nullable =
      (text.reverse.dropWhile Text.isBlank, array, nullable) := by
  obtain ⟨front, last, htokens, hmark, hbracket⟩ := q.exists_last
  have hsolid : Text.Solid last := q.solid_tokens last (by simp [htokens])
  rw [htokens] at h
  obtain ⟨before, after, rfl, -, hafter⟩ := Text.Spaced.append_iff.1 h
  obtain ⟨gap, gap', rfl, -, hgap'⟩ := Text.Spaced.singleton_iff.1 hafter
  rw [List.reverse_append, List.reverse_append, List.append_assoc, hgap'.reverse.dropWhile_append,
    List.reverse_append, List.append_assoc, hsolid.reverse.dropWhile_append]
  -- what is left begins with the last character of the name
  cases hlast : last.reverse with
  | nil => exact absurd hlast hsolid.reverse.1
  | cons c cs =>
    have hc : c ∈ last := List.mem_reverse.1 (hlast ▸ List.mem_cons_self)
    exact stripSuffixes_of_ne (fun h ↦ hmark (h ▸ hc)) (fun h ↦ hbracket (h ▸ hc)) _ _ _

/-- **Suffixes** are those of the outermost type. -/
theorem stripSuffixes_spec (h : Text.Spaced t.tokens text) (array nullable : Bool) :
    ∃ name, Text.Spaced t.core.tokens name ∧
      stripSuffixes (text.reverse.dropWhile Text.isBlank) array nullable =
        (name.reverse.dropWhile Text.isBlank, array || t.hasBrackets,
          nullable || t.hasQuestionMark) := by
  induction t using TypeSpelling.induction generalizing text array nullable with
  | named q =>
    rw [TypeSpelling.tokens] at h
    refine ⟨text, h, ?_⟩
    rw [stripSuffixes_of_qualifiedName h, TypeSpelling.hasBrackets, TypeSpelling.hasQuestionMark,
      Bool.or_false, Bool.or_false]
  | nullable inner ih =>
    rw [TypeSpelling.tokens] at h
    obtain ⟨before, after, rfl, hbefore, hafter⟩ := Text.Spaced.append_iff.1 h
    obtain ⟨gap, gap', rfl, hgap, hgap'⟩ := Text.Spaced.singleton_iff.1 hafter
    obtain ⟨name, hname, hstrip⟩ := ih hbefore array true
    refine ⟨name, hname, ?_⟩
    have hreverse : (before ++ (gap ++ ['?'] ++ gap')).reverse =
        gap'.reverse ++ (['?'] ++ (gap.reverse ++ before.reverse)) := by simp
    have hmark : Text.Solid ['?'] := by decide
    rw [hreverse, hgap'.reverse.dropWhile_append, hmark.dropWhile_append, List.singleton_append,
      stripSuffixes_questionMark, hgap.reverse.dropWhile_append, hstrip,
      TypeSpelling.hasBrackets, TypeSpelling.hasQuestionMark, Bool.true_or, Bool.or_true]
  | array inner commas ih =>
    rw [TypeSpelling.tokens] at h
    obtain ⟨before, after, rfl, hbefore, hafter⟩ := Text.Spaced.append_iff.1 h
    obtain ⟨gap, rest, rfl, hgap, hrest⟩ := hafter.exists_cons
    obtain ⟨between, last, rfl, hbetween, hlast⟩ := Text.Spaced.append_iff.1 hrest
    obtain ⟨gap₁, gap₂, rfl, hgap₁, hgap₂⟩ := Text.Spaced.singleton_iff.1 hlast
    obtain ⟨name, hname, hstrip⟩ := ih hbefore true nullable
    refine ⟨name, hname, ?_⟩
    have hreverse : (before ++ (gap ++ ['['] ++ (between ++ (gap₁ ++ [']'] ++ gap₂)))).reverse =
        gap₂.reverse ++ ([']'] ++ ((between ++ gap₁).reverse ++
          '[' :: (gap.reverse ++ before.reverse))) := by simp
    -- between the brackets there are commas and blanks only
    have hopen : '[' ∉ (between ++ gap₁).reverse := by
      rw [List.mem_reverse, List.mem_append, not_or]
      refine ⟨hbetween.not_mem (by decide) fun token htoken ↦ ?_, fun hmem ↦ ?_⟩
      · rw [List.eq_of_mem_replicate htoken]
        decide
      · exact hgap₁.not_mem (by decide) hmem
    have hclose : Text.Solid [']'] := by decide
    rw [hreverse, hgap₂.reverse.dropWhile_append, hclose.dropWhile_append, List.singleton_append,
      ← List.cons_append, stripSuffixes_brackets hopen, hgap.reverse.dropWhile_append, hstrip,
      TypeSpelling.hasBrackets, TypeSpelling.hasQuestionMark, Bool.true_or, Bool.or_true]

/-! ## The name -/

theorem afterColons_of_not_mem {cs : List Char} (h : ':' ∉ cs) (kept : List Char) :
    afterColons kept cs = kept := by
  induction cs with
  | nil => rfl
  | cons c cs ih =>
    rw [List.mem_cons, not_or] at h
    rw [afterColons]
    · exact ih h.2
    · exact fun _ hc ↦ absurd hc.symm h.1

theorem afterColons_append {before after : List Char} (hbefore : ':' ∉ before)
    (hafter : ':' ∉ after) (kept : List Char) :
    afterColons kept (before ++ ':' :: ':' :: after) = after := by
  induction before with
  | nil =>
    rw [List.nil_append, afterColons, afterColons]
    · exact afterColons_of_not_mem hafter after
    · exact fun _ _ hrest ↦ hafter (hrest ▸ List.mem_cons_self)
  | cons c before ih =>
    rw [List.mem_cons, not_or] at hbefore
    rw [List.cons_append, afterColons]
    · exact ih hbefore.2
    · exact fun _ hc ↦ absurd hc.symm hbefore.1

theorem afterDot_of_not_mem {cs : List Char} (h : '.' ∉ cs) : afterDot cs = cs := by
  have hall : cs.reverse.takeWhile (· != '.') = cs.reverse :=
    List.takeWhile_eq_self_iff.2 fun c hc ↦
      bne_iff_ne.2 fun heq ↦ h (heq ▸ List.mem_reverse.1 hc)
  rw [afterDot, hall, List.reverse_reverse]

theorem afterDot_append (before : List Char) {after : List Char} (h : '.' ∉ after) :
    afterDot (before ++ '.' :: after) = after := by
  have hall : ∀ c ∈ after.reverse, (c != '.') = true := fun c hc ↦
    bne_iff_ne.2 fun heq ↦ h (heq ▸ List.mem_reverse.1 hc)
  have hstop : List.takeWhile (· != '.') ('.' :: before.reverse) = [] :=
    List.takeWhile_cons_of_neg (by simp)
  rw [afterDot, List.reverse_append, List.reverse_cons, List.append_assoc, List.singleton_append,
    List.takeWhile_append_of_pos hall, hstop, List.append_nil, List.reverse_reverse]

/-- Cutting at the first angle bracket cuts the run of tokens there. -/
theorem spaced_cut {front behind : List (List Char)} (h : Text.Spaced (front ++ behind) text)
    (hsolid : ∀ token ∈ front, Text.Solid token) (hopen : ∀ token ∈ front, '<' ∉ token)
    (hbehind : behind = [] ∨ ∃ behind', behind = ['<'] :: behind') :
    Text.Spaced front
      (if text.contains '<' then Text.trimEndChars (text.takeWhile (· != '<')) else text) := by
  obtain ⟨before, after, rfl, hbefore, hafter⟩ := Text.Spaced.append_iff.1 h
  have hclosed : '<' ∉ before := hbefore.not_mem (by decide) hopen
  rcases hbehind with rfl | ⟨behind', rfl⟩
  · have hnone : '<' ∉ before ++ after := by
      exact fun hmem ↦ (List.mem_append.1 hmem).elim hclosed (hafter.blank.not_mem (by decide))
    rw [List.append_nil] at h
    rwa [if_neg (by rwa [List.contains_iff_mem])]
  · obtain ⟨gap, rest, rfl, hgap, -⟩ := hafter.exists_cons
    have hkept : ∀ c ∈ before ++ gap, (c != '<') = true := by
      refine fun c hc ↦ bne_iff_ne.2 fun heq ↦ ?_
      subst heq
      refine (List.mem_append.1 hc).elim hclosed fun hmem ↦ ?_
      exact hgap.not_mem (by decide) hmem
    have htext : before ++ (gap ++ ['<'] ++ rest) = before ++ gap ++ '<' :: rest := by simp
    have hstop : List.takeWhile (· != '<') ('<' :: rest) = [] :=
      List.takeWhile_cons_of_neg (by simp)
    have hfront : Text.Spaced front (before ++ gap) := by
      rw [← List.append_nil front]
      exact Text.Spaced.append_iff.2 ⟨before, gap, rfl, hbefore, .nil hgap⟩
    rw [htext, if_pos (by simp), List.takeWhile_append_of_pos hkept, hstop, List.append_nil]
    exact hfront.trimEnd hsolid

theorem spaced_afterColons {tokens : List (List Char)} (htokens : ∀ token ∈ tokens, ':' ∉ token)
    (h : Text.Spaced (q.qualifierTokens ++ tokens) text) :
    Text.Spaced tokens (afterColons text text) := by
  obtain ⟨before, after, rfl, hbefore, hafter⟩ := Text.Spaced.append_iff.1 h
  have hclean : ':' ∉ after := hafter.not_mem (by decide) htokens
  obtain ⟨qualifier, first, rest⟩ := q
  cases qualifier with
  | none =>
    have hblank : Text.Blank before := hbefore.blank
    have hcolons : ':' ∉ before := hblank.not_mem (by decide)
    rw [afterColons_of_not_mem fun hmem ↦ (List.mem_append.1 hmem).elim hcolons hclean]
    exact Text.Spaced.blank_append hblank hafter
  | some i =>
    obtain ⟨gap, rest, rfl, hgap, hrest⟩ := hbefore.exists_cons
    obtain ⟨gap₁, gap₂, rfl, hgap₁, hgap₂⟩ := Text.Spaced.singleton_iff.1 hrest
    have hblank : ∀ {gap : List Char}, Text.Blank gap → ':' ∉ gap :=
      fun hgap ↦ hgap.not_mem (by decide)
    have hname : ':' ∉ i.text := fun hmem ↦ i.plain _ hmem (by decide)
    have htext : gap ++ i.text ++ (gap₁ ++ [':', ':'] ++ gap₂) ++ after =
        (gap ++ i.text ++ gap₁) ++ ':' :: ':' :: (gap₂ ++ after) := by simp
    rw [htext, afterColons_append (by simp [hblank hgap, hblank hgap₁, hname])
      (by simp [hblank hgap₂, hclean])]
    exact Text.Spaced.blank_append hgap₂ hafter

theorem spaced_afterDot {front : List (List Char)} (i : Identifier)
    (hfront : front = [] ∨ ∃ front', front = front' ++ [['.']])
    (h : Text.Spaced (front ++ [i.text]) text) : Text.Spaced [i.text] (afterDot text) := by
  obtain ⟨before, after, rfl, hbefore, hafter⟩ := Text.Spaced.append_iff.1 h
  have hclean : '.' ∉ after :=
    hafter.not_mem (by decide) (List.forall_mem_singleton.2 fun hmem ↦ i.plain _ hmem (by decide))
  rcases hfront with rfl | ⟨front', rfl⟩
  · have hdot : '.' ∉ before := hbefore.blank.not_mem (by decide)
    rw [afterDot_of_not_mem fun hmem ↦ (List.mem_append.1 hmem).elim hdot hclean]
    exact Text.Spaced.blank_append hbefore.blank hafter
  · obtain ⟨before, last, rfl, -, hlast⟩ := Text.Spaced.append_iff.1 hbefore
    obtain ⟨gap, gap', rfl, -, hgap'⟩ := Text.Spaced.singleton_iff.1 hlast
    have htext : before ++ (gap ++ ['.'] ++ gap') ++ after =
        (before ++ gap) ++ '.' :: (gap' ++ after) := by simp
    have hdot : '.' ∉ gap' := hgap'.not_mem (by decide)
    rw [htext, afterDot_append _ (by simp [hdot, hclean])]
    exact Text.Spaced.blank_append hgap' hafter

/-- **Of a qualified name**, the identifier of the first segment with type arguments is read, or of
the last segment if none has. -/
theorem trimChars_afterDot (h : Text.Spaced q.tokens text) :
    let cut := if text.contains '<' then Text.trimEndChars (text.takeWhile (· != '<')) else text
    Text.trimChars (afterDot (afterColons cut cut)) = q.readName.text := by
  intro cut
  obtain ⟨qualifier, first, rest⟩ := q
  obtain ⟨front, behind, htokens, hplain, hdot, hbehind⟩ := first.exists_cut rest
  have hsolid := QualifiedName.solid_tokens ⟨qualifier, first, rest⟩
  rw [QualifiedName.tokens, htokens, List.append_cons, ← List.append_assoc] at h hsolid
  have hname : ∀ c ∈ TypeSpelling.punctuation, c ∉ (first.readName rest).text :=
    fun c hc hmem ↦ Identifier.plain _ c hmem hc
  have hqualifier : ∀ token ∈ QualifiedName.qualifierTokens ⟨qualifier, first, rest⟩,
      '<' ∉ token := by
    cases qualifier with
    | none => exact fun _ h ↦ absurd h List.not_mem_nil
    | some i => exact List.forall_mem_cons.2 ⟨fun h ↦ i.plain _ h (by decide), by decide⟩
  have hopen : ∀ token ∈ QualifiedName.qualifierTokens ⟨qualifier, first, rest⟩ ++
      (front ++ [(first.readName rest).text]), '<' ∉ token :=
    List.forall_mem_append.2 ⟨hqualifier, List.forall_mem_append.2
      ⟨fun token h ↦ (hplain token h).1, List.forall_mem_singleton.2 (hname '<' (by decide))⟩⟩
  have hcolons : ∀ token ∈ front ++ [(first.readName rest).text], ':' ∉ token :=
    List.forall_mem_append.2
      ⟨fun token h ↦ (hplain token h).2, List.forall_mem_singleton.2 (hname ':' (by decide))⟩
  have hcut : Text.Spaced _ cut :=
    spaced_cut h (fun token htoken ↦ hsolid token (List.mem_append_left _ htoken)) hopen hbehind
  have hidentifier := spaced_afterDot _ hdot (spaced_afterColons hcolons hcut)
  obtain ⟨gap, gap', htext, hgap, hgap'⟩ := Text.Spaced.singleton_iff.1 hidentifier
  rw [htext, Identifier.solid _ |>.trimChars_eq hgap hgap']
  rfl

/-- **Reduction of type spellings.** Whatever is written for a type, with any blanks between the
tokens, reduces to a name. The flags say which suffixes the outermost type has, and the name is that
of the type meant if no segment in front of the last one has type arguments. -/
theorem parse_spec {spelled : String} (h : Text.Spaced t.tokens spelled.toList) :
    parse spelled =
        some ⟨String.ofList t.core.readName.text, t.hasBrackets, t.hasQuestionMark⟩ ∧
      ((∀ s ∈ t.core.segments.dropLast, s.arguments = []) → t.core.readName = t.core.lastName) := by
  have htrim : (Text.trimChars spelled.toList).reverse =
      (Text.trimStartChars spelled.toList).reverse.dropWhile Text.isBlank := List.reverse_reverse _
  obtain ⟨name, hname, hstrip⟩ := stripSuffixes_spec (h.trimStart t.solid_tokens) false false
  have hread := trimChars_afterDot (hname.trimEnd t.core.solid_tokens)
  have hne : t.core.readName.text ≠ [] := t.core.readName.solid.1
  constructor
  · rw [parse, htrim, hstrip]
    simp only [Bool.false_or]
    rw [show (name.reverse.dropWhile Text.isBlank).reverse = Text.trimEndChars name from rfl, hread,
      if_neg (by rwa [List.isEmpty_iff])]
  · cases t.core with
    | mk qualifier first rest => exact first.readName_eq rest

theorem parse_spec_nullable : Text.Spaced TypeSpelling.nullableFoo.tokens
      "Demo . Foo<int[]> ?".toList ∧
    parse "Demo . Foo<int[]> ?" = some ⟨"Foo", false, true⟩ := by
  have hspaced : Text.Spaced TypeSpelling.nullableFoo.tokens "Demo . Foo<int[]> ?".toList := by
    iterate 9 refine .of_dropWhile rfl ?_
    exact .nil Text.blank_nil
  exact ⟨hspaced, (parse_spec hspaced).1⟩

/-- A type that is declared inside of a generic one: the outer type is found. -/
theorem parse_inner_type : Text.Spaced TypeSpelling.innerType.tokens "A<B>.C".toList ∧
    TypeSpelling.innerType.core.lastName.text = "C".toList ∧
    parse "A<B>.C" = some ⟨"A", false, false⟩ := by
  refine ⟨?_, rfl, ?_⟩
  · iterate 6 refine .of_dropWhile rfl ?_
    exact .nil Text.blank_nil
  · have hstrip : stripSuffixes (Text.trimChars "A<B>.C".toList).reverse false false =
        ("C.>B<A".toList, false, false) :=
      stripSuffixes_of_ne (by decide) (by decide) _ _ _
    rw [parse, hstrip]
    rfl

end TypeName

end CodeFix
