import Oberon.Proofs.Grammar.Acceptance
import Oberon.Proofs.Syntax.Tokens
import Oberon.Proofs.Token.Idle

/-!
# Trees keep their tokens

The tokens of a derivation are those of its tree, apart from idle ones, and the tree is derived
from its own tokens too.  Main statement: parsing loses nothing but idle tokens, so two token
lists have the same tree exactly if they differ in idle tokens only, and two token lists of one
expression are the same.
-/

namespace Oberon

/-- What is derived comes from its own tokens only, and these stay in any surroundings. -/
def Rule.Exact {α : Type} (rule : Rule α) (tokens : α → List Token) : Prop :=
  ∀ ⦃ts x⦄, rule ts x → ts = tokens x ∧ ∀ t ∈ ts, t.isPlain = true

/-- What is derived is derived from its own tokens, and these are left when idle tokens are
deleted, as long as the records around are as in `inside`. -/
structure Rule.Keeps {α : Type} (rule : Rule α) (tokens : α → List Token)
    (inside : List Bool → Prop) : Prop where
  derived : ∀ ⦃ts x⦄, rule ts x → rule (tokens x) x
  condense : ∀ ⦃ts x⦄, rule ts x → ∀ ⦃records⦄, inside records → ∀ rest,
    condense records (ts ++ rest) = tokens x ++ condense records rest

section Rules

variable {α : Type} {rule : Rule α} {tokens : α → List Token} {inside : List Bool → Prop}

/-- The tokens of a tree derive it. -/
theorem Rule.Exact.derived (h : rule.Exact tokens) {ts : List Token} {x : α} (hrule : rule ts x) :
    rule (tokens x) x :=
  (h hrule).1 ▸ hrule

/-- Nothing inside an exact item is condensed. -/
theorem Rule.Exact.condense (h : rule.Exact tokens) {ts : List Token} {x : α} (hrule : rule ts x)
    (records : List Bool) (rest : List Token) :
    condense records (ts ++ rest) = tokens x ++ condense records rest := by
  rw [condense_append_of_isPlain (h hrule).2, ← (h hrule).1]

/-- What is kept exactly is kept. -/
theorem Rule.Exact.keeps (h : rule.Exact tokens) : rule.Keeps tokens inside where
  derived _ _ hrule := h.derived hrule
  condense _ _ hrule records _ rest := h.condense hrule records rest

/-- A condition on the tree does not change its tokens. -/
theorem Rule.Keeps.and (h : rule.Keeps tokens inside) (holds : α → Prop) :
    (rule.And holds).Keeps tokens inside where
  derived _ _ hrule := ⟨h.derived hrule.1, hrule.2⟩
  condense _ _ hrule := h.condense hrule.1

end Rules

namespace Grammar

open Oberon.Parser (isIdentifier)

/-! ## Combinations -/

section Combinations

variable {α : Type} {rule : Rule α} {tokens : α → List Token} {inside : List Bool → Prop}

theorem joined_cons_eq_flatMap (separator : Token) (item : List Token) (items : List (List Token)) :
    joined separator (item :: items) = item ++ items.flatMap (separator :: ·) := by
  induction items generalizing item with
  | nil => exact (List.append_nil item).symm
  | cons other items ih => 
    rw [joined_cons separator item (List.cons_ne_nil _ _), ih, List.flatMap_cons, List.cons_append]

/-- A text that begins with an item begins with a token that starts it. -/
theorem any_head?_of_starts {first : Token → Bool} (h : rule.Starts first) {ts : List Token} {x : α}
    (hrule : rule ts x) (rest : List Token) : (ts ++ rest).head?.any first = true := by
  obtain ⟨t, us, rfl, ht⟩ := h hrule
  exact ht

/-- An option has the tokens of its item or none. -/
theorem exact_optional (h : rule.Exact tokens) :
    (Optional rule).Exact fun x => x.toList.flatMap tokens := by
  intro ts x hrule
  cases hrule with
  | none => exact ⟨rfl, nofun⟩
  | some hitem =>
    dsimp only
    rw [Option.toList_some, List.flatMap_singleton]
    exact h hitem

theorem exact_behind {opening : Token} (hopening : opening.isPlain = true) (h : rule.Exact tokens) :
    (Behind opening rule).Exact fun x => opening :: tokens x := by
  intro ts x hrule
  obtain ⟨hitem⟩ := hrule
  obtain ⟨htokens, hplain⟩ := h hitem
  exact ⟨congrArg _ htokens, List.forall_mem_cons.mpr ⟨hopening, hplain⟩⟩

/-- A repetition has the tokens of its items. -/
theorem exact_repeated (h : rule.Exact tokens) :
    (Repeated rule).Exact fun xs => xs.flatMap tokens := by
  intro ts xs hrule
  induction hrule with
  | nil => exact ⟨rfl, nofun⟩
  | cons first _ ih =>
    obtain ⟨htokens, hplain⟩ := h first
    refine ⟨?_, List.forall_mem_append.mpr ⟨hplain, ih.2⟩⟩
    dsimp only at ih ⊢
    rw [List.flatMap_cons, ← htokens, ← ih.1]

/-- An operation has the token of its operator and the tokens of its operand. -/
theorem exact_operation {β ω : Type} {operator? : Token → Option ω} {combine : ω → α → β}
    {whole : β → List Token} (h : rule.Exact tokens)
    (hwhole : ∀ t operator x, operator? t = some operator →
      whole (combine operator x) = t :: tokens x ∧ t.isPlain = true) :
    (Operation operator? rule combine).Exact whole := by
  intro ts y hrule
  obtain ⟨ht, hright⟩ := hrule
  obtain ⟨rfl, hplain⟩ := h hright
  obtain ⟨htokens, hoperator⟩ := hwhole _ _ _ ht
  exact ⟨htokens.symm, List.forall_mem_cons.mpr ⟨hoperator, hplain⟩⟩

/-- A separated list has the tokens of its items, joined by the separator. -/
theorem exact_separated {separator : Token} (hseparator : separator.isPlain = true)
    (h : rule.Exact tokens) :
    (Separated separator rule).Exact fun xs => joined separator (xs.map tokens) := by
  intro ts xs hrule
  induction hrule with
  | one only => exact h only
  | cons first others ih =>
    obtain ⟨htokens, hplain⟩ := h first
    refine ⟨?_, ?_⟩
    · dsimp only at ih ⊢
      rw [List.map_cons, joined_cons, ← htokens, ← ih.1]
      cases others <;> exact List.cons_ne_nil _ _
    · exact List.forall_mem_append.mpr ⟨hplain, List.forall_mem_cons.mpr ⟨hseparator, ih.2⟩⟩

/-- What is left out of an item is left out of the option. -/
theorem keeps_optional (h : rule.Keeps tokens inside) :
    (Optional rule).Keeps (fun x => x.toList.flatMap tokens) inside where
  derived ts x hrule := by
    cases hrule with
    | none => exact .none
    | some hitem =>
      rw [Option.toList_some, List.flatMap_singleton]
      exact .some (h.derived hitem)
  condense ts x hrule records hrecords rest := by
    cases hrule with
    | none => rfl
    | some hitem =>
      rw [Option.toList_some, List.flatMap_singleton]
      exact h.condense hitem hrecords rest

/-- What is left out of the items is left out of the repetition. -/
theorem keeps_repeated (h : rule.Keeps tokens inside) :
    (Repeated rule).Keeps (fun xs => xs.flatMap tokens) inside where
  derived ts xs hrule := by
    induction hrule with
    | nil => exact .nil
    | cons first _ ih => exact .cons (h.derived first) ih
  condense ts xs hrule records hrecords rest := by
    induction hrule with
    | nil => rfl
    | cons first _ ih =>
      rw [List.append_assoc, h.condense first hrecords, ih, List.flatMap_cons, List.append_assoc]

theorem derived_separated {separator : Token} {xs : List α} (hsome : xs ≠ [])
    (h : ∀ x ∈ xs, rule (tokens x) x) :
    Separated separator rule (joined separator (xs.map tokens)) xs := by
  induction xs with
  | nil => exact absurd rfl hsome
  | cons x xs ih =>
    obtain ⟨hfirst, hothers⟩ := List.forall_mem_cons.mp h
    cases xs with
    | nil => exact .one hfirst
    | cons y ys => exact .cons hfirst (ih nofun hothers)

/-- What holds of everything derived holds of each item of a list. -/
theorem items_of_separated {separator : Token} {holds : α → Prop} (h : ∀ ts x, rule ts x → holds x)
    {ts : List Token} {xs : List α} (hrule : Separated separator rule ts xs) :
    xs ≠ [] ∧ ∀ x ∈ xs, holds x := by
  induction hrule with
  | one only => exact ⟨nofun, List.forall_mem_singleton.mpr (h _ _ only)⟩
  | cons first _ ih => exact ⟨nofun, List.forall_mem_cons.mpr ⟨h _ _ first, ih.2⟩⟩

/-- A declaration and its semicolon, outside of any record. -/
theorem keeps_terminated (h : rule.Keeps tokens (· = [])) :
    (Terminated rule).Keeps (fun x => tokens x ++ [.mark .semicolon]) (· = []) where
  derived ts x hrule := by
    obtain ⟨hitem⟩ := hrule
    exact .mk (h.derived hitem)
  condense ts x hrule records hrecords rest := by
    obtain ⟨hitem⟩ := hrule
    subst hrecords
    rw [List.append_assoc, h.condense hitem rfl, List.singleton_append, condense_semicolon_outside,
      List.append_assoc, List.singleton_append]

/-! ### Sections -/

theorem sectionTokens_map (heading : Keyword) (xs : List α) (hsome : xs ≠ []) :
    sectionTokens heading (xs.map tokens) =
      .keyword heading :: xs.flatMap fun x => tokens x ++ [.mark .semicolon] := by
  cases xs with
  | nil => exact absurd rfl hsome
  | cons x xs => rw [List.map_cons, sectionTokens, ← List.map_cons, List.flatMap_map]

/-- A section derives itself again, without its heading if it is empty. -/
theorem derived_isSection {heading : Keyword} (h : rule.Keeps tokens (· = [])) {ts : List Token}
    {xs : List α} (hrule : IsSection heading rule ts xs) :
    IsSection heading rule (sectionTokens heading (xs.map tokens)) xs := by
  cases hrule with
  | absent => exact .absent
  | present hitems =>
    cases xs with
    | nil => exact .absent
    | cons x xs =>
      rw [sectionTokens_map heading (x :: xs) nofun]
      exact .present ((keeps_repeated (keeps_terminated h)).derived hitems)

/-- A heading without declarations is idle, as no name stands behind the section. -/
theorem condense_isSection {heading : Keyword}
    (hheading : heading = .CONST ∨ heading = .TYPE ∨ heading = .VAR)
    (h : rule.Keeps tokens (· = [])) (hstarts : rule.Starts isIdentifier) {ts rest : List Token}
    {xs : List α} (hrule : IsSection heading rule ts xs)
    (hrest : rest.head?.any isIdentifier = false) :
    condense [] (ts ++ rest) = sectionTokens heading (xs.map tokens) ++ condense [] rest := by
  cases hrule with
  | absent => rfl
  | present hitems =>
    have hcondense := (keeps_repeated (keeps_terminated h)).condense hitems rfl rest
    cases hitems with
    | nil => exact condense_heading_idle hheading hrest
    | @cons _ us _ _ first others =>
      have hnext := any_head?_of_starts (starts_terminated hstarts) first (us ++ rest)
      rw [← List.append_assoc] at hnext
      rw [sectionTokens_map heading _ (List.cons_ne_nil _ _), List.cons_append,
        condense_heading hheading hnext, hcondense, List.cons_append]

/-- A section starts with its heading. -/
theorem head?_isSection {heading : Keyword} {ts rest : List Token} {xs : List α}
    (hrule : IsSection heading rule ts xs) (hrest : rest.head?.any isIdentifier = false) :
    (ts ++ rest).head?.any isIdentifier = false := by
  cases hrule with
  | absent => exact hrest
  | present => rfl

end Combinations

/-! ## Names -/

theorem exact_isName : IsName.Exact fun name => [.identifier name] := by
  intro ts name hrule
  obtain ⟨⟩ := hrule
  exact ⟨rfl, List.forall_mem_singleton.mpr rfl⟩

theorem exact_isIdentDef : IsIdentDef.Exact IdentDef.tokens := by
  intro ts d hrule
  cases hrule <;> exact ⟨rfl, by simp [Token.isPlain]⟩

theorem exact_isQualident : IsQualident.Exact Qualident.tokens := by
  intro ts q hrule
  cases hrule <;> exact ⟨rfl, by simp [Token.isPlain]⟩

theorem exact_names : (Separated (.mark .comma) IsName).Exact nameTokens :=
  exact_separated rfl exact_isName

theorem exact_identDefs : (Separated (.mark .comma) IsIdentDef).Exact identDefTokens :=
  exact_separated rfl exact_isIdentDef

/-! ## Expressions -/

theorem exact_isSign : IsSign.Exact fun sign => [sign.token] := by
  intro ts sign hrule
  obtain ⟨⟩ := hrule
  refine ⟨rfl, List.forall_mem_singleton.mpr ?_⟩
  cases sign <;> rfl

section Expressions

variable {expression : Rule Expression} (hexpression : expression.Exact Expression.tokens)

include hexpression

/-- A factor keeps all its tokens. -/
theorem exact_isFactor : (IsFactor expression).Exact Factor.tokens := by
  intro ts f hrule
  cases hrule with
  | integer value => exact ⟨rfl, List.forall_mem_singleton.mpr rfl⟩
  | real value => exact ⟨rfl, List.forall_mem_singleton.mpr rfl⟩
  | string content => exact ⟨rfl, List.forall_mem_singleton.mpr rfl⟩
  | name hq => exact exact_isQualident hq
  | parenthesized he =>
    obtain ⟨rfl, hplain⟩ := hexpression he
    refine ⟨rfl, List.forall_mem_append.mpr ⟨?_, List.forall_mem_singleton.mpr rfl⟩⟩
    exact List.forall_mem_cons.mpr ⟨rfl, hplain⟩

/-- A term keeps all its tokens. -/
theorem exact_isTerm : (IsTerm expression).Exact Term.tokens := by
  have hoperation : (IsFactorOperation (IsFactor expression)).Exact FactorOperation.tokens := by
    rw [isFactorOperation_eq_operation]
    refine exact_operation (exact_isFactor hexpression) fun t operator right ht => ?_
    rw [Parser.mulOperator?_eq_some.mp ht]
    cases operator <;> exact ⟨rfl, rfl⟩
  intro ts t hrule
  obtain ⟨hfirst, hothers⟩ := hrule
  obtain ⟨rfl, hplain⟩ := exact_isFactor hexpression hfirst
  obtain ⟨rfl, hplains⟩ := exact_repeated hoperation hothers
  rw [Term.tokens, FactorOperation.allTokens_eq_flatMap]
  exact ⟨rfl, List.forall_mem_append.mpr ⟨hplain, hplains⟩⟩

/-- An expression keeps all its tokens. -/
theorem exact_isSimpleExpression : (IsSimpleExpression expression).Exact Expression.tokens := by
  have hoperation : (IsTermOperation (IsTerm expression)).Exact TermOperation.tokens := by
    rw [isTermOperation_eq_operation]
    refine exact_operation (exact_isTerm hexpression) fun t operator right ht => ?_
    rw [Parser.addOperator?_eq_some.mp ht]
    cases operator <;> exact ⟨rfl, rfl⟩
  intro ts e hrule
  obtain ⟨hsign, hfirst, hothers⟩ := hrule
  obtain ⟨rfl, hsignPlain⟩ := exact_optional exact_isSign hsign
  obtain ⟨rfl, hplain⟩ := exact_isTerm hexpression hfirst
  obtain ⟨rfl, hplains⟩ := exact_repeated hoperation hothers
  rw [Expression.tokens, TermOperation.allTokens_eq_flatMap, signTokens, List.map_eq_flatMap]
  exact ⟨rfl, List.forall_mem_append.mpr ⟨List.forall_mem_append.mpr ⟨hsignPlain, hplain⟩, hplains⟩⟩

end Expressions

/-- Expressions of the grammar keep all their tokens. -/
theorem exact_expression (n : Nat) :
    (IsExpression.And fun e => e.tree.Fits n).Exact Expression.tokens := by
  induction n with
  | zero =>
    intro ts e hrule
    exact absurd hrule.2 (Tree.not_within_zero rfl)
  | succ n ih =>
    rw [isExpression_and_succ]
    exact exact_isSimpleExpression ih

/-! ## Parameters -/

theorem exact_isFormalType : IsFormalType.Exact FormalType.tokens := by
  intro ts t hrule
  induction hrule with
  | name hq => exact exact_isQualident hq
  | openArray _ ih =>
    refine ⟨?_, List.forall_mem_cons.mpr ⟨rfl, List.forall_mem_cons.mpr ⟨rfl, ih.2⟩⟩⟩
    rw [ih.1]
    rfl

theorem keeps_isParameterSection : IsParameterSection.Keeps ParameterSection.tokens Filled where
  derived ts s hrule := by
    cases hrule with
    | byValue hnames htype =>
      exact .byValue (exact_names.derived hnames) (exact_isFormalType.derived htype)
    | byReference hnames htype =>
      exact .byReference (exact_names.derived hnames) (exact_isFormalType.derived htype)
  condense ts s hrule records hrecords rest := by
    cases hrule with
    | byValue hnames htype =>
      rw [List.append_assoc, exact_names.condense hnames, List.cons_append,
        condense_colon_of_filled hrecords, exact_isFormalType.condense htype]
      simp [ParameterSection.tokens]
    | byReference hnames htype =>
      have hnext := any_head?_of_starts (starts_separated starts_isName) hnames
      rw [List.cons_append, List.cons_append, List.append_assoc, List.cons_append,
        condense_heading (.inr (.inr rfl)) (hnext _), exact_names.condense hnames,
        condense_colon_of_filled hrecords, exact_isFormalType.condense htype]
      simp [ParameterSection.tokens]

/-- A parameter section starts with neither of the tokens in front of which a semicolon is
idle. -/
theorem head?_parameterSections {ts : List Token} {sections : List ParameterSection}
    (hrule : Separated (.mark .semicolon) IsParameterSection ts sections) (rest : List Token) :
    (ts ++ rest).head? ≠ some (.mark .semicolon) ∧ (ts ++ rest).head? ≠ some (.keyword .END) := by
  have hstart := any_head?_of_starts (starts_separated starts_isParameterSection) hrule rest
  constructor <;>
    · intro h
      rw [h] at hstart
      exact absurd hstart (by decide)

theorem keeps_parameterSections :
    (Separated (.mark .semicolon) IsParameterSection).Keeps sectionListTokens Filled where
  derived ts sections hrule := by
    obtain ⟨hsome, hitems⟩ := items_of_separated keeps_isParameterSection.derived hrule
    exact derived_separated hsome hitems
  condense ts sections hrule records hrecords rest := by
    induction hrule with
    | one only => exact keeps_isParameterSection.condense only hrecords rest
    | cons first others ih =>
      rw [List.append_assoc, keeps_isParameterSection.condense first hrecords, List.cons_append,
        condense_semicolon hrecords (head?_parameterSections others rest), ih, sectionListTokens,
        sectionListTokens, List.map_cons, joined_cons, List.append_assoc, List.cons_append]
      cases others <;> exact List.cons_ne_nil _ _

/-- Parameter sections keep their tokens. -/
theorem keeps_isParameterSections : IsParameterSections.Keeps sectionListTokens Filled where
  derived ts sections hrule := by
    cases hrule with
    | none => exact .none
    | some hsections => exact .some (keeps_parameterSections.derived hsections)
  condense ts sections hrule records hrecords rest := by
    cases hrule with
    | none => rfl
    | some hsections => exact keeps_parameterSections.condense hsections hrecords rest

theorem keeps_resultType :
    (Optional (Behind (.mark .colon) IsQualident)).Keeps resultTypeTokens Filled := by
  refine keeps_optional ⟨?_, ?_⟩
  · intro ts q hrule
    obtain ⟨hq⟩ := hrule
    exact .mk (exact_isQualident.derived hq)
  · intro ts q hrule records hrecords rest
    obtain ⟨hq⟩ := hrule
    rw [List.cons_append, condense_colon_of_filled hrecords,
      exact_isQualident.condense hq, List.cons_append]

/-- Formal parameters keep their tokens. -/
theorem keeps_isFormalParameters : IsFormalParameters.Keeps FormalParameters.tokens Filled where
  derived ts p hrule := by
    obtain ⟨hsections, hresult⟩ := hrule
    exact .mk (keeps_isParameterSections.derived hsections) (keeps_resultType.derived hresult)
  condense ts p hrule records hrecords rest := by
    obtain ⟨hsections, hresult⟩ := hrule
    rw [List.cons_append, List.cons_append, List.append_assoc, List.cons_append,
      condense_cons_of_isPlain rfl, keeps_isParameterSections.condense hsections hrecords,
      condense_cons_of_isPlain rfl, keeps_resultType.condense hresult hrecords]
    simp [FormalParameters.tokens]

/-! ## Types -/

theorem exact_isBaseType :
    IsBaseType.Exact fun q => .mark .leftParen :: q.tokens ++ [.mark .rightParen] := by
  intro ts q hrule
  obtain ⟨hq⟩ := hrule
  obtain ⟨rfl, hplain⟩ := exact_isQualident hq
  refine ⟨rfl, List.forall_mem_append.mpr ⟨?_, List.forall_mem_singleton.mpr rfl⟩⟩
  exact List.forall_mem_cons.mpr ⟨rfl, hplain⟩

section Types

variable {parameters : Rule FormalParameters} {expression : Rule Expression} {type : Rule TypeExpr}
  (hparameters : parameters.Keeps FormalParameters.tokens Filled)
  (hexpression : expression.Exact Expression.tokens) (htype : type.Keeps TypeExpr.tokens Filled)

/-- No field lists are one empty field list, and some of them have none between them. -/
theorem isFieldLists_of_forall {fields : List FieldList}
    (h : ∀ f ∈ fields, IsFieldList type f.tokens f) :
    IsFieldLists type (fieldTokens fields) fields := by
  induction fields with
  | nil => exact .single .none
  | cons f fs ih =>
    obtain ⟨hfirst, hothers⟩ := List.forall_mem_cons.mp h
    cases fs with
    | nil => exact .single (.some hfirst)
    | cons => exact .cons (.some hfirst) (ih hothers)

include htype

theorem derived_isFieldList {ts : List Token} {fields : FieldList}
    (hrule : IsFieldList type ts fields) :
    IsFieldList type fields.tokens fields := by
  obtain ⟨hnames, ht⟩ := hrule
  exact .mk (exact_identDefs.derived hnames) (htype.derived ht)

/-- Whether or not there were field lists before, there is one now. -/
theorem condense_isFieldList {ts : List Token} {fields : FieldList}
    (hrule : IsFieldList type ts fields)
    (hasFields : Bool) (records : List Bool) (rest : List Token) :
    condense (hasFields :: records) (ts ++ rest) =
      fields.tokens ++ condense (true :: records) rest := by
  have hcolon (us : List Token) : condense (hasFields :: records) (.mark .colon :: us) =
      .mark .colon :: condense (true :: records) us := by
    cases hasFields <;> rfl
  obtain ⟨hnames, ht⟩ := hrule
  rw [List.append_assoc, exact_identDefs.condense hnames, List.cons_append, hcolon,
    htype.condense ht filled_cons, FieldList.tokens, List.append_assoc, List.cons_append]

/-- The semicolon between two field lists is not idle. -/
theorem condense_semicolon_isFieldList {ts : List Token} {fields : FieldList}
    (hrule : IsFieldList type ts fields) (records : List Bool) (rest : List Token) :
    condense (true :: records) (.mark .semicolon :: (ts ++ rest)) =
      .mark .semicolon :: (fields.tokens ++ condense (true :: records) rest) := by
  have hstart := any_head?_of_starts starts_isFieldList hrule rest
  have hnext : (ts ++ rest).head? ≠ some (.mark .semicolon) ∧
      (ts ++ rest).head? ≠ some (.keyword .END) := by
    constructor <;>
      · intro h
        rw [h] at hstart
        exact absurd hstart (by decide)
  rw [condense_semicolon filled_cons hnext, condense_isFieldList htype hrule]

/-- Field lists up to the end of their record: the first of them, or those behind another one and
its semicolon. -/
theorem condense_fieldLists {ts : List Token} {fields : List (Option FieldList)}
    (hrule : Separated (.mark .semicolon) (Optional (IsFieldList type)) ts fields)
    (records : List Bool) (rest : List Token) :
    condense (false :: records) (ts ++ .keyword .END :: rest) =
        fieldTokens (fields.filterMap id) ++ .keyword .END :: condense records rest ∧
      condense (true :: records) (.mark .semicolon :: (ts ++ .keyword .END :: rest)) =
        ((fields.filterMap id).map FieldList.tokens).flatMap (.mark .semicolon :: ·) ++
          .keyword .END :: condense records rest := by
  -- both statements at once: a semicolon stays only behind a field list
  induction hrule with
  | one only =>
    cases only with
    | none => exact ⟨rfl, condense_semicolon_idle (.inr rfl)⟩
    | some hfirst =>
      constructor
      · rw [condense_isFieldList htype hfirst]
        rfl
      · rw [condense_semicolon_isFieldList htype hfirst]
        simp [condense_end]
  | cons first others ih =>
    obtain ⟨hbare, hbehind⟩ := ih
    cases first with
    | none => exact ⟨hbare, (condense_semicolon_idle (.inl rfl)).trans hbehind⟩
    | some hfirst =>
      constructor
      · rw [List.append_assoc, condense_isFieldList htype hfirst, List.cons_append, hbehind,
          fieldTokens, List.filterMap_cons_some (f := id) rfl, List.map_cons,
          joined_cons_eq_flatMap, List.append_assoc]
      · rw [List.append_assoc, condense_semicolon_isFieldList htype hfirst,
          List.cons_append, hbehind, List.filterMap_cons_some (f := id) rfl, List.map_cons,
          List.flatMap_cons, List.append_assoc, List.cons_append]

/-- The tokens of field lists derive them again, without the empty ones. -/
theorem derived_isFieldLists {ts : List Token} {fields : List FieldList}
    (hrule : IsFieldLists type ts fields) : IsFieldLists type (fieldTokens fields) fields := by
  obtain ⟨hfields⟩ := hrule
  apply isFieldLists_of_forall
  have hlist : ∀ ts x, Optional (IsFieldList type) ts x → ∀ f ∈ x, IsFieldList type f.tokens f := by
    rintro ts x (_ | hitem) f hf
    · cases hf
    · cases hf
      exact derived_isFieldList htype hitem
  intro f hf
  obtain ⟨x, hx, rfl⟩ := List.mem_filterMap.mp hf
  exact (items_of_separated hlist hfields).2 _ hx f rfl

include hparameters hexpression

/-- A type keeps its tokens, but for empty field lists. -/
theorem keeps_isTypeForm :
    (IsTypeForm parameters expression type).Keeps TypeExpr.tokens Filled where
  derived ts t hrule := by
    cases hrule with
    | named hq => exact .named (exact_isQualident.derived hq)
    | array hlengths helement =>
      exact .array ((exact_separated rfl hexpression).derived hlengths) (htype.derived helement)
    | record hbase hfields =>
      rw [TypeExpr.tokens, FieldList.tokenLists_eq_map]
      exact .record ((exact_optional exact_isBaseType).derived hbase)
        (derived_isFieldLists htype hfields)
    | pointer ht => exact .pointer (htype.derived ht)
    | procedure hformal => exact .procedure ((keeps_optional hparameters).derived hformal)
  condense ts t hrule records hrecords rest := by
    cases hrule with
    | named hq => exact exact_isQualident.condense hq records rest
    | array hlengths helement =>
      rw [List.cons_append, List.cons_append, List.append_assoc, List.cons_append,
        condense_cons_of_isPlain rfl, (exact_separated rfl hexpression).condense hlengths,
        condense_cons_of_isPlain rfl, htype.condense helement hrecords]
      simp [TypeExpr.tokens, lengthTokens]
    | record hbase hfields =>
      -- only here something is left out: empty field lists
      obtain ⟨hfields⟩ := hfields
      rw [List.cons_append, List.cons_append, List.cons_append, List.append_assoc,
        List.append_assoc, List.singleton_append, condense_record,
        (exact_optional exact_isBaseType).condense hbase,
        (condense_fieldLists htype hfields records rest).1]
      simp [TypeExpr.tokens, FieldList.tokenLists_eq_map, fieldTokens, baseTokens]
    | pointer ht =>
      rw [List.cons_append, List.cons_append, condense_cons_of_isPlain rfl,
        condense_cons_of_isPlain rfl, htype.condense ht hrecords]
      rfl
    | procedure hformal =>
      rw [List.cons_append, condense_cons_of_isPlain rfl,
        (keeps_optional hparameters).condense hformal hrecords]
      rfl

end Types

theorem keeps_formalParameters :
    (IsFormalParameters.And Parser.fewOpenArrays).Keeps FormalParameters.tokens Filled :=
  keeps_isFormalParameters.and _

/-- Types of the grammar keep their tokens, but for empty field lists. -/
theorem keeps_type (n : Nat) :
    (IsType.And fun t => t.tree.Fits n).Keeps TypeExpr.tokens Filled := by
  induction n with
  | zero =>
    refine ⟨?_, ?_⟩
    · intro ts t hrule
      exact absurd hrule.2 (Tree.not_within_zero rfl)
    · intro ts t hrule
      exact absurd hrule.2 (Tree.not_within_zero rfl)
  | succ n ih =>
    rw [isType_and_succ]
    exact keeps_isTypeForm keeps_formalParameters (exact_expression n) ih

/-! ## Declarations -/

/-- An import list keeps its tokens. -/
theorem keeps_imports : (Optional IsImportList).Keeps importTokens (· = []) := by
  refine keeps_optional ⟨?_, ?_⟩
  · intro ts names hrule
    obtain ⟨hnames⟩ := hrule
    exact .mk (exact_names.derived hnames)
  · intro ts names hrule records hrecords rest
    obtain ⟨hnames⟩ := hrule
    subst hrecords
    rw [List.cons_append, List.cons_append, List.append_assoc, condense_cons_of_isPlain rfl,
      exact_names.condense hnames, List.singleton_append, condense_semicolon_outside]
    simp

section Declarations

variable {parameters : Rule FormalParameters} {expression : Rule Expression} {type : Rule TypeExpr}
  {procedure : Rule ProcedureDeclaration}
  (hparameters : parameters.Keeps FormalParameters.tokens Filled)
  (hexpression : expression.Exact Expression.tokens) (htype : type.Keeps TypeExpr.tokens Filled)
  (hprocedure : procedure.Keeps ProcedureDeclaration.tokens (· = []))
  (hkeyword : ∀ ts p, procedure ts p → ∃ us, ts = .keyword .PROCEDURE :: us)

include hexpression in
theorem exact_isConstDeclaration :
    (IsConstDeclaration expression).Exact ConstDeclaration.tokens := by
  intro ts d hrule
  obtain ⟨hname, hvalue⟩ := hrule
  obtain ⟨rfl, hplain⟩ := exact_isIdentDef hname
  obtain ⟨rfl, hplains⟩ := hexpression hvalue
  exact ⟨rfl, List.forall_mem_append.mpr ⟨hplain, List.forall_mem_cons.mpr ⟨rfl, hplains⟩⟩⟩

include htype in
theorem keeps_isTypeDeclaration :
    (IsTypeDeclaration type).Keeps TypeDeclaration.tokens (· = []) where
  derived ts d hrule := by
    obtain ⟨hname, ht⟩ := hrule
    exact .mk (exact_isIdentDef.derived hname) (htype.derived ht)
  condense ts d hrule records hrecords rest := by
    obtain ⟨hname, ht⟩ := hrule
    subst hrecords
    rw [List.append_assoc, exact_isIdentDef.condense hname, List.cons_append,
      condense_cons_of_isPlain rfl, htype.condense ht filled_nil, TypeDeclaration.tokens,
      List.append_assoc, List.cons_append]

include htype in
theorem keeps_isVariableDeclaration :
    (IsVariableDeclaration type).Keeps VariableDeclaration.tokens (· = []) where
  derived ts d hrule := by
    obtain ⟨hnames, ht⟩ := hrule
    exact .mk (exact_identDefs.derived hnames) (htype.derived ht)
  condense ts d hrule records hrecords rest := by
    obtain ⟨hnames, ht⟩ := hrule
    subst hrecords
    rw [List.append_assoc, exact_identDefs.condense hnames, List.cons_append,
      condense_colon_of_filled filled_nil, htype.condense ht filled_nil, VariableDeclaration.tokens,
      List.append_assoc, List.cons_append]

include hkeyword in
/-- Procedures do not start with an identifier. -/
theorem head?_procedures {ts rest : List Token} {ps : List ProcedureDeclaration}
    (hrule : Repeated (Terminated procedure) ts ps) (hrest : rest.head?.any isIdentifier = false) :
    (ts ++ rest).head?.any isIdentifier = false := by
  cases hrule with
  | nil => exact hrest
  | cons first _ =>
    obtain ⟨hfirst⟩ := first
    obtain ⟨us, rfl⟩ := hkeyword _ _ hfirst
    rfl

include hexpression htype hprocedure

/-- The tokens of declarations derive them again, without the empty sections. -/
theorem derived_isDeclarations {ts : List Token} {d : Declarations}
    (hrule : IsDeclarations expression type procedure ts d) :
    IsDeclarations expression type procedure d.tokens d := by
  obtain ⟨hconstants, htypes, hvars, hprocedures⟩ := hrule
  rw [Declarations.tokens, ProcedureDeclaration.allTokens_eq_flatMap]
  exact .mk (derived_isSection (exact_isConstDeclaration hexpression).keeps hconstants)
    (derived_isSection (keeps_isTypeDeclaration htype) htypes)
    (derived_isSection (keeps_isVariableDeclaration htype) hvars)
    ((keeps_repeated (keeps_terminated hprocedure)).derived hprocedures)

include hkeyword

/-- Behind declarations there is no name, so each section ends in front of something other than a
name. -/
theorem condense_isDeclarations {ts rest : List Token} {d : Declarations}
    (hrule : IsDeclarations expression type procedure ts d)
    (hrest : rest.head?.any isIdentifier = false) :
    condense [] (ts ++ rest) = d.tokens ++ condense [] rest := by
  obtain ⟨hconstants, htypes, hvars, hprocedures⟩ := hrule
  have hbehindVars := head?_procedures hkeyword hprocedures hrest
  have hbehindTypes := head?_isSection hvars hbehindVars
  have hbehindConstants := head?_isSection htypes hbehindTypes
  rw [List.append_assoc, List.append_assoc, List.append_assoc,
    condense_isSection (.inl rfl) (exact_isConstDeclaration hexpression).keeps
      starts_isConstDeclaration hconstants hbehindConstants,
    condense_isSection (.inr (.inl rfl))
      (keeps_isTypeDeclaration htype) starts_isTypeDeclaration htypes
      hbehindTypes,
    condense_isSection (.inr (.inr rfl)) (keeps_isVariableDeclaration htype)
      starts_isVariableDeclaration hvars hbehindVars,
    (keeps_repeated (keeps_terminated hprocedure)).condense hprocedures rfl, Declarations.tokens,
    ProcedureDeclaration.allTokens_eq_flatMap, variableTokens, List.append_assoc, List.append_assoc,
    List.append_assoc]

omit hexpression htype hprocedure hkeyword

theorem exact_result (h : expression.Exact Expression.tokens) :
    (Optional (Behind (.keyword .RETURN) expression)).Exact resultTokens :=
  exact_optional (exact_behind rfl h)

include hparameters

theorem keeps_isProcedureHeading :
    (IsProcedureHeading parameters).Keeps ProcedureHeading.tokens (· = []) where
  derived ts h hrule := by
    obtain ⟨hname, hformal⟩ := hrule
    exact .mk (exact_isIdentDef.derived hname) ((keeps_optional hparameters).derived hformal)
  condense ts h hrule records hrecords rest := by
    obtain ⟨hname, hformal⟩ := hrule
    subst hrecords
    rw [List.cons_append, List.cons_append, List.append_assoc, condense_cons_of_isPlain rfl,
      exact_isIdentDef.condense hname, (keeps_optional hparameters).condense hformal filled_nil]
    simp [ProcedureHeading.tokens, parameterTokens]

include hexpression htype hprocedure hkeyword

/-- A procedure keeps its tokens, but for empty sections and field lists. -/
theorem keeps_isProcedureBody :
    (IsProcedureBody parameters expression type procedure).Keeps ProcedureDeclaration.tokens
      (· = []) where
  derived ts p hrule := by
    obtain ⟨hheading, hdeclarations, hresult, endName⟩ := hrule
    rw [ProcedureDeclaration.tokens]
    exact .mk ((keeps_isProcedureHeading hparameters).derived hheading)
      (derived_isDeclarations hexpression htype hprocedure hdeclarations)
      ((exact_result hexpression).derived hresult) endName
  condense ts p hrule records hrecords rest := by
    cases hrule with
    | @mk hs ds rs _ _ _ hheading hdeclarations hresult endName =>
      subst hrecords
      -- a section in front of RETURN or END is idle if nothing is declared in it
      have hnext : (rs ++ .keyword .END :: .identifier endName :: rest).head?.any isIdentifier =
          false := by
        cases hresult with
        | none => rfl
        | some hresult =>
          obtain ⟨_⟩ := hresult
          rfl
      calc condense [] (hs ++ .mark .semicolon :: ds ++ rs ++
        [.keyword .END, .identifier endName] ++ rest)
          = condense [] (hs ++ .mark .semicolon ::
            (ds ++ (rs ++ .keyword .END :: .identifier endName ::
              rest))) := by simp
        _ = _ := by
          rw [(keeps_isProcedureHeading hparameters).condense hheading rfl,
            condense_semicolon_outside,
            condense_isDeclarations hexpression htype hprocedure hkeyword hdeclarations hnext,
            (exact_result hexpression).condense hresult, condense_end, condense_cons_of_isPlain rfl]
          simp [ProcedureDeclaration.tokens]

omit hparameters

/-- A module keeps its tokens, but for empty sections and field lists. -/
theorem keeps_isModuleBody :
    (IsModuleBody expression type procedure).Keeps Module.tokens (· = []) where
  derived ts m hrule := by
    obtain ⟨name, himports, hdeclarations, endName⟩ := hrule
    exact .mk name (keeps_imports.derived himports)
      (derived_isDeclarations hexpression htype hprocedure hdeclarations) endName
  condense ts m hrule records hrecords rest := by
    cases hrule with
    | @mk is ds _ _ name himports hdeclarations endName =>
      subst hrecords
      calc condense [] (.keyword .MODULE :: .identifier name :: .mark .semicolon :: is ++ ds ++
            [.keyword .END, .identifier endName, .mark .dot] ++ rest)
          = condense [] (.keyword .MODULE :: .identifier name :: .mark .semicolon ::
              (is ++ (ds ++ .keyword .END :: .identifier endName :: .mark .dot :: rest))) := by simp
        _ = _ := by
          rw [condense_cons_of_isPlain rfl, condense_cons_of_isPlain rfl,
            condense_semicolon_outside, keeps_imports.condense himports rfl,
            condense_isDeclarations hexpression htype hprocedure hkeyword hdeclarations rfl,
            condense_end, condense_cons_of_isPlain rfl, condense_cons_of_isPlain rfl]
          simp [Module.tokens]

end Declarations

theorem keeps_procedure (n : Nat) :
    (IsProcedure.And fun p => p.tree.Fits n).Keeps ProcedureDeclaration.tokens (· = []) := by
  induction n with
  | zero =>
    have hnone ts p : ¬ IsProcedure.And (fun p => p.tree.Fits 0) ts p := by
      intro hrule
      cases p
      exact Tree.not_within_zero rfl hrule.2
    exact ⟨fun ts p hrule => absurd hrule (hnone ts p), fun ts p hrule => absurd hrule (hnone ts p)⟩
  | succ n ih =>
    rw [isProcedure_and_succ]
    exact keeps_isProcedureBody keeps_formalParameters (exact_expression n) (keeps_type n) ih
      Parser.heading_of_isProcedure

theorem keeps_module (n : Nat) :
    (IsModule.And fun m => (Node.root m).tree.Fits n).Keeps Module.tokens (· = []) := by
  rw [isModule_and]
  exact keeps_isModuleBody (exact_expression n) (keeps_type n) (keeps_procedure n)
    Parser.heading_of_isProcedure

/-- The tokens of a derived module are the condensed text. -/
theorem tokens_of_isModule {n : Nat} {ts : List Token} {m : Module}
    (hrule : IsModule.And (fun m => (Node.root m).tree.Fits n) ts m) : m.tokens = condensed ts := by
  have hcondense := (keeps_module n).condense hrule rfl []
  rw [List.append_nil] at hcondense
  exact (hcondense.trans (List.append_nil _)).symm

end Grammar

namespace Parser

open Grammar

/-! ## Accepted tokens -/

/-- The rule of what a module parser accepts. -/
theorem parseModule_eq_ok_iff {tokens : List LocatedToken}
    (hend : ∀ t ∈ tokens, t.token ≠ .endOfFile)
    {m : Module} : parseModule tokens = .ok m ↔
      IsModule.And (fun m => (Node.root m).tree.Fits maxNesting)
        (tokens.map LocatedToken.token) m :=
  whole_eq_ok_iff (sound_module maxNesting) (complete_module maxNesting) trivial hend

/-- Parsing gives an expression exactly if the grammar derives it within the limit. -/
theorem parseExpression_eq_ok_iff {tokens : List LocatedToken}
    (hend : ∀ t ∈ tokens, t.token ≠ .endOfFile) {e : Expression} : parseExpression tokens = .ok e ↔
      IsExpression.And (fun e => e.tree.Fits maxNesting) (tokens.map LocatedToken.token) e :=
  whole_eq_ok_iff (sound_expression maxNesting) (complete_expression maxNesting) (avoids_nil _) hend

/-- The tokens of a parsed module are the condensed input. -/
theorem tokens_of_parseModule {tokens : List LocatedToken}
    (hend : ∀ t ∈ tokens, t.token ≠ .endOfFile)
    {m : Module} (h : parseModule tokens = .ok m) :
    m.tokens = condensed (tokens.map LocatedToken.token) :=
  tokens_of_isModule ((parseModule_eq_ok_iff hend).mp h)

/-- The condensed tokens are parsed too, and only one tree comes from them. -/
theorem parseModule_condensed {tokens : List LocatedToken}
    (hend : ∀ t ∈ tokens, t.token ≠ .endOfFile)
    {m : Module} (h : parseModule tokens = .ok m) :
    parseModule ((condensed (tokens.map LocatedToken.token)).map (LocatedToken.mk · 1)) =
      .ok m := by
  have hrule := (parseModule_eq_ok_iff hend).mp h
  have hcondensedEnd : ∀ t ∈ (condensed (tokens.map LocatedToken.token)).map (LocatedToken.mk · 1),
      t.token ≠ .endOfFile := by
    intro t ht
    obtain ⟨token, htoken, rfl⟩ := List.mem_map.mp ht
    obtain ⟨located, hlocated, rfl⟩ := List.mem_map.mp ((sublist_condense _ _).subset htoken)
    exact hend located hlocated
  rw [parseModule_eq_ok_iff hcondensedEnd, List.map_map, ← tokens_of_parseModule hend h]
  have hderived := (keeps_module maxNesting).derived hrule
  simpa [Function.comp_def] using hderived

/-- The tokens of a parsed expression are the input. -/
theorem tokens_of_parseExpression {tokens : List LocatedToken}
    (hend : ∀ t ∈ tokens, t.token ≠ .endOfFile) {e : Expression}
    (h : parseExpression tokens = .ok e) :
    e.tokens = tokens.map LocatedToken.token :=
  (exact_expression maxNesting ((parseExpression_eq_ok_iff hend).mp h)).1.symm

/-- Trees keep their tokens: a module has all tokens that it is parsed from but the idle ones, so
two token lists have the same tree exactly if they are the same without idle tokens; an expression
has all of its tokens. -/
theorem parse_keeps_tokens {tokens tokens' : List LocatedToken}
    (hend : ∀ t ∈ tokens, t.token ≠ .endOfFile) (hend' : ∀ t ∈ tokens', t.token ≠ .endOfFile) :
    (∀ m, parseModule tokens = .ok m → m.tokens = condensed (tokens.map LocatedToken.token)) ∧
      (∀ m m', parseModule tokens = .ok m → parseModule tokens' = .ok m' →
        (m = m' ↔ condensed (tokens.map LocatedToken.token) =
          condensed (tokens'.map LocatedToken.token))) ∧
      ∀ e, parseExpression tokens = .ok e → parseExpression tokens' = .ok e →
        tokens.map LocatedToken.token = tokens'.map LocatedToken.token := by
  refine ⟨fun m h => tokens_of_parseModule hend h, fun m m' h h' => ⟨?_, ?_⟩, fun e h h' => ?_⟩
  · rintro rfl
    rw [← tokens_of_parseModule hend h, ← tokens_of_parseModule hend' h']
  · intro hcondensed
    have hm := parseModule_condensed hend h
    rw [hcondensed, parseModule_condensed hend' h'] at hm
    exact (Except.ok.inj hm).symm
  · rw [← tokens_of_parseExpression hend h, ← tokens_of_parseExpression hend' h']

/-- `MODULE M; TYPE Pair = RECORD x: REAL; y*: REAL END; END M.` -/
def coordinateTokens : List Token :=
  [.keyword .MODULE, .identifier "M", .mark .semicolon, .keyword .TYPE, .identifier "Pair",
    .mark .equal, .keyword .RECORD, .identifier "x", .mark .colon, .identifier "REAL",
    .mark .semicolon, .identifier "y", .mark .times, .mark .colon, .identifier "REAL",
    .keyword .END, .mark .semicolon, .keyword .END, .identifier "M", .mark .dot]

/-- `MODULE M; CONST TYPE Pair = RECORD; x: REAL;; y*: REAL; END; VAR END M.` -/
def sparseCoordinateTokens : List Token :=
  [.keyword .MODULE, .identifier "M", .mark .semicolon, .keyword .CONST, .keyword .TYPE,
    .identifier "Pair", .mark .equal, .keyword .RECORD, .mark .semicolon, .identifier "x",
    .mark .colon, .identifier "REAL", .mark .semicolon, .mark .semicolon, .identifier "y",
    .mark .times, .mark .colon, .identifier "REAL", .mark .semicolon, .keyword .END,
    .mark .semicolon, .keyword .VAR, .keyword .END, .identifier "M", .mark .dot]

def coordinateModule : Module :=
  ⟨"M", none, ⟨[], [⟨⟨"Pair", false⟩, .record none [⟨[⟨"x", false⟩], .named ⟨none, "REAL"⟩⟩,
    ⟨[⟨"y", true⟩], .named ⟨none, "REAL"⟩⟩]⟩], [], []⟩, "M"⟩

/-- All idle tokens are deleted, so the tree of the other list is the same. -/
theorem parse_keeps_tokens_coordinates :
    parseModule (sparseCoordinateTokens.map (LocatedToken.mk · 1)) = .ok coordinateModule ∧
      coordinateModule.tokens = condensed sparseCoordinateTokens ∧
      condensed sparseCoordinateTokens = coordinateTokens ∧
      ∀ m, parseModule (coordinateTokens.map (LocatedToken.mk · 1)) = .ok m →
        coordinateModule = m := by
  have hend : ∀ t ∈ sparseCoordinateTokens.map (LocatedToken.mk · 1), t.token ≠
      .endOfFile := by decide
  have hend' : ∀ t ∈ coordinateTokens.map (LocatedToken.mk · 1), t.token ≠ .endOfFile := by decide
  have hparse : parseModule (sparseCoordinateTokens.map (LocatedToken.mk · 1)) =
      .ok coordinateModule := rfl
  obtain ⟨htokens, hsame, -⟩ := parse_keeps_tokens hend hend'
  refine ⟨hparse, htokens _ hparse, by decide, fun m hm => ?_⟩
  exact (hsame _ _ hparse hm).mpr (by decide)

end Parser

end Oberon
