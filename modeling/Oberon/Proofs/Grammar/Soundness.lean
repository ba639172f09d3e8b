import Oberon.Proofs.Grammar.First
import Oberon.Proofs.Syntax.Reads

/-!
# What the parser accepts is derived

Every parser is sound for its rule, one lemma for each combinator and each construct.  Parsers of
constructs that contain expressions, types or procedures are sound for their rules as soon as the
parsers of these are.
-/

namespace Oberon

namespace Parser

open Grammar

variable {α β γ ω : Type}

/-! ## Combinators -/

/-- An option that is read is there, or its first token is not. -/
theorem sound_optional {t : Token} {item : Parser α} {rule : Rule α}
    (hitem : Sound item fun ts x => rule (t :: ts) x) (ht : t ≠ .endOfFile) :
    Sound (optional t item) (Optional rule) := by
  intro c x c' h
  simp only [optional, reads_bind] at h
  obtain ⟨b, c₁, haccept, h⟩ := h
  have htokens := tokens_of_reads_accept haccept ht
  cases b with
  | true =>
    simp only [↓reduceIte, reads_bind, reads_pure] at h htokens
    obtain ⟨y, c₂, hy, rfl, rfl⟩ := h
    obtain ⟨ts, hts, hrule⟩ := hitem hy
    exact ⟨t :: ts, by rw [htokens, hts]; rfl, .some hrule⟩
  | false =>
    simp only [Bool.false_eq_true, ↓reduceIte, reads_pure] at h htokens
    obtain ⟨rfl, rfl⟩ := h
    exact ⟨[], htokens, .none⟩

/-- An item behind an opening token. -/
theorem Sound.behind {t : Token} {item : Parser α} {rule : Rule α} (hitem : Sound item rule) :
    Sound item fun ts x => Behind t rule (t :: ts) x :=
  hitem.mono fun _ _ h => .mk h

theorem sound_manyUpTo {starts : Token → Bool} {item : Parser α} {rule : Rule α}
    (hitem : Sound item rule) (limit : Nat) :
    Sound (manyUpTo starts item limit) (Repeated rule) := by
  induction limit with
  | zero =>
    intro c x c' h
    simp only [manyUpTo, reads_pure] at h
    obtain ⟨rfl, rfl⟩ := h
    exact ⟨[], rfl, .nil⟩
  | succ limit ih =>
    intro c x c' h
    simp only [manyUpTo, reads_bind, reads_token] at h
    obtain ⟨_, _, ⟨rfl, rfl⟩, h⟩ := h
    split at h
    · simp only [reads_bind, reads_pure] at h
      obtain ⟨y, c₁, hy, ys, c₂, hys, rfl, rfl⟩ := h
      obtain ⟨ts, hts, hrule⟩ := hitem hy
      obtain ⟨us, hus, hrules⟩ := ih hys
      exact ⟨ts ++ us, by rw [hts, hus, List.append_assoc], .cons hrule hrules⟩
    · obtain ⟨rfl, rfl⟩ := reads_pure.mp h
      exact ⟨[], rfl, .nil⟩

/-- Items that are read one by one repeat the rule. -/
theorem sound_many {starts : Token → Bool} {item : Parser α} {rule : Rule α}
    (hitem : Sound item rule) : Sound (many starts item) (Repeated rule) := by
  intro c x c' h
  simp only [many, reads_bind, reads_get] at h
  obtain ⟨_, _, ⟨rfl, rfl⟩, h⟩ := h
  exact sound_manyUpTo hitem _ h

theorem sound_operationsUpTo {operator? : Token → Option ω} {operand : Parser α}
    {combine : ω → α → β} {rule : Rule α} (hend : operator? .endOfFile = none)
    (hoperand : Sound operand rule) (limit : Nat) :
    Sound (operationsUpTo operator? operand combine limit)
      (Repeated (Grammar.Operation operator? rule combine)) := by
  induction limit with
  | zero =>
    intro c x c' h
    simp only [operationsUpTo, reads_pure] at h
    obtain ⟨rfl, rfl⟩ := h
    exact ⟨[], rfl, .nil⟩
  | succ limit ih =>
    intro c x c' h
    simp only [operationsUpTo, reads_bind, reads_token] at h
    obtain ⟨_, _, ⟨rfl, rfl⟩, h⟩ := h
    split at h
    · obtain ⟨rfl, rfl⟩ := reads_pure.mp h
      exact ⟨[], rfl, .nil⟩
    next operator hoperator =>
      simp only [reads_bind, reads_advance, reads_pure] at h
      obtain ⟨_, _, rfl, y, c₁, hy, ys, c₂, hys, rfl, rfl⟩ := h
      obtain ⟨ts, hts, hrule⟩ := hoperand hy
      obtain ⟨us, hus, hrules⟩ := ih hys
      -- the end of the file is no operator, so the token is really there
      have htoken : c.token ≠ .endOfFile := by
        intro heq
        rw [heq, hend] at hoperator
        cases hoperator
      refine ⟨c.token :: ts ++ us, ?_, .cons (.mk hoperator hrule) hrules⟩
      rw [Cursor.tokens_eq_cons rfl htoken, hts, hus]
      simp

/-- Operations that are read one by one repeat the rule. -/
theorem sound_operations {operator? : Token → Option ω} {operand : Parser α}
    {combine : ω → α → β} {rule : Rule α} (hend : operator? .endOfFile = none)
    (hoperand : Sound operand rule) :
    Sound (operations operator? operand combine)
      (Repeated (Grammar.Operation operator? rule combine)) := by
  intro c x c' h
  simp only [operations, reads_bind, reads_get] at h
  obtain ⟨_, _, ⟨rfl, rfl⟩, h⟩ := h
  exact sound_operationsUpTo hend hoperand _ h

/-- Items that are read with separators form a separated list. -/
theorem sound_separated {separator : Token} {item : Parser α} {rule : Rule α}
    (hitem : Sound item rule) (hseparator : separator ≠ .endOfFile) :
    Sound (separated separator item) (Separated separator rule) := by
  intro c x c' h
  simp only [separated, reads_bind, reads_pure] at h
  obtain ⟨y, c₁, hy, ys, c₂, hys, rfl, rfl⟩ := h
  have hend : separator? separator .endOfFile = none := if_neg hseparator.symm
  obtain ⟨ts, hts, hrule⟩ := hitem hy
  obtain ⟨us, hus, hrules⟩ := sound_operations hend hitem hys
  exact ⟨ts ++ us, by rw [hts, hus, List.append_assoc], .of_repeated hrule hrules⟩

/-- Two items that are read with the token between them are joined. -/
theorem sound_joined {left : Parser α} {right : Parser β} {isLeft : Rule α} {isRight : Rule β}
    {between : Token} {combine : α → β → γ} (hleft : Sound left isLeft)
    (hright : Sound right isRight)
    (hbetween : between ≠ .endOfFile) :
    Sound (do let x ← left; expect between; return combine x (← right))
      (Joined isLeft between isRight combine) := by
  intro c z c' h
  simp only [reads_bind, reads_pure] at h
  obtain ⟨x, c₁, hx, _, c₂, hexpect, y, c₃, hy, rfl, rfl⟩ := h
  obtain ⟨ts, hts, hxRule⟩ := hleft hx
  obtain ⟨us, hus, hyRule⟩ := hright hy
  refine ⟨_, ?_, .mk hxRule hyRule⟩
  rw [hts, tokens_of_reads_expect hexpect hbetween, hus]
  simp

/-! ## Names -/

/-- An identifier that is read was the next token. -/
theorem reads_identifier {c c' : Cursor} {name : String} (h : Reads identifier c name c') :
    c.tokens = .identifier name :: c'.tokens := by
  simp only [identifier, reads_bind, reads_token] at h
  obtain ⟨_, _, ⟨rfl, rfl⟩, h⟩ := h
  split at h
  next name' htoken =>
    simp only [reads_bind, reads_advance, reads_pure] at h
    obtain ⟨_, _, rfl, rfl, rfl⟩ := h
    exact Cursor.tokens_eq_cons htoken (by simp)
  next => exact absurd h not_reads_fail

theorem sound_identifier : Sound identifier IsName := by
  intro c name c' h
  exact ⟨[.identifier name], reads_identifier h, .mk name⟩

theorem sound_identDef : Sound identDef IsIdentDef := by
  intro c x c' h
  simp only [identDef, reads_bind, reads_pure] at h
  obtain ⟨name, c₁, hname, exported, c₂, hexported, rfl, rfl⟩ := h
  have hmark := tokens_of_reads_accept hexported (by simp)
  refine ⟨.identifier name :: (if exported then [.mark .times] else []), ?_, ?_⟩
  · rw [reads_identifier hname, hmark]
    rfl
  · cases exported with
    | true => exact .exported name
    | false => exact .hidden name

/-- A name that is read, with a qualifier or without one, is a qualified name. -/
theorem sound_qualident : Sound qualident IsQualident := by
  intro c x c' h
  simp only [qualident, reads_bind, reads_get] at h
  obtain ⟨first, c₁, hfirst, _, _, ⟨rfl, rfl⟩, h⟩ := h
  have hname := reads_identifier hfirst
  split at h
  next dotLine name nameLine rest hrest =>
    simp only [reads_bind, reads_advance, reads_pure] at h
    obtain ⟨_, _, rfl, _, _, rfl, rfl, rfl⟩ := h
    have hdot : c₁.tokens = .mark .dot :: .identifier name :: rest.map LocatedToken.token := by
      rw [Cursor.tokens, hrest]
      rfl
    have hlast := Cursor.tokens_advance hdot
    refine ⟨_, ?_, .qualified first name⟩
    rw [hname, hdot, Cursor.tokens_advance hlast]
    rfl
  next =>
    obtain ⟨rfl, rfl⟩ := reads_pure.mp h
    exact ⟨[.identifier first], hname, .plain first⟩

theorem sound_identDefs : Sound identDefs (Separated (.mark .comma) IsIdentDef) :=
  sound_separated sound_identDef (by simp)

theorem sound_identifiers : Sound identifiers (Separated (.mark .comma) IsName) :=
  sound_separated sound_identifier (by simp)

/-! ## Expressions -/

section Expressions

variable {expression : Parser Expression} {isExpression : Rule Expression}

/-- A factor that is read is one of the grammar. -/
theorem sound_factor (hexpression : Sound expression isExpression) :
    Sound (factor expression) (IsFactor isExpression) := by
  intro c x c' h
  rw [factor, reads_bind_token] at h
  -- the token at the cursor decides the form; no factor starts with any other token
  cases htoken : c.token with
  | integer value =>
    rw [htoken] at h
    simp only [reads_bind, reads_advance, reads_pure] at h
    obtain ⟨_, _, rfl, rfl, rfl⟩ := h
    exact ⟨[.integer value], Cursor.tokens_eq_cons htoken (by simp), .integer value⟩
  | real value =>
    rw [htoken] at h
    simp only [reads_bind, reads_advance, reads_pure] at h
    obtain ⟨_, _, rfl, rfl, rfl⟩ := h
    exact ⟨[.real value], Cursor.tokens_eq_cons htoken (by simp), .real value⟩
  | string content =>
    rw [htoken] at h
    simp only [reads_bind, reads_advance, reads_pure] at h
    obtain ⟨_, _, rfl, rfl, rfl⟩ := h
    exact ⟨[.string content], Cursor.tokens_eq_cons htoken (by simp), .string content⟩
  | identifier name =>
    rw [htoken] at h
    simp only [reads_bind, reads_pure] at h
    obtain ⟨q, _, hq, rfl, rfl⟩ := h
    obtain ⟨ts, hts, hrule⟩ := sound_qualident hq
    exact ⟨ts, hts, .name hrule⟩
  | mark symbol =>
    rw [htoken] at h
    cases symbol with
    | leftParen =>
      simp only [reads_bind, reads_advance, reads_pure] at h
      obtain ⟨_, _, rfl, e, c₁, he, _, c₂, hclose, rfl, rfl⟩ := h
      obtain ⟨ts, hts, hrule⟩ := hexpression he
      refine ⟨_, ?_, .parenthesized hrule⟩
      rw [Cursor.tokens_eq_cons htoken (by simp), hts, tokens_of_reads_expect hclose (by simp)]
      simp
    | _ => exact absurd h not_reads_fail
  | keyword word =>
    rw [htoken] at h
    exact absurd h not_reads_fail
  | endOfFile =>
    rw [htoken] at h
    exact absurd h not_reads_fail

theorem sound_term (hexpression : Sound expression isExpression) :
    Sound (term expression) (IsTerm isExpression) := by
  intro c x c' h
  simp only [term, reads_bind, reads_pure] at h
  obtain ⟨first, c₁, hfirst, others, c₂, hothers, rfl, rfl⟩ := h
  obtain ⟨ts, hts, hrule⟩ := sound_factor hexpression hfirst
  obtain ⟨us, hus, hrules⟩ := sound_operations rfl (sound_factor hexpression) hothers
  rw [← isFactorOperation_eq_operation] at hrules
  exact ⟨ts ++ us, by rw [hts, hus, List.append_assoc], .mk hrule hrules⟩

theorem sound_sign : Sound sign (Optional IsSign) := by
  intro c x c' h
  simp only [sign, reads_bind, reads_token] at h
  obtain ⟨_, _, ⟨rfl, rfl⟩, h⟩ := h
  split at h
  next sign hsign =>
    simp only [reads_bind, reads_advance, reads_pure] at h
    obtain ⟨_, _, rfl, rfl, rfl⟩ := h
    have htoken := sign?_eq_some.mp hsign
    refine ⟨[sign.token], Cursor.tokens_eq_cons htoken ?_, .some (.mk sign)⟩
    cases sign <;> simp [Sign.token]
  next =>
    obtain ⟨rfl, rfl⟩ := reads_pure.mp h
    exact ⟨[], rfl, .none⟩

/-- An expression that is read is one of the grammar. -/
theorem sound_simpleExpression (hexpression : Sound expression isExpression) :
    Sound (simpleExpression expression) (IsSimpleExpression isExpression) := by
  intro c x c' h
  simp only [simpleExpression, reads_bind, reads_pure] at h
  obtain ⟨sign, c₁, hsign, first, c₂, hfirst, others, c₃, hothers, rfl, rfl⟩ := h
  obtain ⟨ss, hss, hsignRule⟩ := sound_sign hsign
  obtain ⟨ts, hts, hrule⟩ := sound_term hexpression hfirst
  obtain ⟨us, hus, hrules⟩ := sound_operations rfl (sound_term hexpression) hothers
  rw [← isTermOperation_eq_operation] at hrules
  refine ⟨ss ++ ts ++ us, ?_, .mk hsignRule hrule hrules⟩
  rw [hss, hts, hus]
  simp

end Expressions

/-! ## Parameters -/

/-- The dimensions that are counted are within the limit and stand in front of the name. -/
theorem sound_openArrays (limit : Nat) {c c' : Cursor} {dimensions : Nat}
    (h : Reads (openArrays limit) c dimensions c') :
    dimensions ≤ limit ∧ ∀ {us : List Token} {q : Qualident}, IsFormalType us ⟨0, q⟩ →
      ∃ ts, c.tokens = ts ++ c'.tokens ∧ IsFormalType (ts ++ us) ⟨dimensions, q⟩ := by
  induction limit generalizing c dimensions with
  | zero =>
    simp only [openArrays, reads_bind, reads_token] at h
    obtain ⟨_, _, ⟨rfl, rfl⟩, h⟩ := h
    split at h
    -- a dimension beyond the limit is an error
    · exact absurd h not_reads_fail
    · obtain ⟨rfl, rfl⟩ := reads_pure.mp h
      exact ⟨Nat.le_refl 0, fun hname => ⟨[], rfl, hname⟩⟩
  | succ limit ih =>
    simp only [openArrays, reads_bind] at h
    obtain ⟨b, c₁, haccept, h⟩ := h
    have htokens := tokens_of_reads_accept haccept (by simp)
    cases b with
    | true =>
      simp only [↓reduceIte, reads_bind, reads_pure] at h htokens
      obtain ⟨_, c₂, hof, inner, c₃, hinner, rfl, rfl⟩ := h
      obtain ⟨hle, hrest⟩ := ih hinner
      refine ⟨Nat.succ_le_succ hle, fun hname => ?_⟩
      obtain ⟨ts, hts, hrule⟩ := hrest hname
      refine ⟨.keyword .ARRAY :: .keyword .OF :: ts, ?_, .openArray hrule⟩
      rw [htokens, tokens_of_reads_expect hof (by simp), hts]
      rfl
    | false =>
      simp only [Bool.false_eq_true, ↓reduceIte, reads_pure] at h htokens
      obtain ⟨rfl, rfl⟩ := h
      exact ⟨Nat.zero_le _, fun hname => ⟨[], htokens, hname⟩⟩

/-- The limit on open arrays holds of every formal type that is read. -/
theorem sound_formalType :
    Sound formalType fun ts t => IsFormalType ts t ∧ t.openArrays ≤ maxOpenArrays := by
  intro c x c' h
  simp only [formalType, reads_bind, reads_pure] at h
  obtain ⟨dimensions, c₁, hdimensions, q, c₂, hq, rfl, rfl⟩ := h
  obtain ⟨hle, hopen⟩ := sound_openArrays maxOpenArrays hdimensions
  obtain ⟨us, hus, hrule⟩ := sound_qualident hq
  obtain ⟨ts, hts, hformal⟩ := hopen (.name hrule)
  exact ⟨ts ++ us, by rw [hts, hus, List.append_assoc], hformal, hle⟩

theorem sound_parameterSection :
    Sound parameterSection (IsParameterSection.And fun s => s.type.openArrays ≤ maxOpenArrays) := by
  intro c x c' h
  rw [parameterSection, reads_bind] at h
  obtain ⟨byReference, c₁, hvar, h⟩ := h
  have hvarTokens := tokens_of_reads_accept hvar (by simp)
  obtain ⟨ts, hts, hnames, htype, hle⟩ :=
    sound_joined sound_identifiers sound_formalType (by simp) h
  cases byReference with
  | true => exact ⟨_, by rw [hvarTokens, hts]; rfl, .byReference hnames htype, hle⟩
  | false => exact ⟨_, by rw [hvarTokens, hts]; rfl, .byValue hnames htype, hle⟩

theorem sound_parameterSections :
    Sound parameterSections fun ts sections =>
      IsParameterSections ts sections ∧ ∀ s ∈ sections, s.type.openArrays ≤ maxOpenArrays := by
  intro c x c' h
  simp only [parameterSections, reads_bind, reads_token] at h
  obtain ⟨_, _, ⟨rfl, rfl⟩, h⟩ := h
  split at h
  · obtain ⟨rfl, rfl⟩ := reads_pure.mp h
    exact ⟨[], rfl, .none, (by simp)⟩
  · obtain ⟨ts, hts, hrules⟩ := (sound_separated sound_parameterSection (by simp)) h
    rw [separated_and] at hrules
    obtain ⟨hrule, hle⟩ := hrules
    exact ⟨ts, hts, .some hrule, hle⟩

def fewOpenArrays (p : FormalParameters) : Prop :=
  ∀ s ∈ p.sections, s.type.openArrays ≤ maxOpenArrays

/-- Parameters that are read are those of the grammar, with few dimensions. -/
theorem sound_formalParameters :
    Sound formalParameters fun ts p =>
      IsFormalParameters.And fewOpenArrays (.mark .leftParen :: ts) p := by
  intro c x c' h
  simp only [formalParameters, reads_bind, reads_pure] at h
  obtain ⟨sections, c₁, hsections, _, c₂, hclose, result, c₃, hresult, rfl, rfl⟩ := h
  obtain ⟨ss, hss, hrule, hle⟩ := sound_parameterSections hsections
  obtain ⟨rs, hrs, hresultRule⟩ := (sound_optional sound_qualident.behind (by simp)) hresult
  refine ⟨_, ?_, .mk hrule hresultRule, hle⟩
  rw [hss, tokens_of_reads_expect hclose (by simp), hrs]
  simp

/-! ## Types -/

section Types

variable {parameters : Rule FormalParameters} {expression : Parser Expression}
  {isExpression : Rule Expression} {type : Parser TypeExpr} {isType : Rule TypeExpr}

theorem sound_baseType : Sound baseType fun ts q => IsBaseType (.mark .leftParen :: ts) q := by
  intro c x c' h
  simp only [baseType, reads_bind, reads_pure] at h
  obtain ⟨q, c₁, hq, _, c₂, hclose, rfl, rfl⟩ := h
  obtain ⟨ts, hts, hrule⟩ := sound_qualident hq
  refine ⟨_, ?_, .mk hrule⟩
  rw [hts, tokens_of_reads_expect hclose (by simp)]
  simp

theorem sound_fieldList (htype : Sound type isType) :
    Sound (fieldList type) (IsFieldList isType) := by
  rw [isFieldList_eq_joined]
  exact sound_joined sound_identDefs htype (by simp)

/-- One step through field lists: the one at the cursor, if an identifier is there, and the others
behind a semicolon. -/
theorem reads_fieldListsUpTo {limit : Nat} {c c' : Cursor} {fields : List FieldList} :
    Reads (fieldListsUpTo type (limit + 1)) c fields c' ↔
      ∃ here c₁,
        (isIdentifier c.token = true ∧
          (∃ field, (fieldList type).Reads c field c₁ ∧ some field = here) ∨
          isIdentifier c.token = false ∧ none = here ∧ c = c₁) ∧
        ∃ b c₂, (accept (.mark .semicolon)).Reads c₁ b c₂ ∧
          (b = true ∧ (∃ others, (fieldListsUpTo type limit).Reads c₂ others c' ∧
              here.toList ++ others = fields) ∨
            b = false ∧ here.toList = fields ∧ c₂ = c') := by
  simp only [fieldListsUpTo, reads_bind, reads_token]
  constructor
  · rintro ⟨_, _, ⟨rfl, rfl⟩, h⟩
    -- whether there is a field list here does not matter for what comes behind it
    split at h
    next hidentifier =>
      simp only [reads_bind, reads_map, reads_ite, reads_pure] at h
      obtain ⟨_, c₁, ⟨field, hfield, rfl⟩, b, c₂, hb, h⟩ := h
      refine ⟨some field, c₁, .inl ⟨hidentifier, field, hfield, rfl⟩, b, c₂, hb, ?_⟩
      rcases h with ⟨hb, others, _, hothers, rfl, rfl⟩ | ⟨hb, rfl, rfl⟩
      · exact .inl ⟨hb, others, hothers, rfl⟩
      · exact .inr ⟨Bool.eq_false_iff.mpr hb, rfl, rfl⟩
    next hidentifier =>
      simp only [reads_bind, reads_ite, reads_pure] at h
      obtain ⟨_, _, ⟨rfl, rfl⟩, b, c₂, hb, h⟩ := h
      refine ⟨none, c, .inr ⟨Bool.eq_false_iff.mpr hidentifier, rfl, rfl⟩, b, c₂, hb, ?_⟩
      rcases h with ⟨hb, others, _, hothers, rfl, rfl⟩ | ⟨hb, rfl, rfl⟩
      · exact .inl ⟨hb, others, hothers, rfl⟩
      · exact .inr ⟨Bool.eq_false_iff.mpr hb, rfl, rfl⟩
  · rintro ⟨here, c₁, hhere, b, c₂, hb, hothers⟩
    refine ⟨_, _, ⟨rfl, rfl⟩, ?_⟩
    rcases hhere with ⟨hidentifier, field, hfield, rfl⟩ | ⟨hidentifier, rfl, rfl⟩
    · rw [if_pos hidentifier]
      simp only [reads_bind, reads_map, reads_ite, reads_pure]
      refine ⟨_, c₁, ⟨field, hfield, rfl⟩, b, c₂, hb, ?_⟩
      rcases hothers with ⟨rfl, others, hothers, rfl⟩ | ⟨rfl, rfl, rfl⟩
      · exact .inl ⟨rfl, others, c', hothers, rfl, rfl⟩
      · exact .inr ⟨Bool.false_ne_true, rfl, rfl⟩
    · rw [if_neg (Bool.eq_false_iff.mp hidentifier)]
      simp only [reads_bind, reads_ite, reads_pure]
      refine ⟨_, c, ⟨rfl, rfl⟩, b, c₂, hb, ?_⟩
      rcases hothers with ⟨rfl, others, hothers, rfl⟩ | ⟨rfl, rfl, rfl⟩
      · exact .inl ⟨rfl, others, c', hothers, rfl, rfl⟩
      · exact .inr ⟨Bool.false_ne_true, rfl, rfl⟩

theorem sound_fieldListsUpTo (htype : Sound type isType) (limit : Nat) :
    Sound (fieldListsUpTo type limit) (IsFieldLists isType) := by
  induction limit with
  | zero =>
    intro c x c' h
    simp only [fieldListsUpTo, reads_pure] at h
    obtain ⟨rfl, rfl⟩ := h
    exact ⟨[], rfl, .single .none⟩
  | succ limit ih =>
    intro c x c' h
    obtain ⟨here, c₁, hhere, b, c₂, hb, hothers⟩ := reads_fieldListsUpTo.mp h
    -- the field list here may be missing, as between two semicolons
    have hfield : ∃ ts, c.tokens = ts ++ c₁.tokens ∧ Optional (IsFieldList isType) ts here := by
      rcases hhere with ⟨-, field, hfield, rfl⟩ | ⟨-, rfl, rfl⟩
      · obtain ⟨ts, hts, hrule⟩ := sound_fieldList htype hfield
        exact ⟨ts, hts, .some hrule⟩
      · exact ⟨[], rfl, .none⟩
    obtain ⟨ts, hts, hrule⟩ := hfield
    have hmark := tokens_of_reads_accept hb (by simp)
    rcases hothers with ⟨rfl, others, hothers, rfl⟩ | ⟨rfl, rfl, rfl⟩
    · obtain ⟨us, hus, hrules⟩ := ih hothers
      refine ⟨_, ?_, .cons hrule hrules⟩
      rw [hts, hmark, hus]
      simp
    · refine ⟨ts, ?_, .single hrule⟩
      rw [hts, hmark]
      rfl

/-- Field lists that are read are those of the grammar, without the empty ones. -/
theorem sound_fieldLists (htype : Sound type isType) :
    Sound (fieldLists type) (IsFieldLists isType) := by
  intro c x c' h
  simp only [fieldLists, reads_bind, reads_get] at h
  obtain ⟨_, _, ⟨rfl, rfl⟩, h⟩ := h
  exact sound_fieldListsUpTo htype _ h

/-- A type that is read is one of the grammar. -/
theorem sound_typeForm
    (hparameters : Sound formalParameters fun ts p => parameters (.mark .leftParen :: ts) p)
    (hexpression : Sound expression isExpression) (htype : Sound type isType) :
    Sound (typeForm expression type) (IsTypeForm parameters isExpression isType) := by
  intro c x c' h
  simp only [typeForm, reads_bind, reads_token] at h
  obtain ⟨_, _, ⟨rfl, rfl⟩, h⟩ := h
  -- the first token tells the form of the type
  split at h
  next =>
    simp only [reads_bind, reads_pure] at h
    obtain ⟨q, _, hq, rfl, rfl⟩ := h
    obtain ⟨ts, hts, hrule⟩ := sound_qualident hq
    exact ⟨ts, hts, .named hrule⟩
  next htoken =>
    simp only [reads_bind, reads_advance, reads_pure] at h
    obtain ⟨_, _, rfl, lengths, c₁, hlengths, _, c₂, hof, element, c₃, helement, rfl, rfl⟩ := h
    obtain ⟨ls, hls, hlengthsRule⟩ := (sound_separated hexpression (by simp)) hlengths
    obtain ⟨ts, hts, hrule⟩ := htype helement
    refine ⟨_, ?_, .array hlengthsRule hrule⟩
    rw [Cursor.tokens_eq_cons htoken (by simp), hls, tokens_of_reads_expect hof (by simp), hts]
    simp
  next htoken =>
    simp only [reads_bind, reads_advance, reads_pure] at h
    obtain ⟨_, _, rfl, base, c₁, hbase, fields, c₂, hfields, _, c₃, hend, rfl, rfl⟩ := h
    obtain ⟨bs, hbs, hbaseRule⟩ := (sound_optional sound_baseType (by simp)) hbase
    obtain ⟨fs, hfs, hrule⟩ := sound_fieldLists htype hfields
    refine ⟨_, ?_, .record hbaseRule hrule⟩
    rw [Cursor.tokens_eq_cons htoken (by simp), hbs, hfs, tokens_of_reads_expect hend (by simp)]
    simp
  next htoken =>
    simp only [reads_bind, reads_advance, reads_pure] at h
    obtain ⟨_, _, rfl, _, c₁, hto, target, c₂, htarget, rfl, rfl⟩ := h
    obtain ⟨ts, hts, hrule⟩ := htype htarget
    refine ⟨_, ?_, .pointer hrule⟩
    rw [Cursor.tokens_eq_cons htoken (by simp), tokens_of_reads_expect hto (by simp), hts]
    rfl
  next htoken =>
    simp only [reads_bind, reads_advance, reads_pure] at h
    obtain ⟨_, _, rfl, formal, c₁, hformal, rfl, rfl⟩ := h
    obtain ⟨ps, hps, hrule⟩ := (sound_optional hparameters (by simp)) hformal
    refine ⟨_, ?_, .procedure hrule⟩
    rw [Cursor.tokens_eq_cons htoken (by simp), hps]
    rfl
  next => exact absurd h not_reads_fail

end Types

/-! ## Declarations -/

theorem sound_terminated {item : Parser α} {rule : Rule α} (hitem : Sound item rule) :
    Sound (terminated item) (Terminated rule) := by
  intro c x c' h
  simp only [terminated, reads_bind, reads_pure] at h
  obtain ⟨y, c₁, hy, _, c₂, hsemicolon, rfl, rfl⟩ := h
  obtain ⟨ts, hts, hrule⟩ := hitem hy
  refine ⟨_, ?_, .mk hrule⟩
  rw [hts, tokens_of_reads_expect hsemicolon (by simp)]
  simp

/-- A section that is read stands behind its heading or is absent. -/
theorem sound_declarationSection {heading : Keyword} {item : Parser α} {rule : Rule α}
    (hitem : Sound item rule) : Sound (declarationSection heading item)
      (IsSection heading rule) := by
  intro c x c' h
  simp only [declarationSection, reads_bind] at h
  obtain ⟨b, c₁, haccept, h⟩ := h
  have htokens := tokens_of_reads_accept haccept (by simp)
  cases b with
  | true =>
    simp only [↓reduceIte] at h htokens
    obtain ⟨ts, hts, hrules⟩ := sound_many (sound_terminated hitem) h
    exact ⟨.keyword heading :: ts, by rw [htokens, hts]; rfl, .present hrules⟩
  | false =>
    simp only [Bool.false_eq_true, ↓reduceIte, reads_pure] at h htokens
    obtain ⟨rfl, rfl⟩ := h
    exact ⟨[], htokens, .absent⟩

section Declarations

variable {parameters : Rule FormalParameters} {expression : Parser Expression}
  {isExpression : Rule Expression} {type : Parser TypeExpr} {isType : Rule TypeExpr}
  {procedure : Parser ProcedureDeclaration} {isProcedure : Rule ProcedureDeclaration}

theorem sound_constDeclaration (hexpression : Sound expression isExpression) :
    Sound (constDeclaration expression) (IsConstDeclaration isExpression) := by
  rw [isConstDeclaration_eq_joined]
  exact sound_joined sound_identDef hexpression (by simp)

theorem sound_typeDeclaration (htype : Sound type isType) :
    Sound (typeDeclaration type) (IsTypeDeclaration isType) := by
  rw [isTypeDeclaration_eq_joined]
  exact sound_joined sound_identDef htype (by simp)

theorem sound_variableDeclaration (htype : Sound type isType) :
    Sound (variableDeclaration type) (IsVariableDeclaration isType) := by
  rw [isVariableDeclaration_eq_joined]
  exact sound_joined sound_identDefs htype (by simp)

/-- Declarations that are read are those of the grammar. -/
theorem sound_declarations (hexpression : Sound expression isExpression)
    (htype : Sound type isType) (hprocedure : Sound procedure isProcedure) :
    Sound (declarations expression type procedure)
      (IsDeclarations isExpression isType isProcedure) := by
  intro c x c' h
  simp only [declarations, reads_bind, reads_pure] at h
  obtain ⟨constants, c₁, hconstants, types, c₂, htypes, vars, c₃, hvars, procedures, c₄,
    hprocedures, rfl, rfl⟩ := h
  obtain ⟨cs, hcs, hconstantsRule⟩ :=
    sound_declarationSection (sound_constDeclaration hexpression) hconstants
  obtain ⟨ts, hts, htypesRule⟩ := sound_declarationSection (sound_typeDeclaration htype) htypes
  obtain ⟨vs, hvs, hvarsRule⟩ := sound_declarationSection (sound_variableDeclaration htype) hvars
  obtain ⟨ps, hps, hproceduresRule⟩ := sound_many (sound_terminated hprocedure) hprocedures
  refine ⟨_, ?_, .mk hconstantsRule htypesRule hvarsRule hproceduresRule⟩
  rw [hcs, hts, hvs, hps]
  simp

/-- A heading that is read is one of the grammar. -/
theorem sound_procedureHeading
    (hparameters : Sound formalParameters fun ts p => parameters (.mark .leftParen :: ts) p) :
    Sound procedureHeading (IsProcedureHeading parameters) := by
  intro c x c' h
  simp only [procedureHeading, reads_bind, reads_pure] at h
  obtain ⟨_, c₁, hkeyword, name, c₂, hname, formal, c₃, hformal, rfl, rfl⟩ := h
  obtain ⟨ns, hns, hnameRule⟩ := sound_identDef hname
  obtain ⟨ps, hps, hrule⟩ := (sound_optional hparameters (by simp)) hformal
  refine ⟨_, ?_, .mk hnameRule hrule⟩
  rw [tokens_of_reads_expect hkeyword (by simp), hns, hps]
  simp

/-- A procedure that is read is one of the grammar. -/
theorem sound_procedureBody
    (hparameters : Sound formalParameters fun ts p => parameters (.mark .leftParen :: ts) p)
    (hexpression : Sound expression isExpression) (htype : Sound type isType)
    (hprocedure : Sound procedure isProcedure) :
    Sound (procedureBody expression type procedure)
      (IsProcedureBody parameters isExpression isType isProcedure) := by
  intro c x c' h
  simp only [procedureBody, reads_bind, reads_pure] at h
  obtain ⟨heading, c₁, hheading, _, c₂, hsemicolon, body, c₃, hbody, result, c₄, hresult, _, c₅,
    hend, endName, c₆, hendName, rfl, rfl⟩ := h
  obtain ⟨hs, hhs, hheadingRule⟩ := sound_procedureHeading hparameters hheading
  obtain ⟨ds, hds, hbodyRule⟩ := sound_declarations hexpression htype hprocedure hbody
  obtain ⟨rs, hrs, hresultRule⟩ := (sound_optional hexpression.behind (by simp)) hresult
  refine ⟨_, ?_, .mk hheadingRule hbodyRule hresultRule endName⟩
  rw [hhs, tokens_of_reads_expect hsemicolon (by simp), hds, hrs,
    tokens_of_reads_expect hend (by simp), reads_identifier hendName]
  simp

theorem sound_importList :
    Sound importList fun ts names => IsImportList (.keyword .IMPORT :: ts) names := by
  intro c x c' h
  simp only [importList, reads_bind, reads_pure] at h
  obtain ⟨names, c₁, hnames, _, c₂, hsemicolon, rfl, rfl⟩ := h
  obtain ⟨ns, hns, hrule⟩ := sound_identifiers hnames
  refine ⟨_, ?_, .mk hrule⟩
  rw [hns, tokens_of_reads_expect hsemicolon (by simp)]
  simp

/-- A module that is read is one of the grammar. -/
theorem sound_moduleBody (hexpression : Sound expression isExpression) (htype : Sound type isType)
    (hprocedure : Sound procedure isProcedure) :
    Sound (moduleBody expression type procedure)
      (IsModuleBody isExpression isType isProcedure) := by
  intro c x c' h
  simp only [moduleBody, reads_bind, reads_pure] at h
  obtain ⟨_, c₁, hkeyword, name, c₂, hname, _, c₃, hsemicolon, imports, c₄, himports, body, c₅,
    hbody, _, c₆, hend, endName, c₇, hendName, _, c₈, hdot, rfl, rfl⟩ := h
  obtain ⟨is, his, himportsRule⟩ := (sound_optional sound_importList (by simp)) himports
  obtain ⟨ds, hds, hbodyRule⟩ := sound_declarations hexpression htype hprocedure hbody
  refine ⟨_, ?_, .mk name himportsRule hbodyRule endName⟩
  rw [tokens_of_reads_expect hkeyword (by simp), reads_identifier hname,
    tokens_of_reads_expect hsemicolon (by simp), his, hds, tokens_of_reads_expect hend (by simp),
    reads_identifier hendName, tokens_of_reads_expect hdot (by simp)]
  simp

end Declarations

end Parser

end Oberon
