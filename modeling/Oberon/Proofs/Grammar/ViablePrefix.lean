import Oberon.Proofs.Grammar.Soundness
import Oberon.Proofs.Syntax.Lookahead

/-!
# What a parser has read can be completed

Every parser tracks its rule, one lemma for each construct: wherever it fails, the tokens that it
has stepped over begin something that is derived, and the tokens behind the next two play no part.
The limits on nesting and on open arrays cut off runs, but the rules know nothing of them.
-/

namespace Oberon

namespace Parser

open Grammar

variable {α β γ : Type}

/-- What is tracked is tracked behind an opening token as well. -/
theorem Tracks.behind {t : Token} {item : Parser α} {rule : Rule α} (h : Tracks item rule) :
    Tracks item fun ts x => Behind t rule (t :: ts) x :=
  h.mono fun _ _ hx => .mk hx

/-- Two items with a token between them are tracked if both are. -/
theorem tracks_joined {left : Parser α} {right : Parser β} {isLeft : Rule α} {isRight : Rule β}
    {between : Token} {combine : α → β → γ} (hleft : Tracks left isLeft)
    (hright : Tracks right isRight)
    (hbetween : between ≠ .endOfFile) :
    Tracks (do let x ← left; expect between; return combine x (← right))
      (Joined isLeft between isRight combine) := by
  refine hleft.bind fun ts x hx => .expect hbetween ?_
  refine hright.bind fun us y hy => .pure ?_
  rw [List.append_nil]
  exact .mk hx hy

/-! ## Names -/

/-- An identifier is one token, or the place where the parser stops. -/
theorem Tracks.identifier {f : String → Parser α} {rule : Rule α}
    (h : ∀ name, Tracks (f name) fun ts x => rule (.identifier name :: ts) x) :
    Tracks (identifier >>= f) rule := by
  have hderives : ∃ ts x, rule ts x := by
    obtain ⟨ts, x, hx⟩ := (h "").derives
    exact ⟨_, x, hx⟩
  rw [Parser.identifier, bind_assoc]
  refine .token hderives fun t c htoken => ?_
  cases t with
  | identifier name =>
    rw [bind_assoc]
    exact .advance htoken (by simp) (h name)
  | _ => exact .fail _ hderives

theorem tracks_identifier : Tracks identifier IsName := by
  rw [← bind_pure identifier]
  exact .identifier fun name => .pure (.mk name)

theorem tracks_identDef : Tracks identDef IsIdentDef :=
  .identifier fun name =>
    .accept (by simp) (.pure (.exported name)) (.pure (.hidden name))

/-- A second token decides whether the name has a qualifier. -/
theorem tracks_qualident : Tracks qualident IsQualident := by
  refine .identifier fun first => ⟨⟨[], _, .plain first⟩, fun c => ?_⟩
  have hqualified :
      Tracks (expect (.mark .dot) >>= fun _ => identifier >>= fun name => pure ⟨some first, name⟩)
      fun ts x => IsQualident (.identifier first :: ts) x :=
    .expect (by simp) (.identifier fun name => .pure (.qualified first name))
  -- the two tokens at the cursor decide whether the name goes on
  by_cases hnext : ∃ name, c.tokens.take 2 = [.mark .dot, .identifier name]
  · obtain ⟨name, hname⟩ := hnext
    refine (hqualified.run c).of_run_eq fun d hnear => ?_
    rw [hname] at hnear
    obtain ⟨rest, line, depth⟩ := d
    match rest with
    | [] => cases hnear
    | [⟨t, _⟩] => cases hnear
    | ⟨t, _⟩ :: ⟨u, _⟩ :: rest =>
      cases hnear
      rfl
  · refine (TracksAt.pure (.plain first)).of_run_eq fun d hnear => ?_
    rw [← hnear] at hnext
    simp only [StateT.run_bind, StateT.run_get, pure_bind]
    split
    next name _ _ hrest =>
      refine absurd ⟨name, ?_⟩ hnext
      rw [Cursor.tokens, hrest]
      rfl
    next => rfl

theorem tracks_identDefs : Tracks identDefs (Separated (.mark .comma) IsIdentDef) :=
  tracks_separated tracks_identDef (by simp)

theorem tracks_identifiers : Tracks identifiers (Separated (.mark .comma) IsName) :=
  tracks_separated tracks_identifier (by simp)

/-! ## Expressions -/

section Expressions

variable {expression : Parser Expression} {isExpression : Rule Expression}

/-- The first token decides which factor it is. -/
theorem tracks_factor (h : Tracks expression isExpression) :
    Tracks (factor expression) (IsFactor isExpression) := by
  have hderives : ∃ ts x, IsFactor isExpression ts x := ⟨_, _, .string ""⟩
  refine .token hderives fun t c htoken => ?_
  cases t with
  | integer value => exact .advance htoken (by simp) (.pure (.integer value))
  | real value => exact .advance htoken (by simp) (.pure (.real value))
  | string content => exact .advance htoken (by simp) (.pure (.string content))
  | identifier name =>
    exact (tracks_qualident.bind fun us q hq => .pure (by simpa using .name hq)).run c
  | keyword word => exact .fail _ hderives
  | endOfFile => exact .fail _ hderives
  | mark symbol =>
    cases symbol with
    | leftParen =>
      refine .advance htoken (by simp) (h.bind fun us e he => .expect (by simp) (.pure ?_))
      exact .parenthesized he
    | _ => exact .fail _ hderives

/-- A term is tracked operation by operation. -/
theorem tracks_term (h : Tracks expression isExpression) :
    Tracks (term expression) (IsTerm isExpression) := by
  refine (tracks_factor h).bind fun us first hfirst => ?_
  refine (tracks_operations rfl (tracks_factor h)).bind fun vs others hothers => .pure ?_
  rw [List.append_nil]
  rw [← isFactorOperation_eq_operation] at hothers
  exact .mk hfirst hothers

theorem tracks_sign : Tracks sign (Optional IsSign) := by
  refine .token ⟨[], _, .none⟩ fun t c htoken => ?_
  cases hsign : sign? t with
  | none => exact .pure .none
  | some sign =>
    obtain rfl := sign?_eq_some.mp hsign
    exact .advance htoken (by cases sign <;> simp [Sign.token]) (.pure (.some (.mk sign)))

/-- An expression is tracked operation by operation, behind its sign. -/
theorem tracks_simpleExpression (h : Tracks expression isExpression) :
    Tracks (simpleExpression expression) (IsSimpleExpression isExpression) := by
  refine tracks_sign.bind fun ss sign hsign => (tracks_term h).bind fun us first hfirst => ?_
  refine (tracks_operations rfl (tracks_term h)).bind fun vs others hothers => .pure ?_
  rw [List.append_nil, ← List.append_assoc]
  rw [← isTermOperation_eq_operation] at hothers
  exact .mk hsign hfirst hothers

end Expressions

/-! ## Parameters -/

/-- `{ARRAY OF}`, by what it makes of the name of a type behind it. -/
def OpenArrays : Rule Nat := fun ts dimensions =>
  ∀ us q, IsQualident us q → IsFormalType (ts ++ us) ⟨dimensions, q⟩

/-- Dimensions are tracked pair of words by pair of words. -/
theorem tracks_openArrays (limit : Nat) : Tracks (openArrays limit) OpenArrays := by
  have hnone : OpenArrays [] 0 := fun us q hq => .name hq
  induction limit with
  | zero =>
    refine .token ⟨[], 0, hnone⟩ fun t c _ => ?_
    split
    · exact .fail _ ⟨[], 0, hnone⟩
    · exact .pure hnone
  | succ limit ih =>
    refine .accept (by simp) (.expect (by simp) ?_) (.pure hnone)
    refine ih.bind fun ts dimensions hdimensions => .pure fun us q hq => ?_
    rw [List.append_nil]
    exact .openArray (hdimensions us q hq)

/-- A formal type is tracked, whatever number of dimensions it has. -/
theorem tracks_formalType : Tracks formalType IsFormalType := by
  refine (tracks_openArrays maxOpenArrays).bind fun ts dimensions hdimensions => ?_
  refine tracks_qualident.bind fun us q hq => .pure ?_
  rw [List.append_nil]
  exact hdimensions us q hq

theorem tracks_parameterSection : Tracks parameterSection IsParameterSection := by
  refine .accept (by simp) ?_ ?_
  · refine (tracks_joined tracks_identifiers tracks_formalType (by simp)).mono ?_
    rintro _ _ ⟨hnames, htype⟩
    exact .byReference hnames htype
  · refine (tracks_joined tracks_identifiers tracks_formalType (by simp)).mono ?_
    rintro _ _ ⟨hnames, htype⟩
    exact .byValue hnames htype

theorem tracks_parameterSections : Tracks parameterSections IsParameterSections := by
  refine .token ⟨[], [], .none⟩ fun t c _ => ?_
  split
  · exact .pure .none
  · exact ((tracks_separated tracks_parameterSection (by simp)).run c).mono fun _ _ => .some

/-- Parameters are tracked up to the result type. -/
theorem tracks_formalParameters :
    Tracks formalParameters fun ts p => IsFormalParameters (.mark .leftParen :: ts) p := by
  refine tracks_parameterSections.bind fun ss sections hsections => .expect (by simp) ?_
  refine (Tracks.optional (by simp) tracks_qualident.behind).bind fun rs result hresult => .pure ?_
  rw [List.append_nil]
  exact .mk hsections hresult

/-! ## Types -/

section Types

variable {expression : Parser Expression} {isExpression : Rule Expression} {type : Parser TypeExpr}
  {isType : Rule TypeExpr}

theorem tracks_baseType : Tracks baseType fun ts q => IsBaseType (.mark .leftParen :: ts) q :=
  tracks_qualident.bind fun _ _ hq => .expect (by simp) (.pure (.mk hq))

theorem tracks_fieldList (h : Tracks type isType) :
    Tracks (fieldList type) (IsFieldList isType) := by
  rw [isFieldList_eq_joined]
  exact tracks_joined tracks_identDefs h (by simp)

/-- Field lists are tracked one by one; an empty one is no token. -/
theorem tracks_fieldListsUpTo (h : Tracks type isType) (limit : Nat) :
    Tracks (fieldListsUpTo type limit) (IsFieldLists isType) := by
  induction limit with
  | zero => exact .pure (.single .none)
  | succ limit ih =>
    -- whether or not a field list stands here, reading goes on behind it in one way
    have hnext (us : List Token) (field : Option FieldList)
        (hfield : Optional (IsFieldList isType) us field) :
        Tracks (accept (.mark .semicolon) >>= fun b =>
            if b = true then fieldListsUpTo type limit >>=
              fun others => pure (field.toList ++ others)
            else pure field.toList)
          fun ts fields => IsFieldLists isType (us ++ ts) fields := by
      refine .accept (by simp) (ih.bind fun vs others hothers => .pure ?_) (.pure ?_)
      · rw [List.append_nil]
        exact .cons hfield hothers
      · rw [List.append_nil]
        exact .single hfield
    have hhere : Tracks (List.singleton <$> fieldList type) fun us here =>
        ∃ field, here = Option.toList field ∧ Optional (IsFieldList isType) us field :=
      (tracks_fieldList h).map fun us field hfield => ⟨some field, rfl, .some hfield⟩
    refine .token ⟨[], [], .single .none⟩ fun t c _ => ?_
    split
    · refine (hhere.bind fun us here hhere => ?_).run c
      obtain ⟨field, rfl, hfield⟩ := hhere
      exact hnext us field hfield
    · exact (hnext [] none .none).run c

theorem tracks_fieldLists (h : Tracks type isType) :
    Tracks (fieldLists type) (IsFieldLists isType) := by
  refine Tracks.limited (k := 1) (tracks_fieldListsUpTo h) fun limit => ?_
  induction limit with
  | zero =>
    intro c hlength
    cases hlength
  | succ limit ih =>
    intro c hlength
    -- a round that goes on has taken a semicolon
    have hnext (here : List FieldList) {c₁ : Cursor} (hle : c₁.rest.length ≤ c.rest.length) :
        (accept (.mark .semicolon) >>= fun b =>
          if b = true then fieldListsUpTo type (limit + 1) >>= fun others => pure (here ++ others)
          else pure here).run c₁ =
        (accept (.mark .semicolon) >>= fun b =>
          if b = true then fieldListsUpTo type limit >>= fun others => pure (here ++ others)
          else pure here).run c₁ := by
      refine run_bind_congr fun b c₂ haccept => ?_
      obtain ⟨htoken, rfl, rfl⟩ | ⟨-, rfl, rfl⟩ := reads_accept.mp haccept
      · have hshorter := length_advance_lt (c := c₁) (by simp [htoken])
        simp only [↓reduceIte]
        rw [StateT.run_bind, StateT.run_bind, ih c₁.advance (by omega)]
      · rfl
    show (if isIdentifier c.token = true then _ else _ : Parser (List FieldList)).run c =
      (if isIdentifier c.token = true then _ else _ : Parser (List FieldList)).run c
    split
    · refine run_bind_congr fun here c₁ hhere => hnext here ?_
      obtain ⟨field, hfield, -⟩ := reads_map.mp hhere
      exact (tracks_fieldList h).sound.length_le hfield
    · exact hnext [] (Nat.le_refl _)

/-- The first token decides which type it is. -/
theorem tracks_typeForm (hexpression : Tracks expression isExpression)
    (htype : Tracks type isType) :
    Tracks (typeForm expression type) (IsTypeForm IsFormalParameters isExpression isType) := by
  have hderives : ∃ ts x, IsTypeForm IsFormalParameters isExpression isType ts x :=
    ⟨_, _, .named (.plain "")⟩
  refine .token hderives fun t c htoken => ?_
  -- the token decides the form of the type
  split
  · exact (tracks_qualident.bind fun us q hq => .pure (by simpa using .named hq)).run c
  · refine .advance htoken (by simp) ((tracks_separated hexpression (by simp)).bind
      fun ls lengths hlengths => ?_)
    refine .expect (by simp) (htype.bind fun ts element helement => .pure ?_)
    rw [List.append_nil]
    exact .array hlengths helement
  · refine .advance htoken (by simp) ((Tracks.optional (by simp) tracks_baseType).bind
      fun bs base hbase => ?_)
    refine (tracks_fieldLists htype).bind fun fs fields hfields => .expect (by simp) (.pure ?_)
    rw [← List.append_assoc]
    exact .record hbase hfields
  · refine .advance htoken (by simp)
      (.expect (by simp) (htype.bind fun ts target htarget => .pure ?_))
    rw [List.append_nil]
    exact .pointer htarget
  · refine .advance htoken (by simp)
      ((Tracks.optional (by simp) tracks_formalParameters).bind fun ps formal hformal => .pure ?_)
    rw [List.append_nil]
    exact .procedure hformal
  · exact .fail _ hderives

end Types

/-! ## Declarations -/

theorem tracks_terminated {item : Parser α} {rule : Rule α} (h : Tracks item rule) :
    Tracks (terminated item) (Terminated rule) :=
  h.bind fun _ _ hx => .expect (by simp) (.pure (.mk hx))

theorem ne_nil_of_terminated {rule : Rule α} (ts : List Token) (x : α) (h : Terminated rule ts x) :
    ts ≠ [] := by
  cases h
  simp

/-- A section is tracked declaration by declaration. -/
theorem tracks_declarationSection {heading : Keyword} {item : Parser α} {rule : Rule α}
    (h : Tracks item rule) :
    Tracks (declarationSection heading item) (IsSection heading rule) :=
  .accept (by simp) ((tracks_many rfl (tracks_terminated h) ne_nil_of_terminated).mono
    fun _ _ => .present)
    (.pure .absent)

section Declarations

variable {expression : Parser Expression} {isExpression : Rule Expression} {type : Parser TypeExpr}
  {isType : Rule TypeExpr} {procedure : Parser ProcedureDeclaration}
    {isProcedure : Rule ProcedureDeclaration}

theorem tracks_constDeclaration (h : Tracks expression isExpression) :
    Tracks (constDeclaration expression) (IsConstDeclaration isExpression) := by
  rw [isConstDeclaration_eq_joined]
  exact tracks_joined tracks_identDef h (by simp)

theorem tracks_typeDeclaration (h : Tracks type isType) :
    Tracks (typeDeclaration type) (IsTypeDeclaration isType) := by
  rw [isTypeDeclaration_eq_joined]
  exact tracks_joined tracks_identDef h (by simp)

theorem tracks_variableDeclaration (h : Tracks type isType) :
    Tracks (variableDeclaration type) (IsVariableDeclaration isType) := by
  rw [isVariableDeclaration_eq_joined]
  exact tracks_joined tracks_identDefs h (by simp)

theorem tracks_procedureHeading : Tracks procedureHeading
    (IsProcedureHeading IsFormalParameters) := by
  refine .expect (by simp) (tracks_identDef.bind fun ns name hname => ?_)
  refine (Tracks.optional (by simp) tracks_formalParameters).bind fun ps formal hformal => .pure ?_
  rw [List.append_nil]
  exact .mk hname hformal

theorem tracks_importList : Tracks importList fun ts names => IsImportList
    (.keyword .IMPORT :: ts) names :=
  tracks_identifiers.bind fun _ _ hnames => .expect (by simp) (.pure (.mk hnames))

variable (hexpression : Tracks expression isExpression) (htype : Tracks type isType)
  (hprocedure : Tracks procedure isProcedure)
include hexpression htype hprocedure

/-- The sections of a block are tracked in their order. -/
theorem tracks_declarations : Tracks (declarations expression type procedure)
    (IsDeclarations isExpression isType isProcedure) := by
  refine (tracks_declarationSection (tracks_constDeclaration hexpression)).bind
    fun cs constants hconstants => ?_
  refine (tracks_declarationSection (tracks_typeDeclaration htype)).bind fun ts types htypes => ?_
  refine (tracks_declarationSection (tracks_variableDeclaration htype)).bind fun vs vars hvars => ?_
  refine (tracks_many rfl (tracks_terminated hprocedure) ne_nil_of_terminated).bind
    fun ps procedures hprocedures => .pure ?_
  rw [List.append_nil, ← List.append_assoc, ← List.append_assoc]
  exact .mk hconstants htypes hvars hprocedures

/-- A procedure is tracked up to the name behind its `END`. -/
theorem tracks_procedureBody : Tracks (procedureBody expression type procedure)
    (IsProcedureBody IsFormalParameters isExpression isType isProcedure) := by
  refine tracks_procedureHeading.bind fun hs heading hheading => .expect (by simp) ?_
  refine (tracks_declarations hexpression htype hprocedure).bind
    fun ds declarations hdeclarations => ?_
  refine (Tracks.optional (by simp) hexpression.behind).bind fun rs result hresult =>
    .expect (by simp) ?_
  have hbody (endName : String) := IsProcedureBody.mk hheading hdeclarations hresult endName
  simp only [List.append_assoc, List.cons_append] at hbody
  exact .identifier fun endName => .pure (hbody endName)

/-- A module is tracked up to its last point. -/
theorem tracks_moduleBody : Tracks (moduleBody expression type procedure)
    (IsModuleBody isExpression isType isProcedure) := by
  refine .expect (by simp) (.identifier fun name => .expect (by simp) ?_)
  refine (Tracks.optional (by simp) tracks_importList).bind fun is imports himports => ?_
  refine (tracks_declarations hexpression htype hprocedure).bind
    fun ds declarations hdeclarations => ?_
  refine .expect (by simp) (.identifier fun endName => .expect (by simp) (.pure ?_))
  have hbody := IsModuleBody.mk name himports hdeclarations endName
  simp only [List.append_assoc, List.cons_append] at hbody
  exact hbody

end Declarations

/-! ## Budgets -/

/-- There is an expression to complete a text with. -/
theorem isExpression_derives : ∃ ts e, IsExpression ts e :=
  ⟨_, _, .mk (.mk .none (.mk (.string "") .nil) .nil)⟩

/-- There is a type to complete a text with. -/
theorem isType_derives : ∃ ts t, IsType ts t :=
  ⟨_, _, .mk (.named (.plain ""))⟩

/-- There is a procedure to complete a text with. -/
theorem isProcedure_derives : ∃ ts p, IsProcedure ts p :=
  ⟨_, _, .mk (.mk (.mk (.hidden "") .none) (.mk .absent .absent .absent .nil) .none "")⟩

/-- A budget that is used up stops the parser where the rule goes on. -/
theorem tracks_expression (budget : Nat) : Tracks (expression budget) IsExpression := by
  induction budget with
  | zero => exact .fail _ isExpression_derives
  | succ budget ih => exact (tracks_simpleExpression ih).mono fun _ _ => .mk

/-- Types are tracked with any budget, since the grammar has no limit. -/
theorem tracks_type (budget : Nat) : Tracks (type budget) IsType := by
  induction budget with
  | zero => exact .fail _ isType_derives
  | succ budget ih => exact (tracks_typeForm (tracks_expression budget) ih).mono fun _ _ => .mk

/-- Procedures are tracked with any budget, since the grammar has no limit. -/
theorem tracks_procedure (budget : Nat) : Tracks (procedure budget) IsProcedure := by
  induction budget with
  | zero => exact .fail _ isProcedure_derives
  | succ budget ih =>
    exact (tracks_procedureBody (tracks_expression budget) (tracks_type budget) ih).mono
      fun _ _ => .mk

/-- A whole text is tracked if its item is. -/
theorem tracks_whole {item : Parser α} {rule : Rule α} (h : Tracks item rule) :
    Tracks (whole item) rule := by
  refine h.bind fun us x hx => ?_
  rw [← List.append_nil us] at hx
  refine .token ⟨[], x, hx⟩ fun t c _ => ?_
  split
  · exact .pure hx
  · exact .fail _ ⟨[], x, hx⟩

theorem tracks_wholeModule : Tracks wholeModule IsModule :=
  tracks_whole (tracks_moduleBody (tracks_expression _) (tracks_type _) (tracks_procedure _))

end Parser

end Oberon
