import Oberon.Syntax.Parser

/-!
# Parsers that run alike

A parser sees no more of its cursor than the tokens in front of it.  Main statements: each rule of
the grammar runs alike at two cursors with the same tokens in front of them, provided that the
parsers which it is made from do.  It has the same result, or it fails with the same expectation,
and the cursors at the end are related as those at the start.
-/

namespace Oberon

/-- A relation between cursors with the same tokens in front of them that stepping over a token
keeps. -/
structure Likeness where
  Rel : Cursor → Cursor → Prop
  rest : ∀ {c d}, Rel c d → c.rest = d.rest
  advance : ∀ {c d}, Rel c d → Rel c.advance d.advance

namespace Parser

variable {α β ω : Type} {R : Likeness}

/-- Two runs that end in the same way, at related cursors. -/
inductive EndAlike (R : Likeness) : Except Failure (α × Cursor) →
    Except Failure (α × Cursor) → Prop where
  | ok (x : α) {c d : Cursor} (h : R.Rel c d) : EndAlike R (.ok (x, c)) (.ok (x, d))
  | error (expected : Expectation) {c d : Cursor} (h : R.Rel c d) :
    EndAlike R (.error ⟨expected, c⟩) (.error ⟨expected, d⟩)

/-- Two parsers that end in the same way if they start at related cursors. -/
def Alike (R : Likeness) (p q : Parser α) : Prop :=
  ∀ ⦃c d⦄, R.Rel c d → EndAlike R (p.run c) (q.run d)

/-! ## Steps -/

theorem alike_pure (x : α) : Alike R (pure x : Parser α) (pure x) := by
  intro c d h
  exact .ok x h

theorem alike_fail (expected : Expectation) :
    Alike R (fail expected : Parser α) (fail expected) := by
  intro c d h
  exact .error expected h

theorem alike_advance : Alike R advance advance := by
  intro c d h
  exact .ok () (R.advance h)

/-- Parsers that go on alike stay alike. -/
theorem Alike.bind {p q : Parser α} {f g : α → Parser β} (h : Alike R p q)
    (hnext : ∀ x, Alike R (f x) (g x)) : Alike R (p >>= f) (q >>= g) := by
  intro c d hcd
  rw [StateT.run_bind, StateT.run_bind]
  have hfirst := h hcd
  generalize p.run c = first at hfirst
  generalize q.run d = second at hfirst
  cases hfirst with
  | ok x hrelated => exact hnext x hrelated
  | error expected hrelated => exact .error expected hrelated

theorem Alike.map {p q : Parser α} (h : Alike R p q) (f : α → β) : Alike R (f <$> p) (f <$> q) := by
  rw [map_eq_pure_bind, map_eq_pure_bind]
  exact h.bind fun x => alike_pure (f x)

/-- A test that does not look at the cursor keeps parsers alike. -/
theorem Alike.ite {b : Prop} [Decidable b] {p q p' q' : Parser α} (h : Alike R p q)
    (h' : Alike R p' q') : Alike R (if b then p else p') (if b then q else q') := by
  by_cases hb : b
  · rw [if_pos hb, if_pos hb]
    exact h
  · rw [if_neg hb, if_neg hb]
    exact h'

/-- What is in front of the cursor decides how a parser goes on. -/
theorem alike_get {f g : Cursor → Parser α} (h : ∀ c d, c.rest = d.rest → Alike R (f c) (g d)) :
    Alike R (get >>= f) (get >>= g) := by
  intro c d hcd
  exact h c d (R.rest hcd) hcd

theorem alike_token : Alike R token token := by
  refine alike_get fun c d hrest => ?_
  unfold Cursor.token
  rw [hrest]
  exact alike_pure _

/-! ## Combinations -/

theorem alike_accept (t : Token) : Alike R (accept t) (accept t) :=
  alike_token.bind fun _ => (alike_advance.bind fun _ => alike_pure true).ite (alike_pure false)

theorem alike_expect (t : Token) : Alike R (expect t) (expect t) :=
  alike_token.bind fun _ => alike_advance.ite (alike_fail (.token t))

section Items

variable {item item' : Parser α} (hitem : Alike R item item')
include hitem

/-- Options of like items are alike. -/
theorem Alike.optional (t : Token) : Alike R (Parser.optional t item) (Parser.optional t item') :=
  (alike_accept t).bind fun _ => (hitem.bind fun x => alike_pure (some x)).ite (alike_pure none)

/-- Repetitions of like items are alike, with the same limit. -/
theorem Alike.manyUpTo (starts : Token → Bool) (limit : Nat) :
    Alike R (Parser.manyUpTo starts item limit) (Parser.manyUpTo starts item' limit) := by
  induction limit with
  | zero => exact alike_pure []
  | succ limit ih =>
    refine alike_token.bind fun t => Alike.ite ?_ (alike_pure [])
    exact hitem.bind fun first => ih.bind fun others => alike_pure (first :: others)

/-- Repetitions of like items are alike, since what is left has the same length. -/
theorem Alike.many (starts : Token → Bool) :
    Alike R (Parser.many starts item) (Parser.many starts item') := by
  refine alike_get fun c d hrest => ?_
  rw [hrest]
  exact hitem.manyUpTo starts d.rest.length

theorem Alike.operationsUpTo (operator? : Token → Option ω) (combine : ω → α → β) (limit : Nat) :
    Alike R (Parser.operationsUpTo operator? item combine limit)
      (Parser.operationsUpTo operator? item' combine limit) := by
  induction limit with
  | zero => exact alike_pure []
  | succ limit ih =>
    refine alike_token.bind fun t => ?_
    cases operator? t with
    | none => exact alike_pure []
    | some operator =>
      refine alike_advance.bind fun _ => hitem.bind fun first => ?_
      exact ih.bind fun others => alike_pure (combine operator first :: others)

/-- Operations on like operands are alike. -/
theorem Alike.operations (operator? : Token → Option ω) (combine : ω → α → β) :
    Alike R (Parser.operations operator? item combine)
      (Parser.operations operator? item' combine) := by
  refine alike_get fun c d hrest => ?_
  rw [hrest]
  exact hitem.operationsUpTo operator? combine d.rest.length

/-- Separated lists of like items are alike. -/
theorem Alike.separated (separator : Token) :
    Alike R (Parser.separated separator item) (Parser.separated separator item') :=
  hitem.bind fun first => (hitem.operations _ _).bind fun others => alike_pure (first :: others)

theorem Alike.terminated : Alike R (Parser.terminated item) (Parser.terminated item') :=
  hitem.bind fun x => (alike_expect _).bind fun _ => alike_pure x

theorem Alike.declarationSection (heading : Keyword) :
    Alike R (Parser.declarationSection heading item) (Parser.declarationSection heading item') :=
  (alike_accept _).bind fun _ => (hitem.terminated.many _).ite (alike_pure [])

theorem Alike.whole : Alike R (Parser.whole item) (Parser.whole item') :=
  hitem.bind fun x => alike_token.bind fun _ => (alike_pure x).ite (alike_fail _)

end Items

/-! ## Names -/

theorem alike_identifier : Alike R identifier identifier := by
  refine alike_token.bind fun t => ?_
  cases t with
  | identifier name => exact alike_advance.bind fun _ => alike_pure name
  | _ => exact alike_fail .identifier

theorem alike_identDef : Alike R identDef identDef :=
  alike_identifier.bind fun _ => (alike_accept _).bind fun _ => alike_pure _

theorem alike_qualident : Alike R qualident qualident := by
  refine alike_identifier.bind fun first => alike_get fun c d hrest => ?_
  rw [hrest]
  split
  · exact alike_advance.bind fun _ => alike_advance.bind fun _ => alike_pure _
  · exact alike_pure _

theorem alike_identDefs : Alike R identDefs identDefs :=
  alike_identDef.separated _

theorem alike_identifiers : Alike R identifiers identifiers :=
  alike_identifier.separated _

/-! ## Formal parameters -/

theorem alike_openArrays (limit : Nat) : Alike R (openArrays limit) (openArrays limit) := by
  induction limit with
  | zero => exact alike_token.bind fun _ => (alike_fail _).ite (alike_pure 0)
  | succ limit ih =>
    refine (alike_accept _).bind fun _ => Alike.ite ?_ (alike_pure 0)
    exact (alike_expect _).bind fun _ => ih.bind fun dimensions => alike_pure (dimensions + 1)

theorem alike_formalType : Alike R formalType formalType :=
  (alike_openArrays _).bind fun _ => alike_qualident.bind fun _ => alike_pure _

theorem alike_parameterSection : Alike R parameterSection parameterSection :=
  (alike_accept _).bind fun _ => alike_identifiers.bind fun _ => (alike_expect _).bind fun _ =>
    alike_formalType.bind fun _ => alike_pure _

theorem alike_parameterSections : Alike R parameterSections parameterSections :=
  alike_token.bind fun _ => (alike_pure []).ite (alike_parameterSection.separated _)

theorem alike_formalParameters : Alike R formalParameters formalParameters :=
  alike_parameterSections.bind fun _ => (alike_expect _).bind fun _ =>
    (alike_qualident.optional _).bind fun _ => alike_pure _

theorem alike_baseType : Alike R baseType baseType :=
  alike_qualident.bind fun name => (alike_expect _).bind fun _ => alike_pure name

theorem alike_procedureHeading : Alike R procedureHeading procedureHeading :=
  (alike_expect _).bind fun _ => alike_identDef.bind fun _ =>
    (alike_formalParameters.optional _).bind fun _ => alike_pure _

theorem alike_importList : Alike R importList importList :=
  alike_identifiers.bind fun names => (alike_expect _).bind fun _ => alike_pure names

/-! ## Expressions, types and procedures -/

theorem alike_sign : Alike R sign sign := by
  refine alike_token.bind fun t => ?_
  cases sign? t with
  | none => exact alike_pure none
  | some sign => exact alike_advance.bind fun _ => alike_pure (some sign)

section Nested

variable {expression expression' : Parser Expression} {type type' : Parser TypeExpr}
  {procedure procedure' : Parser ProcedureDeclaration}

/-- Factors are alike if the expressions in parentheses are. -/
theorem Alike.factor (h : Alike R expression expression') :
    Alike R (Parser.factor expression) (Parser.factor expression') := by
  refine alike_token.bind fun t => ?_
  -- the token decides the form of the factor
  cases t with
  | integer _ => exact alike_advance.bind fun _ => alike_pure _
  | real _ => exact alike_advance.bind fun _ => alike_pure _
  | string _ => exact alike_advance.bind fun _ => alike_pure _
  | identifier _ => exact alike_qualident.bind fun _ => alike_pure _
  | keyword _ => exact alike_fail .factor
  | endOfFile => exact alike_fail .factor
  | mark mark =>
    cases mark with
    | leftParen =>
      refine alike_advance.bind fun _ => h.bind fun _ => ?_
      exact (alike_expect _).bind fun _ => alike_pure _
    | _ => exact alike_fail .factor

theorem Alike.term (h : Alike R expression expression') :
    Alike R (Parser.term expression) (Parser.term expression') :=
  h.factor.bind fun _ => (h.factor.operations _ _).bind fun _ => alike_pure _

/-- Expressions are alike if the inner ones are. -/
theorem Alike.simpleExpression (h : Alike R expression expression') :
    Alike R (Parser.simpleExpression expression) (Parser.simpleExpression expression') :=
  alike_sign.bind fun _ => h.term.bind fun _ => (h.term.operations _ _).bind fun _ => alike_pure _

theorem Alike.fieldList (h : Alike R type type') :
    Alike R (Parser.fieldList type) (Parser.fieldList type') :=
  alike_identDefs.bind fun _ => (alike_expect _).bind fun _ => h.bind fun _ => alike_pure _

theorem Alike.fieldListsUpTo (h : Alike R type type') (limit : Nat) :
    Alike R (Parser.fieldListsUpTo type limit) (Parser.fieldListsUpTo type' limit) := by
  induction limit with
  | zero => exact alike_pure []
  | succ limit ih =>
    -- whether or not a field list stands here, reading goes on behind it in one way
    have hnext (here : List FieldList) := (alike_accept (R := R) (.mark .semicolon)).bind fun b =>
      (ih.bind fun others => alike_pure (here ++ others)).ite (b := b = true) (alike_pure here)
    refine alike_token.bind fun _ => Alike.ite ?_ ?_
    · exact (h.fieldList.map _).bind hnext
    · exact (alike_pure []).bind hnext

/-- Field lists are alike if their types are. -/
theorem Alike.fieldLists (h : Alike R type type') :
    Alike R (Parser.fieldLists type) (Parser.fieldLists type') := by
  refine alike_get fun c d hrest => ?_
  rw [hrest]
  exact h.fieldListsUpTo _

/-- Types are alike if their expressions and inner types are. -/
theorem Alike.typeForm (hexpression : Alike R expression expression') (htype : Alike R type type') :
    Alike R (Parser.typeForm expression type) (Parser.typeForm expression' type') := by
  refine alike_token.bind fun t => ?_
  -- the token decides the form of the type
  split
  · exact alike_qualident.bind fun _ => alike_pure _
  · refine alike_advance.bind fun _ => (hexpression.separated _).bind fun _ => ?_
    exact (alike_expect _).bind fun _ => htype.bind fun _ => alike_pure _
  · refine alike_advance.bind fun _ => (alike_baseType.optional _).bind fun _ => ?_
    refine htype.fieldLists.bind fun _ => ?_
    exact (alike_expect _).bind fun _ => alike_pure _
  · refine alike_advance.bind fun _ => (alike_expect _).bind fun _ => ?_
    exact htype.bind fun _ => alike_pure _
  · refine alike_advance.bind fun _ => ?_
    exact (alike_formalParameters.optional _).bind fun _ => alike_pure _
  · exact alike_fail .type

theorem Alike.constDeclaration (h : Alike R expression expression') :
    Alike R (Parser.constDeclaration expression) (Parser.constDeclaration expression') :=
  alike_identDef.bind fun _ => (alike_expect _).bind fun _ => h.bind fun _ => alike_pure _

theorem Alike.typeDeclaration (h : Alike R type type') :
    Alike R (Parser.typeDeclaration type) (Parser.typeDeclaration type') :=
  alike_identDef.bind fun _ => (alike_expect _).bind fun _ => h.bind fun _ => alike_pure _

theorem Alike.variableDeclaration (h : Alike R type type') :
    Alike R (Parser.variableDeclaration type) (Parser.variableDeclaration type') :=
  alike_identDefs.bind fun _ => (alike_expect _).bind fun _ => h.bind fun _ => alike_pure _

variable (hexpression : Alike R expression expression') (htype : Alike R type type')
  (hprocedure : Alike R procedure procedure')
include hexpression htype hprocedure

/-- Declarations are alike if their expressions, types and procedures are. -/
theorem Alike.declarations : Alike R (Parser.declarations expression type procedure)
    (Parser.declarations expression' type' procedure') := by
  refine (hexpression.constDeclaration.declarationSection _).bind fun _ => ?_
  refine (htype.typeDeclaration.declarationSection _).bind fun _ => ?_
  refine (htype.variableDeclaration.declarationSection _).bind fun _ => ?_
  exact (hprocedure.terminated.many _).bind fun _ => alike_pure _

/-- Procedures are alike if the inner ones are. -/
theorem Alike.procedureBody : Alike R (Parser.procedureBody expression type procedure)
    (Parser.procedureBody expression' type' procedure') := by
  refine alike_procedureHeading.bind fun _ => (alike_expect _).bind fun _ => ?_
  refine (hexpression.declarations htype hprocedure).bind fun _ => ?_
  refine (hexpression.optional _).bind fun _ => (alike_expect _).bind fun _ => ?_
  exact alike_identifier.bind fun _ => alike_pure _

/-- Modules are alike if their parts are. -/
theorem Alike.moduleBody : Alike R (Parser.moduleBody expression type procedure)
    (Parser.moduleBody expression' type' procedure') := by
  refine (alike_expect _).bind fun _ => alike_identifier.bind fun _ =>
    (alike_expect _).bind fun _ => ?_
  refine (alike_importList.optional _).bind fun _ => ?_
  refine (hexpression.declarations htype hprocedure).bind fun _ => (alike_expect _).bind fun _ => ?_
  exact alike_identifier.bind fun _ => (alike_expect _).bind fun _ => alike_pure _

end Nested

end Parser

end Oberon
