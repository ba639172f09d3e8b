import Oberon.Proofs.Grammar.Combinations
import Oberon.Syntax.Parser

/-!
# First tokens

With which tokens the derivations of a rule start.  A parser decides by the token at its cursor,
and a text behind an opening parenthesis may not start with a product sign.  Signs and operators
are told from other tokens in the same way.
-/

namespace Oberon

def Rule.Starts {α : Type} (rule : Rule α) (first : Token → Bool) : Prop :=
  ∀ ⦃ts x⦄, rule ts x → ∃ t us, ts = t :: us ∧ first t = true

/-! ## Signs and operators -/

namespace Parser

/-- A token is read as a sign exactly if it is the token of that sign. -/
theorem sign?_eq_some {t : Token} {sign : Sign} : sign? t = some sign ↔ t = sign.token := by
  constructor
  · intro h
    unfold sign? at h
    split at h <;> cases h <;> rfl
  · rintro rfl
    cases sign <;> rfl

theorem addOperator?_eq_some {t : Token} {operator : AddOperator} :
    addOperator? t = some operator ↔ t = operator.token := by
  constructor
  · intro h
    unfold addOperator? at h
    split at h <;> cases h <;> rfl
  · rintro rfl
    cases operator <;> rfl

theorem mulOperator?_eq_some {t : Token} {operator : MulOperator} :
    mulOperator? t = some operator ↔ t = operator.token := by
  constructor
  · intro h
    unfold mulOperator? at h
    split at h <;> cases h <;> rfl
  · rintro rfl
    cases operator <;> rfl

end Parser

namespace Grammar

open Oberon.Parser (isIdentifier)

/-- An operation on factors begins with a token that is read as its operator. -/
theorem isFactorOperation_eq_operation {factor : Rule Factor} :
    IsFactorOperation factor = Operation Parser.mulOperator? factor FactorOperation.mk := by
  refine Rule.ext fun ts operation => ⟨?_, ?_⟩
  · rintro ⟨operator, hright⟩
    exact .mk (Parser.mulOperator?_eq_some.mpr rfl) hright
  · rintro ⟨ht, hright⟩
    rw [Parser.mulOperator?_eq_some.mp ht]
    exact .mk _ hright

/-- An operation on terms begins with a token that is read as its operator. -/
theorem isTermOperation_eq_operation {term : Rule Term} :
    IsTermOperation term = Operation Parser.addOperator? term TermOperation.mk := by
  refine Rule.ext fun ts operation => ⟨?_, ?_⟩
  · rintro ⟨operator, hright⟩
    exact .mk (Parser.addOperator?_eq_some.mpr rfl) hright
  · rintro ⟨ht, hright⟩
    rw [Parser.addOperator?_eq_some.mp ht]
    exact .mk _ hright

/-! ## Names and combinations -/

variable {α β γ : Type} {rule : Rule α} {first : Token → Bool}

/-- A separated list starts as its first item does. -/
theorem starts_separated {separator : Token} (h : rule.Starts first) :
    (Separated separator rule).Starts first := by
  rintro ts xs (⟨only⟩ | ⟨head, _⟩)
  · exact h only
  · obtain ⟨t, us, rfl, ht⟩ := h head
    exact ⟨t, _, rfl, ht⟩

theorem starts_terminated (h : rule.Starts first) : (Terminated rule).Starts first := by
  rintro ts x ⟨hrule⟩
  obtain ⟨t, us, rfl, ht⟩ := h hrule
  exact ⟨t, _, rfl, ht⟩

/-- Two items start as the first one does. -/
theorem starts_joined {between : Token} {right : Rule β} {combine : α → β → γ}
    (h : rule.Starts first) :
    (Joined rule between right combine).Starts first := by
  rintro ts z ⟨hleft, _⟩
  obtain ⟨t, us, rfl, ht⟩ := h hleft
  exact ⟨t, _, rfl, ht⟩

theorem starts_isName : IsName.Starts isIdentifier := by
  rintro ts name ⟨⟩
  exact ⟨_, _, rfl, rfl⟩

theorem starts_isIdentDef : IsIdentDef.Starts isIdentifier := by
  rintro ts d (_ | _) <;> exact ⟨_, _, rfl, rfl⟩

theorem starts_isQualident : IsQualident.Starts isIdentifier := by
  rintro ts q (_ | _) <;> exact ⟨_, _, rfl, rfl⟩

/-! ## Expressions -/

def startsFactor : Token → Bool
  | .integer _ => true
  | .real _ => true
  | .string _ => true
  | .identifier _ => true
  | .mark .leftParen => true
  | _ => false

def startsExpression (t : Token) : Bool :=
  t = .mark .plus || t = .mark .minus || startsFactor t

/-- A factor starts with a literal, a name or an opening parenthesis. -/
theorem starts_isFactor {expression : Rule Expression} :
    (IsFactor expression).Starts startsFactor := by
  intro ts x h
  cases h with
  | name hq => cases hq <;> exact ⟨_, _, rfl, rfl⟩
  | _ => exact ⟨_, _, rfl, rfl⟩

theorem starts_isTerm {expression : Rule Expression} : (IsTerm expression).Starts startsFactor := by
  rintro ts x ⟨hfirst, _⟩
  obtain ⟨t, us, rfl, ht⟩ := starts_isFactor hfirst
  exact ⟨t, _, rfl, ht⟩

/-- An expression starts with a sign or as a term does. -/
theorem starts_isExpression : IsExpression.Starts startsExpression := by
  rintro ts e ⟨hsign, hfirst, _⟩
  cases hsign with
  | none =>
    obtain ⟨t, us, rfl, ht⟩ := starts_isTerm hfirst
    exact ⟨t, _, rfl, by rw [startsExpression, ht, Bool.or_true]⟩
  | @some _ sign hsign =>
    obtain ⟨⟩ := hsign
    refine ⟨_, _, rfl, ?_⟩
    cases sign <;> rfl

/-! ## Types and declarations -/

def startsParameterSection (t : Token) : Bool :=
  isIdentifier t || t = .keyword .VAR

theorem starts_isParameterSection : IsParameterSection.Starts startsParameterSection := by
  rintro ts s (⟨hnames, _⟩ | _)
  · obtain ⟨t, us, rfl, ht⟩ := starts_separated starts_isName hnames
    exact ⟨t, _, rfl, by rw [startsParameterSection, ht, Bool.true_or]⟩
  · exact ⟨_, _, rfl, rfl⟩

theorem starts_isFieldList {type : Rule TypeExpr} : (IsFieldList type).Starts isIdentifier := by
  rw [isFieldList_eq_joined]
  exact starts_joined (starts_separated starts_isIdentDef)

theorem starts_isConstDeclaration {expression : Rule Expression} :
    (IsConstDeclaration expression).Starts isIdentifier := by
  rw [isConstDeclaration_eq_joined]
  exact starts_joined starts_isIdentDef

theorem starts_isTypeDeclaration {type : Rule TypeExpr} :
    (IsTypeDeclaration type).Starts isIdentifier := by
  rw [isTypeDeclaration_eq_joined]
  exact starts_joined starts_isIdentDef

theorem starts_isVariableDeclaration {type : Rule TypeExpr} :
    (IsVariableDeclaration type).Starts isIdentifier := by
  rw [isVariableDeclaration_eq_joined]
  exact starts_joined (starts_separated starts_isIdentDef)

end Grammar

end Oberon
