import Oberon.Syntax

/-!
# Equality of trees

Equality of trees is decidable: two trees are equal iff they have the same form and equal parts.
-/

namespace Oberon

/-! ## Expressions -/

mutual

def Expression.decEq : (a b : Expression) → Decidable (a = b)
  | ⟨sign, first, operations⟩, ⟨sign', first', operations'⟩ =>
    have := Term.decEq first first'
    have := TermOperation.decEqList operations operations'
    decidable_of_decidable_of_iff
      (p := sign = sign' ∧ first = first' ∧ operations = operations') (by simp)

def TermOperation.decEq : (a b : TermOperation) → Decidable (a = b)
  | ⟨operator, right⟩, ⟨operator', right'⟩ =>
    have := Term.decEq right right'
    decidable_of_decidable_of_iff (p := operator = operator' ∧ right = right') (by simp)

def TermOperation.decEqList : (as bs : List TermOperation) → Decidable (as = bs)
  | [], [] => isTrue rfl
  | [], _ :: _ => isFalse nofun
  | _ :: _, [] => isFalse nofun
  | a :: as, b :: bs =>
    have := TermOperation.decEq a b
    have := TermOperation.decEqList as bs
    decidable_of_decidable_of_iff (p := a = b ∧ as = bs) (by simp)

def Term.decEq : (a b : Term) → Decidable (a = b)
  | ⟨first, operations⟩, ⟨first', operations'⟩ =>
    have := Factor.decEq first first'
    have := FactorOperation.decEqList operations operations'
    decidable_of_decidable_of_iff (p := first = first' ∧ operations = operations') (by simp)

def FactorOperation.decEq : (a b : FactorOperation) → Decidable (a = b)
  | ⟨operator, right⟩, ⟨operator', right'⟩ =>
    have := Factor.decEq right right'
    decidable_of_decidable_of_iff (p := operator = operator' ∧ right = right') (by simp)

def FactorOperation.decEqList : (as bs : List FactorOperation) → Decidable (as = bs)
  | [], [] => isTrue rfl
  | [], _ :: _ => isFalse nofun
  | _ :: _, [] => isFalse nofun
  | a :: as, b :: bs =>
    have := FactorOperation.decEq a b
    have := FactorOperation.decEqList as bs
    decidable_of_decidable_of_iff (p := a = b ∧ as = bs) (by simp)

def Factor.decEq : (a b : Factor) → Decidable (a = b)
  | .number a, .number b => decidable_of_decidable_of_iff (p := a = b) (by simp)
  | .string a, .string b => decidable_of_decidable_of_iff (p := a = b) (by simp)
  | .name a, .name b => decidable_of_decidable_of_iff (p := a = b) (by simp)
  | .parenthesized a, .parenthesized b =>
    have := Expression.decEq a b
    decidable_of_decidable_of_iff (p := a = b) (by simp)
  | .number _, .string _ | .number _, .name _ | .number _, .parenthesized _ => isFalse nofun
  | .string _, .number _ | .string _, .name _ | .string _, .parenthesized _ => isFalse nofun
  | .name _, .number _ | .name _, .string _ | .name _, .parenthesized _ => isFalse nofun
  | .parenthesized _, .number _ | .parenthesized _, .string _ | .parenthesized _, .name _ =>
    isFalse nofun

end

instance : DecidableEq Expression := Expression.decEq
instance : DecidableEq TermOperation := TermOperation.decEq
instance : DecidableEq Term := Term.decEq
instance : DecidableEq FactorOperation := FactorOperation.decEq
instance : DecidableEq Factor := Factor.decEq

/-! ## Types -/

mutual

def TypeExpr.decEq : (a b : TypeExpr) → Decidable (a = b)
  | .named a, .named b => decidable_of_decidable_of_iff (p := a = b) (by simp)
  | .array lengths element, .array lengths' element' =>
    have := TypeExpr.decEq element element'
    decidable_of_decidable_of_iff (p := lengths = lengths' ∧ element = element') (by simp)
  | .record base fields, .record base' fields' =>
    have := FieldList.decEqList fields fields'
    decidable_of_decidable_of_iff (p := base = base' ∧ fields = fields') (by simp)
  | .pointer target, .pointer target' =>
    have := TypeExpr.decEq target target'
    decidable_of_decidable_of_iff (p := target = target') (by simp)
  | .procedure a, .procedure b => decidable_of_decidable_of_iff (p := a = b) (by simp)
  | .named _, .array .. | .named _, .record .. | .named _, .pointer _ | .named _, .procedure _ =>
    isFalse nofun
  | .array .., .named _ | .array .., .record .. | .array .., .pointer _ | .array .., .procedure _ =>
    isFalse nofun
  | .record .., .named _ | .record .., .array .. | .record .., .pointer _
  | .record .., .procedure _ => isFalse nofun
  | .pointer _, .named _ | .pointer _, .array .. | .pointer _, .record ..
  | .pointer _, .procedure _ => isFalse nofun
  | .procedure _, .named _ | .procedure _, .array .. | .procedure _, .record ..
  | .procedure _, .pointer _ => isFalse nofun

def FieldList.decEq : (a b : FieldList) → Decidable (a = b)
  | ⟨names, type⟩, ⟨names', type'⟩ =>
    have := TypeExpr.decEq type type'
    decidable_of_decidable_of_iff (p := names = names' ∧ type = type') (by simp)

def FieldList.decEqList : (as bs : List FieldList) → Decidable (as = bs)
  | [], [] => isTrue rfl
  | [], _ :: _ => isFalse nofun
  | _ :: _, [] => isFalse nofun
  | a :: as, b :: bs =>
    have := FieldList.decEq a b
    have := FieldList.decEqList as bs
    decidable_of_decidable_of_iff (p := a = b ∧ as = bs) (by simp)

end

instance : DecidableEq TypeExpr := TypeExpr.decEq
instance : DecidableEq FieldList := FieldList.decEq

/-! ## Declarations -/

deriving instance DecidableEq for ConstDeclaration
deriving instance DecidableEq for TypeDeclaration
deriving instance DecidableEq for VariableDeclaration

mutual

def Declarations.decEq : (a b : Declarations) → Decidable (a = b)
  | ⟨constants, types, vars, procedures⟩, ⟨constants', types', vars', procedures'⟩ =>
    have := ProcedureDeclaration.decEqList procedures procedures'
    decidable_of_decidable_of_iff
      (p := constants = constants' ∧ types = types' ∧ vars = vars' ∧
        procedures = procedures') (by simp)

def ProcedureDeclaration.decEq : (a b : ProcedureDeclaration) → Decidable (a = b)
  | ⟨heading, declarations, result, endName⟩, ⟨heading', declarations', result', endName'⟩ =>
    have := Declarations.decEq declarations declarations'
    decidable_of_decidable_of_iff
      (p := heading = heading' ∧ declarations = declarations' ∧ result = result' ∧
        endName = endName') (by simp)

def ProcedureDeclaration.decEqList : (as bs : List ProcedureDeclaration) → Decidable (as = bs)
  | [], [] => isTrue rfl
  | [], _ :: _ => isFalse nofun
  | _ :: _, [] => isFalse nofun
  | a :: as, b :: bs =>
    have := ProcedureDeclaration.decEq a b
    have := ProcedureDeclaration.decEqList as bs
    decidable_of_decidable_of_iff (p := a = b ∧ as = bs) (by simp)

end

instance : DecidableEq Declarations := Declarations.decEq
instance : DecidableEq ProcedureDeclaration := ProcedureDeclaration.decEq

deriving instance DecidableEq for Module

end Oberon
