import Oberon.Constant.Operation
import Oberon.Syntax.Node

/-!
# Stack code of expressions

An expression is evaluated by instructions for a stack of values: operands come before their
operator, and the left operand before the right one.
-/

namespace Oberon

inductive Instruction where
  /-- Puts a value on the stack. -/
  | push (value : Value)
  /-- Puts the value of a named constant on the stack. -/
  | load (name : Qualident)
  /-- Replaces the value on top by its signed value. -/
  | sign (sign : Sign)
  /-- Replaces the two values on top by the result of an additive operator. -/
  | add (operator : AddOperator)
  /-- Replaces the two values on top by the result of a multiplicative operator. -/
  | multiply (operator : MulOperator)
deriving DecidableEq

def signCode (sign : Option Sign) : List Instruction :=
  sign.toList.map .sign

mutual

/-- The code of an expression; the sign follows the term that it applies to. -/
def Expression.code : Expression → List Instruction
  | ⟨sign, first, operations⟩ => first.code ++ signCode sign ++ TermOperation.codes operations

def TermOperation.code : TermOperation → List Instruction
  | ⟨operator, right⟩ => right.code ++ [.add operator]

def TermOperation.codes : List TermOperation → List Instruction
  | [] => []
  | operation :: operations => operation.code ++ TermOperation.codes operations

def Term.code : Term → List Instruction
  | ⟨first, operations⟩ => first.code ++ FactorOperation.codes operations

def FactorOperation.code : FactorOperation → List Instruction
  | ⟨operator, right⟩ => right.code ++ [.multiply operator]

def FactorOperation.codes : List FactorOperation → List Instruction
  | [] => []
  | operation :: operations => operation.code ++ FactorOperation.codes operations

def Factor.code : Factor → List Instruction
  | .number n => [.push n.value]
  | .string content => [.push (.string content)]
  | .name q => [.load q]
  | .parenthesized e => e.code

end

theorem TermOperation.codes_eq_flatMap (operations : List TermOperation) :
    TermOperation.codes operations = operations.flatMap TermOperation.code := by
  induction operations with
  | nil => rfl
  | cons operation operations ih => rw [TermOperation.codes, ih, List.flatMap_cons]

theorem FactorOperation.codes_eq_flatMap (operations : List FactorOperation) :
    FactorOperation.codes operations = operations.flatMap FactorOperation.code := by
  induction operations with
  | nil => rfl
  | cons operation operations ih => rw [FactorOperation.codes, ih, List.flatMap_cons]

def Node.code : Node → List Instruction
  | qualident q => [.load q]
  | number n => [.push n.value]
  | integer value => [.push (.integer value)]
  | real value => [.push (.real value)]
  | string content => [.push (.string content)]
  | constExpression e => e.code
  | length e => e.code
  | expression e => e.code
  | simpleExpression e => e.code
  | singleTerm s t => t.code ++ signCode s
  | termOperation operation => operation.code
  | term t => t.code
  | factor f => f.code
  | addOperator operator => [.add operator]
  | factorOperation operation => operation.code
  | sign s => [.sign s]
  | _ => []

end Oberon
