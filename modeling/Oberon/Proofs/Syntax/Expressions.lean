import Oberon.Syntax

/-!
# Induction over expressions

Expressions, terms and factors contain each other, and the operations of a level are a list.  What
passes from the parts to the whole holds of all three.
-/

namespace Oberon

variable {E : Expression → Prop} {T : Term → Prop} {F : Factor → Prop}

/-- Properties of expressions, terms and factors that pass from the parts to the whole.  Of the
operations of a level, the right operands are the parts. -/
structure Compositional (E : Expression → Prop) (T : Term → Prop) (F : Factor → Prop) : Prop where
  expression (sign : Option Sign) (first : Term) (operations : List TermOperation) :
    T first → (∀ o ∈ operations, T o.right) → E ⟨sign, first, operations⟩
  term (first : Factor) (operations : List FactorOperation) :
    F first → (∀ o ∈ operations, F o.right) → T ⟨first, operations⟩
  number (n : Number) : F (.number n)
  string (content : String) : F (.string content)
  name (q : Qualident) : F (.name q)
  parenthesized (e : Expression) : E e → F (.parenthesized e)

namespace Compositional

mutual

/-- A compositional property holds of every expression. -/
theorem expressions (h : Compositional E T F) (e : Expression) : E e := by
  match e with
  | ⟨sign, first, operations⟩ =>
    exact h.expression sign first operations (h.terms first) (h.termOperands operations)

theorem termOperands (h : Compositional E T F) (operations : List TermOperation) :
    ∀ o ∈ operations, T o.right := by
  match operations with
  | [] => exact nofun
  | ⟨_, right⟩ :: operations =>
    exact List.forall_mem_cons.mpr ⟨h.terms right, h.termOperands operations⟩

/-- A compositional property holds of every term. -/
theorem terms (h : Compositional E T F) (t : Term) : T t := by
  match t with
  | ⟨first, operations⟩ =>
    exact h.term first operations (h.factors first) (h.factorOperands operations)

theorem factorOperands (h : Compositional E T F) (operations : List FactorOperation) :
    ∀ o ∈ operations, F o.right := by
  match operations with
  | [] => exact nofun
  | ⟨_, right⟩ :: operations =>
    exact List.forall_mem_cons.mpr ⟨h.factors right, h.factorOperands operations⟩

/-- A compositional property holds of every factor. -/
theorem factors (h : Compositional E T F) (f : Factor) : F f := by
  match f with
  | .number n => exact h.number n
  | .string content => exact h.string content
  | .name q => exact h.name q
  | .parenthesized e => exact h.parenthesized e (h.expressions e)

end

end Compositional

end Oberon
