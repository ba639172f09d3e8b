import Oberon.Constant.Evaluator
import Oberon.Proofs.Syntax.Expressions

/-!
# What expressions mean

The value of an expression is given by the values of its parts: a term is folded from the left
over its multiplicative operators, a sign applies to the whole first term, and the expression is
folded from the left over its additive operators.  Operands come before their operator and the
left one before the right one; the first error counts.  Main statement: the stack machine computes
that value, and whatever was on the stack stays there below it.
-/

namespace Oberon

/-! ## Values by structure -/

def signed : Option Sign → Value → Result
  | none, value => .ok value
  | some sign, value => sign.apply value

mutual

/-- The value of an expression in which names have the results that `denote` gives. -/
def Expression.value (denote : Qualident → Result) : Expression → Result
  | ⟨sign, first, operations⟩ => do
    let left ← first.value denote
    let left ← signed sign left
    TermOperation.fold denote left operations

def TermOperation.fold (denote : Qualident → Result) (left : Value) : List TermOperation → Result
  | [] => .ok left
  | ⟨operator, right⟩ :: operations => do
    let right ← right.value denote
    let left ← operator.apply left right
    TermOperation.fold denote left operations

def Term.value (denote : Qualident → Result) : Term → Result
  | ⟨first, operations⟩ => do
    let left ← first.value denote
    FactorOperation.fold denote left operations

def FactorOperation.fold (denote : Qualident → Result) (left : Value) :
    List FactorOperation → Result
  | [] => .ok left
  | ⟨operator, right⟩ :: operations => do
    let right ← right.value denote
    let left ← operator.apply left right
    FactorOperation.fold denote left operations

def Factor.value (denote : Qualident → Result) : Factor → Result
  | .number n => .ok n.value
  | .string content => .ok (.string content)
  | .name q => denote q
  | .parenthesized e => e.value denote

end

section Operations

variable (denote : Qualident → Result) (left : Value)

theorem TermOperation.fold_eq_foldlM (operations : List TermOperation) :
    TermOperation.fold denote left operations =
      operations.foldlM (fun left o => o.right.value denote >>= o.operator.apply left) left := by
  induction operations generalizing left with
  | nil => rfl
  | cons operation operations ih =>
    obtain ⟨operator, right⟩ := operation
    simp only [TermOperation.fold, ih, List.foldlM_cons, bind_assoc]

theorem FactorOperation.fold_eq_foldlM (operations : List FactorOperation) :
    FactorOperation.fold denote left operations =
      operations.foldlM (fun left o => o.right.value denote >>= o.operator.apply left) left := by
  induction operations generalizing left with
  | nil => rfl
  | cons operation operations ih =>
    obtain ⟨operator, right⟩ := operation
    simp only [FactorOperation.fold, ih, List.foldlM_cons, bind_assoc]

end Operations

/-- The value of a node that is an operand, a whole expression or a part of one; other nodes have
none. -/
def Node.value? (denote : Qualident → Result) : Node → Option Result
  | qualident q => some (denote q)
  | number n => some (.ok n.value)
  | integer value => some (.ok (.integer value))
  | real value => some (.ok (.real value))
  | string content => some (.ok (.string content))
  | constExpression e => some (e.value denote)
  | length e => some (e.value denote)
  | expression e => some (e.value denote)
  | simpleExpression e => some (e.value denote)
  | singleTerm s t => some (t.value denote >>= signed s)
  | term t => some (t.value denote)
  | factor f => some (f.value denote)
  | _ => none

/-! ## Operations on values do not touch the stack -/

def Result.NoUnderflow (result : Result) : Prop :=
  result ≠ .error .stackUnderflow

theorem noUnderflow_integerResult (operation : Operation) (n : Int) :
    Result.NoUnderflow (integerResult operation n) := by
  unfold integerResult
  split <;> exact nofun

/-- Arithmetic fails with faults of its own only. -/
theorem noUnderflow_arithmetic (operation : Operation) (onIntegers : Int → Int → Int)
    (onReals : Float → Float → Float) (left right : Value) :
    Result.NoUnderflow (arithmetic operation onIntegers onReals left right) := by
  unfold arithmetic
  split
  · exact noUnderflow_integerResult operation _
  · split <;> exact nofun

theorem noUnderflow_quotient (left right : Value) : Result.NoUnderflow (quotient left right) := by
  unfold quotient
  split
  · split <;> exact nofun
  · exact nofun

/-- Whole division fails with faults of its own only. -/
theorem noUnderflow_wholeDivision (operation : Operation) (divide : Int64 → Int64 → Int64)
    (left right : Value) : Result.NoUnderflow (wholeDivision operation divide left right) := by
  unfold wholeDivision
  split
  · split
    · exact nofun
    · split <;> exact nofun
  · exact nofun

/-- A logical operation fails with faults of its own only. -/
theorem noUnderflow_logical (operation : Operation) (onBooleans : Bool → Bool → Bool)
    (left right : Value) : Result.NoUnderflow (logical operation onBooleans left right) := by
  unfold logical
  split <;> exact nofun

theorem AddOperator.noUnderflow_apply (operator : AddOperator) (left right : Value) :
    Result.NoUnderflow (operator.apply left right) := by
  cases operator
  · exact noUnderflow_arithmetic _ _ _ left right
  · exact noUnderflow_arithmetic _ _ _ left right
  · exact noUnderflow_logical _ _ left right

theorem MulOperator.noUnderflow_apply (operator : MulOperator) (left right : Value) :
    Result.NoUnderflow (operator.apply left right) := by
  cases operator
  · exact noUnderflow_arithmetic _ _ _ left right
  · exact noUnderflow_quotient left right
  · exact noUnderflow_wholeDivision _ _ left right
  · exact noUnderflow_wholeDivision _ _ left right
  · exact noUnderflow_logical _ _ left right

theorem Sign.noUnderflow_apply (sign : Sign) (value : Value) :
    Result.NoUnderflow (sign.apply value) := by
  unfold Sign.apply
  split
  · exact nofun
  · exact nofun
  · exact noUnderflow_integerResult _ _
  · exact nofun
  · exact nofun

/-- An unknown constant is an error of the names, not of the stack. -/
theorem Constants.noUnderflow_valueOf (constants : Constants) (q : Qualident) :
    Result.NoUnderflow (constants.valueOf q) := by
  unfold Constants.valueOf
  split
  · exact nofun
  · split
    · exact nofun
    · exact nofun
    · split <;> exact nofun

/-! ## Work on top of a stack -/

namespace Machine

/-- How work on top of `stack` ends that has this result: its value is put on the stack, and an
error leaves the stack with the operands above it whose operator has not been reached. -/
inductive Delivers (stack : Stack) : Result → Work Stack Stack → Prop where
  | value (value : Value) : Delivers stack (.ok value) (.ok (value :: stack))
  | error (error : EvalError) (above : Stack) (h : error ≠ .stackUnderflow) :
    Delivers stack (.error error) (.error (error, above ++ stack))

variable {stack : Stack} {result : Result} {work : Work Stack Stack}

/-- A result is pushed, or its error ends the run. -/
theorem delivers_pushResult (h : result.NoUnderflow) :
    Delivers stack result (pushResult stack result) := by
  cases result with
  | ok value => exact .value value
  | error error => exact .error error [] fun heq => h (congrArg Except.error heq)

/-- Two pieces of work one after the other, the second on the value of the first. -/
theorem Delivers.bind (h : Delivers stack result work) {next : Value → Result}
    {more : Stack → Work Stack Stack}
    (hnext : ∀ value, Delivers stack (next value) (more (value :: stack))) :
    Delivers stack (result >>= next) (work >>= more) := by
  cases h with
  | value value => exact hnext value
  | error error above herror => exact .error error above herror

/-- A right operand on top of the left one, and then the operator. -/
theorem Delivers.binary {left : Value} (h : Delivers (left :: stack) result work)
    {operation : Value → Value → Result}
    (hoperation : ∀ right, (operation left right).NoUnderflow) :
    Delivers stack (result >>= operation left) (work >>= Machine.binary operation) := by
  cases h with
  | value right => exact delivers_pushResult (hoperation right)
  | error error above herror =>
    have hstack : above ++ left :: stack = (above ++ [left]) ++ stack := by simp
    rw [hstack]
    exact .error error (above ++ [left]) herror

end Machine

section Code

open Machine (Delivers Stack run)

variable (constants : Constants) (stack : Stack)

/-- Code in two parts runs the second one on the stack that the first one leaves. -/
theorem run_append_eq_bind (first second : List Instruction) :
    run constants (first ++ second) stack = run constants first stack >>= run constants second :=
  Machine.run_append constants first second stack

theorem run_singleton (instruction : Instruction) :
    run constants [instruction] = fun stack => Machine.step constants stack instruction := by
  funext stack
  rw [run, List.foldlM_cons]
  cases Machine.step constants stack instruction <;> rfl

/-- A sign acts on the top of the stack. -/
theorem delivers_signCode (sign : Option Sign) (value : Value) :
    Delivers stack (signed sign value) (run constants (signCode sign) (value :: stack)) := by
  cases sign with
  | none => exact .value value
  | some sign =>
    rw [signCode, Option.toList_some, List.map_singleton, run_singleton]
    exact Machine.delivers_pushResult (sign.noUnderflow_apply value)

/-- Work that goes on along a list, each step on the value of the one before it. -/
theorem delivers_foldlM {α : Type} {step : Value → α → Result} {code : α → List Instruction}
    {operations : List α}
    (hstep : ∀ o ∈ operations, ∀ left,
      Delivers stack (step left o) (run constants (code o) (left :: stack)))
    (left : Value) :
    Delivers stack (operations.foldlM step left)
      (run constants (operations.flatMap code) (left :: stack)) := by
  induction operations generalizing left with
  | nil => exact .value left
  | cons o operations ih =>
    rw [List.forall_mem_cons] at hstep
    rw [List.foldlM_cons, List.flatMap_cons, run_append_eq_bind]
    exact (hstep.1 left).bind (ih hstep.2)

/-- The code of an expression, a term or a factor delivers its value on every stack. -/
theorem compositional_delivers : Compositional
    (fun e => ∀ stack, Delivers stack (e.value constants.valueOf) (run constants e.code stack))
    (fun t => ∀ stack, Delivers stack (t.value constants.valueOf) (run constants t.code stack))
    (fun f => ∀ stack,
      Delivers stack (f.value constants.valueOf) (run constants f.code stack)) where
  expression sign first operations hfirst hoperations stack := by
    rw [Expression.code, Expression.value, run_append_eq_bind, run_append_eq_bind, bind_assoc]
    refine (hfirst stack).bind fun left => ?_
    refine (delivers_signCode constants stack sign left).bind fun left => ?_
    rw [TermOperation.fold_eq_foldlM, TermOperation.codes_eq_flatMap]
    refine delivers_foldlM constants stack ?_ left
    rintro ⟨operator, right⟩ ho left
    rw [TermOperation.code, run_append_eq_bind, run_singleton]
    exact (hoperations _ ho (left :: stack)).binary (operator.noUnderflow_apply left)
  term first operations hfirst hoperations stack := by
    rw [Term.code, Term.value, run_append_eq_bind]
    refine (hfirst stack).bind fun left => ?_
    rw [FactorOperation.fold_eq_foldlM, FactorOperation.codes_eq_flatMap]
    refine delivers_foldlM constants stack ?_ left
    rintro ⟨operator, right⟩ ho left
    rw [FactorOperation.code, run_append_eq_bind, run_singleton]
    exact (hoperations _ ho (left :: stack)).binary (operator.noUnderflow_apply left)
  number n stack := .value n.value
  string content stack := .value (.string content)
  name q stack := by
    rw [Factor.code, Factor.value, run_singleton]
    exact Machine.delivers_pushResult (constants.noUnderflow_valueOf q)
  parenthesized e he stack := by
    rw [Factor.code, Factor.value]
    exact he stack

/-- The code of an expression pushes its value or stops with its error. -/
theorem Expression.delivers (e : Expression) :
    Delivers stack (e.value constants.valueOf) (run constants e.code stack) :=
  (compositional_delivers constants).expressions e stack

/-- The code of a node pushes its value or stops with its error. -/
theorem Node.delivers (n : Node) {result : Result} (h : n.value? constants.valueOf = some result) :
    Delivers stack result (run constants n.code stack) := by
  cases n with
  | qualident q =>
    cases h
    rw [Node.code, run_singleton]
    exact Machine.delivers_pushResult (constants.noUnderflow_valueOf q)
  | number n => cases h; exact .value n.value
  | integer value => cases h; exact .value (.integer value)
  | real value => cases h; exact .value (.real value)
  | string content => cases h; exact .value (.string content)
  | constExpression e => cases h; exact e.delivers constants stack
  | length e => cases h; exact e.delivers constants stack
  | expression e => cases h; exact e.delivers constants stack
  | simpleExpression e => cases h; exact e.delivers constants stack
  | singleTerm sign t =>
    cases h
    rw [Node.code, run_append_eq_bind]
    exact ((compositional_delivers constants).terms t stack).bind
      (delivers_signCode constants stack sign)
  | term t => cases h; exact (compositional_delivers constants).terms t stack
  | factor f => cases h; exact (compositional_delivers constants).factors f stack
  | _ => cases h

end Code

/-! ## Evaluation -/

/-- An expression has the value that its structure gives it. -/
theorem Constants.evaluate_eq_value (constants : Constants) (e : Expression) :
    constants.evaluate e = e.value constants.valueOf := by
  have h := e.delivers constants []
  unfold Constants.evaluate
  generalize Machine.run constants e.code [] = work at h ⊢
  generalize e.value constants.valueOf = result at h ⊢
  cases h <;> rfl

namespace Evaluator

/-- A node with a value is evaluated by running its code. -/
theorem evaluateNode_eq_execute (ev : Evaluator) {n : Node} {denote : Qualident → Result}
    {result : Result} (h : n.value? denote = some result) :
    ev.evaluateNode n = ev.execute n.code := by
  cases n <;> first | rfl | cases h

/-- Expressions are evaluated by their structure, in every state.  A node that has a value puts it
on the stack; if its value is an error, what was on the stack is still there, and the stack never
runs empty. -/
theorem evaluates_by_structure (ev : Evaluator) :
    (∀ e, ev.evaluate e = (e.value ev.constants.valueOf, { ev with stack := [] })) ∧
      ∀ (n : Node) (result : Result), n.value? ev.constants.valueOf = some result →
        match result with
        | .ok value => ev.evaluateNode n = .ok { ev with stack := value :: ev.stack }
        | .error error => error ≠ .stackUnderflow ∧
            ∃ above, ev.evaluateNode n =
              .error (error, { ev with stack := above ++ ev.stack }) := by
  constructor
  · intro e
    rw [evaluate, Constants.evaluate_eq_value]
  · intro n result hresult
    have h := n.delivers ev.constants ev.stack hresult
    rw [ev.evaluateNode_eq_execute hresult, execute]
    generalize Machine.run ev.constants n.code ev.stack = work at h ⊢
    cases h with
    | value value => rfl
    | error error above herror => exact ⟨herror, above, rfl⟩

/-- A difference of products over a stack that holds a value, and a sum that misses a name. -/
theorem evaluates_by_structure_sample :
    let ev : Evaluator := { initial with stack := [.integer 7] }
    let product : Term := ⟨.number (.integer 3), [⟨.times, .number (.integer 4)⟩]⟩
    let missing : Term := ⟨.name ⟨none, "x"⟩, []⟩
    ev.evaluateNode (.expression ⟨some .minus, product, [⟨.minus, product⟩]⟩) =
        .ok { ev with stack := [.integer (-24), .integer 7] } ∧
      ∃ above, ev.evaluateNode (.expression ⟨none, product, [⟨.plus, missing⟩]⟩) =
        .error (.undefined "x", { ev with stack := above ++ [.integer 7] }) := by
  intro ev product missing
  have hnodes := (evaluates_by_structure ev).2
  exact ⟨hnodes _ (.ok (.integer (-24))) rfl, (hnodes _ (.error (.undefined "x")) rfl).2⟩

end Evaluator

end Oberon
