import Oberon.Error
import Oberon.Proofs.Constant.Meaning

/-!
# The types of expressions

An expression has a type by the types of its literals and of what its names are bound to; nothing
has to be evaluated for it.  Main statement: a value has the type of its expression, and an
expression that has a type can fail by its numbers only, with a zero divisor or an overflow.
-/

namespace Oberon

/-! ## The rules -/

def ValueType.IsNumber (type : ValueType) : Prop :=
  type = .integer ∨ type = .real

instance (type : ValueType) : Decidable type.IsNumber :=
  inferInstanceAs (Decidable (_ ∨ _))

/-- `+`, `-` and `*` take integers to an integer, and any other numbers to a real. -/
def arithmeticType? (left right : ValueType) : Option ValueType :=
  if left = .integer ∧ right = .integer then some .integer
  else if left.IsNumber ∧ right.IsNumber then some .real
  else none

def quotientType? (left right : ValueType) : Option ValueType :=
  if left.IsNumber ∧ right.IsNumber then some .real else none

def uniformType? (type left right : ValueType) : Option ValueType :=
  if left = type ∧ right = type then some type else none

def AddOperator.type? : AddOperator → ValueType → ValueType → Option ValueType
  | plus => arithmeticType?
  | minus => arithmeticType?
  | or => uniformType? .boolean

def MulOperator.type? : MulOperator → ValueType → ValueType → Option ValueType
  | times => arithmeticType?
  | divide => quotientType?
  | div => uniformType? .integer
  | mod => uniformType? .integer
  | and => uniformType? .boolean

def signedType? : Option Sign → ValueType → Option ValueType
  | none, type => some type
  | some _, type => if type.IsNumber then some type else none

def Number.type : Number → ValueType
  | integer _ => .integer
  | real _ => .real

mutual

/-- The type of an expression in which names have the types that `names` gives. -/
def Expression.type? (names : Qualident → Option ValueType) : Expression → Option ValueType
  | ⟨sign, first, operations⟩ => do
    let left ← first.type? names
    let left ← signedType? sign left
    TermOperation.type? names left operations

def TermOperation.type? (names : Qualident → Option ValueType) (left : ValueType) :
    List TermOperation → Option ValueType
  | [] => some left
  | ⟨operator, right⟩ :: operations => do
    let right ← right.type? names
    let left ← operator.type? left right
    TermOperation.type? names left operations

def Term.type? (names : Qualident → Option ValueType) : Term → Option ValueType
  | ⟨first, operations⟩ => do
    let left ← first.type? names
    FactorOperation.type? names left operations

def FactorOperation.type? (names : Qualident → Option ValueType) (left : ValueType) :
    List FactorOperation → Option ValueType
  | [] => some left
  | ⟨operator, right⟩ :: operations => do
    let right ← right.type? names
    let left ← operator.type? left right
    FactorOperation.type? names left operations

def Factor.type? (names : Qualident → Option ValueType) : Factor → Option ValueType
  | .number n => some n.type
  | .string _ => some .string
  | .name q => names q
  | .parenthesized e => e.type? names

end

section Operations

variable (names : Qualident → Option ValueType) (left : ValueType)

theorem TermOperation.type?_eq_foldlM (operations : List TermOperation) :
    TermOperation.type? names left operations =
      operations.foldlM (fun left o => o.right.type? names >>= o.operator.type? left) left := by
  induction operations generalizing left with
  | nil => rfl
  | cons operation operations ih =>
    obtain ⟨operator, right⟩ := operation
    simp only [TermOperation.type?, ih, List.foldlM_cons, bind_assoc]

theorem FactorOperation.type?_eq_foldlM (operations : List FactorOperation) :
    FactorOperation.type? names left operations =
      operations.foldlM (fun left o => o.right.type? names >>= o.operator.type? left) left := by
  induction operations generalizing left with
  | nil => rfl
  | cons operation operations ih =>
    obtain ⟨operator, right⟩ := operation
    simp only [FactorOperation.type?, ih, List.foldlM_cons, bind_assoc]

end Operations

/-- The type of what a name is bound to.  Names that are qualified or bound to no value have none,
and of those that are not bound at all only the boolean constants have one. -/
def Constants.type? (constants : Constants) (q : Qualident) : Option ValueType :=
  match q.qualifier, constants.find? q.name with
  | some _, _ => none
  | none, some binding => binding.map Value.type
  | none, none => (Predeclared.boolean? q.name).map fun _ => .boolean

/-! ## Results of a type -/

/-- The errors that depend on the numbers in an expression and not on their types. -/
def EvalError.IsArithmetic (error : EvalError) : Prop :=
  error = .divisionByZero ∨ ∃ operation, error = .overflow operation

/-- A result fits a type: a value is of that type, and without a type there is no value.  Numbers
can stop an evaluation that has a type, but nothing else can. -/
inductive Conforms : Result → Option ValueType → Prop where
  | value (value : Value) : Conforms (.ok value) (some value.type)
  | stopped (error : EvalError) (type? : Option ValueType) (h : error.IsArithmetic) :
    Conforms (.error error) type?
  | untyped (error : EvalError) : Conforms (.error error) none

/-- An evaluation that goes on with the value of another one, and the rule that goes on with its
type. -/
theorem Conforms.bind {result : Result} {type? : Option ValueType} (h : Conforms result type?)
    {next : Value → Result} {rule : ValueType → Option ValueType}
    (hnext : ∀ value, Conforms (next value) (rule value.type)) :
    Conforms (result >>= next) (type? >>= rule) := by
  cases h with
  | value value => exact hnext value
  | stopped error type? herror => exact .stopped error _ herror
  | untyped error => exact .untyped error

/-- An evaluation that goes on along a list, and the rule that goes on with the types. -/
theorem conforms_foldlM {α : Type} {step : Value → α → Result}
    {rule : ValueType → α → Option ValueType} {operations : List α}
    (hstep : ∀ o ∈ operations, ∀ left, Conforms (step left o) (rule left.type o)) (left : Value) :
    Conforms (operations.foldlM step left) (operations.foldlM rule left.type) := by
  induction operations generalizing left with
  | nil => exact .value left
  | cons o operations ih =>
    rw [List.forall_mem_cons] at hstep
    rw [List.foldlM_cons, List.foldlM_cons]
    exact (hstep.1 left).bind (ih hstep.2)

/-! ### Operators -/

/-- A result in range is an integer. -/
theorem conforms_integerResult (operation : Operation) (n : Int) :
    Conforms (integerResult operation n) (some .integer) := by
  unfold integerResult
  split
  · exact .value (.integer _)
  · exact .stopped _ _ (.inr ⟨operation, rfl⟩)

/-- Arithmetic works on two integers or on two numbers of which one is real. -/
theorem conforms_arithmetic (operation : Operation) (onIntegers : Int → Int → Int)
    (onReals : Float → Float → Float) (left right : Value) :
    Conforms (arithmetic operation onIntegers onReals left right)
      (arithmeticType? left.type right.type) := by
  cases left with
  | integer left =>
    cases right with
    | integer right => exact conforms_integerResult operation _
    | real right => exact .value (.real _)
    | _ => exact .untyped _
  | real left =>
    cases right with
    | integer right => exact .value (.real _)
    | real right => exact .value (.real _)
    | _ => exact .untyped _
  | _ => cases right <;> exact .untyped _

/-- A quotient is real. -/
theorem conforms_quotient (left right : Value) :
    Conforms (quotient left right) (quotientType? left.type right.type) := by
  have hquotient (x y : Float) :
      Conforms (if y == 0 then .error .divisionByZero else .ok (.real (x / y))) (some .real) := by
    split
    · exact .stopped _ _ (.inl rfl)
    · exact .value (.real _)
  cases left with
  | integer left =>
    cases right with
    | integer right => exact hquotient _ _
    | real right => exact hquotient _ _
    | _ => exact .untyped _
  | real left =>
    cases right with
    | integer right => exact hquotient _ _
    | real right => exact hquotient _ _
    | _ => exact .untyped _
  | _ => cases right <;> exact .untyped _

/-- Whole division takes two integers and gives one. -/
theorem conforms_wholeDivision (operation : Operation) (divide : Int64 → Int64 → Int64)
    (left right : Value) :
    Conforms (wholeDivision operation divide left right)
      (uniformType? .integer left.type right.type) := by
  cases left with
  | integer left =>
    cases right with
    | integer right =>
      show Conforms (wholeDivision operation divide (.integer left) (.integer right))
          (some .integer)
      unfold wholeDivision
      dsimp only
      split
      · exact .stopped _ _ (.inl rfl)
      · split
        · exact .stopped _ _ (.inr ⟨operation, rfl⟩)
        · exact .value (.integer _)
    | _ => exact .untyped _
  | _ => cases right <;> exact .untyped _

/-- A logical operation takes two truth values and gives one. -/
theorem conforms_logical (operation : Operation) (onBooleans : Bool → Bool → Bool)
    (left right : Value) :
    Conforms (logical operation onBooleans left right)
      (uniformType? .boolean left.type right.type) := by
  cases left with
  | boolean left =>
    cases right with
    | boolean right => exact .value (.boolean _)
    | _ => exact .untyped _
  | _ => cases right <;> exact .untyped _

/-- The value of an additive operation has the type of the operator. -/
theorem AddOperator.conforms_apply (operator : AddOperator) (left right : Value) :
    Conforms (operator.apply left right) (operator.type? left.type right.type) := by
  cases operator
  · exact conforms_arithmetic _ _ _ left right
  · exact conforms_arithmetic _ _ _ left right
  · exact conforms_logical _ _ left right

/-- The value of a multiplicative operation has the type of the operator. -/
theorem MulOperator.conforms_apply (operator : MulOperator) (left right : Value) :
    Conforms (operator.apply left right) (operator.type? left.type right.type) := by
  cases operator
  · exact conforms_arithmetic _ _ _ left right
  · exact conforms_quotient left right
  · exact conforms_wholeDivision _ _ left right
  · exact conforms_wholeDivision _ _ left right
  · exact conforms_logical _ _ left right

/-- A sign keeps the type of its operand. -/
theorem conforms_signed (sign : Option Sign) (value : Value) :
    Conforms (signed sign value) (signedType? sign value.type) := by
  cases sign with
  | none => exact .value value
  | some sign =>
    cases value with
    | integer value =>
      cases sign with
      | plus => exact .value (.integer value)
      | minus => exact conforms_integerResult .negation _
    | real value => cases sign <;> exact .value (.real _)
    | _ => cases sign <;> exact .untyped _

/-- A constant has the type of its value. -/
theorem Constants.conforms_valueOf (constants : Constants) (q : Qualident) :
    Conforms (constants.valueOf q) (constants.type? q) := by
  obtain ⟨qualifier, name⟩ := q
  unfold Constants.valueOf Constants.type?
  cases qualifier with
  | some qualifier => exact .untyped _
  | none =>
    cases constants.find? name with
    | some binding =>
      cases binding with
      | some value => exact .value value
      | none => exact .untyped _
    | none =>
      cases Predeclared.boolean? name with
      | some value => exact .value (.boolean value)
      | none => exact .untyped _

/-! ### Expressions -/

/-- The types are put together along the same structure as the values. -/
theorem compositional_conforms {denote : Qualident → Result}
    {names : Qualident → Option ValueType} (hnames : ∀ q, Conforms (denote q) (names q)) :
    Compositional (fun e => Conforms (e.value denote) (e.type? names))
      (fun t => Conforms (t.value denote) (t.type? names))
      (fun f => Conforms (f.value denote) (f.type? names)) where
  expression sign first operations hfirst hoperations := by
    rw [Expression.value, Expression.type?]
    refine hfirst.bind fun left => (conforms_signed sign left).bind fun left => ?_
    rw [TermOperation.fold_eq_foldlM, TermOperation.type?_eq_foldlM]
    exact conforms_foldlM (fun o ho left =>
      (hoperations o ho).bind (o.operator.conforms_apply left)) left
  term first operations hfirst hoperations := by
    rw [Term.value, Term.type?]
    refine hfirst.bind fun left => ?_
    rw [FactorOperation.fold_eq_foldlM, FactorOperation.type?_eq_foldlM]
    exact conforms_foldlM (fun o ho left =>
      (hoperations o ho).bind (o.operator.conforms_apply left)) left
  number n := by cases n <;> exact .value _
  string content := .value (.string content)
  name q := hnames q
  parenthesized e he := by
    rw [Factor.value, Factor.type?]
    exact he

/-- Typing is sound and complete for the evaluator, in every state.  If an expression has a value,
the type of the value is the type of the expression; and an expression that has a type has a value
of that type, unless a zero divisor or an overflow stops its evaluation. -/
theorem Evaluator.evaluate_type (ev : Evaluator) (e : Expression) :
    (∀ value, (ev.evaluate e).1 = .ok value → e.type? ev.constants.type? = some value.type) ∧
      ∀ type, e.type? ev.constants.type? = some type →
        (∃ value, (ev.evaluate e).1 = .ok value ∧ value.type = type) ∨
          ∃ error, (ev.evaluate e).1 = .error error ∧
            (error.toError = .divisionByZero ∨
              ∃ operation, error.toError = .overflow operation) := by
  have h := (compositional_conforms ev.constants.conforms_valueOf).expressions e
  rw [← Constants.evaluate_eq_value] at h
  show (∀ value, ev.constants.evaluate e = .ok value → _) ∧ ∀ type, _ → (∃ value,
    ev.constants.evaluate e = .ok value ∧ _) ∨ ∃ error, ev.constants.evaluate e = .error error ∧ _
  generalize ev.constants.evaluate e = result at h ⊢
  generalize e.type? ev.constants.type? = type? at h ⊢
  -- both halves are read off the three ways in which a result can conform
  cases h with
  | value value =>
    constructor
    · intro other hother
      cases hother
      rfl
    · intro type htype
      exact .inl ⟨value, rfl, Option.some.inj htype⟩
  | stopped error type? herror =>
    refine ⟨nofun, fun type _ => .inr ⟨error, rfl, ?_⟩⟩
    obtain rfl | ⟨operation, rfl⟩ := herror
    · exact .inl rfl
    · exact .inr ⟨operation.text, rfl⟩
  | untyped error => exact ⟨nofun, nofun⟩

end Oberon
