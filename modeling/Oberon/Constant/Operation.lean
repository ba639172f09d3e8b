import Oberon.Constant.Value

/-!
# Operations on values

Integer operations are exact: a result that does not fit 64 bits is an overflow.  `DIV` and `MOD`
round the quotient towards negative infinity, so a remainder has the sign of the divisor.  An
integer beside a real counts as a real.
-/

namespace Oberon

inductive Operation where
  | addition
  | subtraction
  | multiplication
  | division
  | div
  | mod
  | conjunction
  | disjunction
  | negation
deriving DecidableEq, Repr

namespace Operation

def text : Operation → String
  | addition => "addition"
  | subtraction => "subtraction"
  | multiplication => "multiplication"
  | division => "division"
  | div => "DIV"
  | mod => "MOD"
  | conjunction => "&"
  | disjunction => "OR"
  | negation => "negation"

def operands : Operation → String
  | addition | subtraction | multiplication | division | negation => "numbers"
  | div | mod => "integers"
  | conjunction | disjunction => "booleans"

end Operation

inductive EvalError where
  /-- A name of another module. -/
  | importedName (name : Qualident)
  /-- A name that is declared, but not as a constant with a known value. -/
  | notConstant (name : String)
  /-- A name that is not declared. -/
  | undefined (name : String)
  /-- A binary operation on operands that it does not take. -/
  | operands (operation : Operation) (left right : ValueType)
  /-- A sign in front of something that is no number. -/
  | signOperand (sign : Sign) (operand : ValueType)
  /-- A zero divisor. -/
  | divisionByZero
  /-- An integer result beyond 64 bits. -/
  | overflow (operation : Operation)
  /-- An operator that finds too few values on the stack. -/
  | stackUnderflow
deriving DecidableEq, Repr

abbrev Result :=
  Except EvalError Value

def fits (n : Int) : Prop :=
  Int64.minValue.toInt ≤ n ∧ n ≤ Int64.maxValue.toInt

instance (n : Int) : Decidable (fits n) :=
  inferInstanceAs (Decidable (_ ∧ _))

def integerResult (operation : Operation) (n : Int) : Result :=
  if fits n then .ok (.integer (Int64.ofInt n)) else .error (.overflow operation)

def arithmetic (operation : Operation) (onIntegers : Int → Int → Int)
    (onReals : Float → Float → Float) : Value → Value → Result
  | .integer left, .integer right => integerResult operation (onIntegers left.toInt right.toInt)
  | left, right =>
    match left.toReal?, right.toReal? with
    | some x, some y => .ok (.real (onReals x y))
    | _, _ => .error (.operands operation left.type right.type)

def quotient (left right : Value) : Result :=
  match left.toReal?, right.toReal? with
  | some x, some y => if y == 0 then .error .divisionByZero else .ok (.real (x / y))
  | _, _ => .error (.operands .division left.type right.type)

/-- Has a division towards zero been rounded up?  It has if something remains, and on the other
side of zero than the divisor. -/
def roundedUp (remainder right : Int64) : Bool :=
  decide (remainder ≠ 0) && decide (remainder < 0) != decide (right < 0)

def flooredQuotient (left right : Int64) : Int64 :=
  if roundedUp (left % right) right then left / right - 1 else left / right

def flooredRemainder (left right : Int64) : Int64 :=
  if roundedUp (left % right) right then left % right + right else left % right

/-- Whole division, for `DIV` and `MOD`.  For both the quotient has to fit 64 bits. -/
def wholeDivision (operation : Operation) (divide : Int64 → Int64 → Int64) : Value → Value → Result
  | .integer left, .integer right =>
    if right = 0 then .error .divisionByZero
    -- no other quotient is beyond 64 bits
    else if left = Int64.minValue ∧ right = -1 then .error (.overflow operation)
    else .ok (.integer (divide left right))
  | left, right => .error (.operands operation left.type right.type)

def logical (operation : Operation) (onBooleans : Bool → Bool → Bool) : Value → Value → Result
  | .boolean left, .boolean right => .ok (.boolean (onBooleans left right))
  | left, right => .error (.operands operation left.type right.type)

def AddOperator.apply : AddOperator → Value → Value → Result
  | plus => arithmetic .addition (· + ·) (· + ·)
  | minus => arithmetic .subtraction (· - ·) (· - ·)
  | or => logical .disjunction (· || ·)

def MulOperator.apply : MulOperator → Value → Value → Result
  | times => arithmetic .multiplication (· * ·) (· * ·)
  | divide => quotient
  | div => wholeDivision .div flooredQuotient
  | mod => wholeDivision .mod flooredRemainder
  | and => logical .conjunction (· && ·)

def Sign.apply : Sign → Value → Result
  | plus, .integer value => .ok (.integer value)
  | plus, .real value => .ok (.real value)
  | minus, .integer value => integerResult .negation (-value.toInt)
  | minus, .real value => .ok (.real (-value))
  | sign, value => .error (.signOperand sign value.type)

end Oberon
