import Oberon.Constant.Code
import Oberon.Scope

/-!
# Evaluating expressions

A stack machine runs the code of an expression over the constants that are in scope.  A step that
fails has already taken its operands off the stack, so a failure carries the stack that it leaves
behind.
-/

namespace Oberon

/-- The constants in scope.  A name bound to no value hides outer constants: it stands for something
else, or for a constant whose value is unknown. -/
abbrev Constants :=
  Scopes (Option Value)

namespace Constants

def define (constants : Constants) (name : String) (value : Value) : Constants :=
  constants.bind name (some value)

def hide (constants : Constants) (name : String) : Constants :=
  constants.bind name none

def hideAll (constants : Constants) (names : List String) : Constants :=
  names.foldl hide constants

def lookup (constants : Constants) (name : String) : Option Value :=
  (constants.find? name).join

/-- The value that a reference denotes.  The boolean constants are known where nothing hides
them. -/
def valueOf (constants : Constants) (q : Qualident) : Result :=
  if q.isQualified then .error (.importedName q)
  else
    match constants.find? q.name with
    | some (some value) => .ok value
    | some none => .error (.notConstant q.name)
    | none =>
      match Predeclared.boolean? q.name with
      | some value => .ok (.boolean value)
      | none => .error (.undefined q.name)

end Constants

/-- Work on a state that may fail: a failure is an error and the state that it leaves. -/
abbrev Work (σ : Type) : Type → Type :=
  Except (EvalError × σ)

namespace Machine

abbrev Stack :=
  List Value

/-- Puts a result on the stack, or fails with the stack as it is. -/
def pushResult (stack : Stack) : Result → Work Stack Stack
  | .ok value => .ok (value :: stack)
  | .error error => .error (error, stack)

/-- Takes the two values on top and puts the result of an operation there; the upper one is the
right operand. -/
def binary (operation : Value → Value → Result) : Stack → Work Stack Stack
  | right :: left :: stack => pushResult stack (operation left right)
  -- the right operand has been taken before the left one is missed
  | [_] => .error (.stackUnderflow, [])
  | [] => .error (.stackUnderflow, [])

def unary (operation : Value → Result) : Stack → Work Stack Stack
  | value :: stack => pushResult stack (operation value)
  | [] => .error (.stackUnderflow, [])

def step (constants : Constants) (stack : Stack) : Instruction → Work Stack Stack
  | .push value => .ok (value :: stack)
  | .load q => pushResult stack (constants.valueOf q)
  | .sign sign => unary sign.apply stack
  | .add operator => binary operator.apply stack
  | .multiply operator => binary operator.apply stack

def run (constants : Constants) (code : List Instruction) (stack : Stack) : Work Stack Stack :=
  code.foldlM (step constants) stack

/-- Running code in two parts. -/
theorem run_append (constants : Constants) (first second : List Instruction) (stack : Stack) :
    run constants (first ++ second) stack =
      (run constants first stack).bind (run constants second) := by
  simp only [run, List.foldlM_append]
  rfl

end Machine

def Constants.evaluate (constants : Constants) (e : Expression) : Result :=
  match Machine.run constants e.code [] with
  | .ok (value :: _) => .ok value
  | .ok [] => .error .stackUnderflow
  | .error (error, _) => .error error

end Oberon
