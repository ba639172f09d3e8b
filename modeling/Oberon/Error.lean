import Oberon.Constant.Operation
import Oberon.Syntax.Cursor
import Oberon.Token.Error

/-!
# Errors

Everything that can stop the work on a module, and its wording.
-/

namespace Oberon

inductive Error where
  | fileRead (reason : String)
  | inputOutput (reason : String)
  | lexical (error : LexicalError)
  | grammatical (error : SyntaxError)
  | symbolAlreadyDefined (name : String)
  | invalidIdentifier (name : String)
  | scope (reason : String)
  | constantEvaluation (reason : String)
  | undefinedConstant (name : String)
  | divisionByZero
  | overflow (operation : String)
  | output (reason : String)
deriving DecidableEq, Repr

namespace Error

def message : Error → String
  | fileRead reason => "File read error: " ++ reason
  | inputOutput reason => "I/O error: " ++ reason
  | lexical error => error.message
  | grammatical error => error.message
  | symbolAlreadyDefined name => "Symbol '" ++ name ++ "' already defined in this scope"
  | invalidIdentifier name => "Invalid identifier '" ++ name ++ "'"
  | scope reason => "Scope error: " ++ reason
  | constantEvaluation reason => "Constant evaluation error: " ++ reason
  | undefinedConstant name => "Undefined constant '" ++ name ++ "'"
  | divisionByZero => "Division by zero"
  | overflow operation => "Integer overflow in " ++ operation
  | output reason => "Output error: " ++ reason

end Error

def SymbolError.toError : SymbolError → Error
  | alreadyDefined name => .symbolAlreadyDefined name
  | invalidIdentifier name => .invalidIdentifier name
  | underflow => .scope "Cannot drop global scope - scope underflow"

def EvalError.toError : EvalError → Error
  | importedName name =>
    .constantEvaluation ("imported name '" ++ name.text ++ "' has no known value")
  | notConstant name => .constantEvaluation ("'" ++ name ++ "' is not a constant")
  | undefined name => .undefinedConstant name
  | operands operation left right =>
    .constantEvaluation
      (operation.text ++ " expects " ++ operation.operands ++ ", found " ++ left.text ++ " and " ++
        right.text)
  | signOperand sign operand =>
    .constantEvaluation ("unary " ++ sign.text ++ " expects a number, found " ++ operand.text)
  | divisionByZero => .divisionByZero
  | overflow operation => .overflow operation.text
  | stackUnderflow => .constantEvaluation "value stack underflow"

end Oberon
