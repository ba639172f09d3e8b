import Oberon.Constant.Value
import Oberon.Diagnostic
import Oberon.Error

/-!
# Problems in declarations

The rules that a module can break, with the wording of each remark.
-/

namespace Oberon

/-- What is closed by `END name`. -/
inductive Body where
  | module
  | procedure
deriving DecidableEq, Repr

def Body.text : Body → String
  | .module => "module"
  | .procedure => "procedure"

inductive Problem where
  /-- An export mark below module level. -/
  | exportMark (name : String)
  /-- A second declaration of a name in one scope. -/
  | alreadyDeclared (name : String)
  /-- A name that cannot be declared. -/
  | invalidName (error : SymbolError)
  /-- A closing name that differs from the name of the body. -/
  | closedBy (body : Body) (name endName : String)
  /-- A constant expression without a value. -/
  | invalidConstant (error : EvalError)
  /-- A reference into a module that is not imported. -/
  | notImported (name : Qualident) (qualifier : String)
  /-- A constant of another module in a constant expression. -/
  | unknownImported (name : Qualident)
  /-- A name that is not declared. -/
  | undeclared (name : String)
  /-- A name where a type belongs that is something else. -/
  | notType (kind : SymbolKind) (name : String)
  /-- A type where a value belongs. -/
  | typeAsValue (name : String)
  /-- A module where a value belongs. -/
  | moduleAsValue (name : String)
  /-- A name in a constant expression that is no constant. -/
  | notConstant (kind : SymbolKind) (name : String)
  /-- A `RETURN` in a procedure without result type. -/
  | unexpectedReturn (procedure : String)
  /-- A procedure with result type, but without `RETURN`. -/
  | missingReturn (procedure : String)
  /-- A second field of one name in a record. -/
  | repeatedField (name : String)
  /-- An array length that is no positive integer. -/
  | invalidLength (value : Value)
deriving DecidableEq

namespace Problem

/-- Only the unknown value of an imported constant is no error. -/
def severity : Problem → Severity
  | unknownImported _ => .warning
  | _ => .error

def message : Problem → String
  | exportMark name => "export mark on '" ++ name ++ "' is only allowed at module level"
  | alreadyDeclared name => "'" ++ name ++ "' is already declared in this scope"
  | invalidName error => error.toError.message
  | closedBy body name endName =>
    body.text ++ " '" ++ name ++ "' is closed by 'END " ++ endName ++ "'"
  | invalidConstant error => "invalid constant expression: " ++ error.toError.message
  | notImported name qualifier =>
    "'" ++ name.text ++ "' is qualified by module '" ++ qualifier ++ "', which is not imported"
  | unknownImported name => "value of imported constant '" ++ name.text ++ "' is unknown here"
  | undeclared name => "undeclared identifier '" ++ name ++ "'"
  | notType kind name => kind.text ++ " '" ++ name ++ "' is not a type"
  | typeAsValue name => "type '" ++ name ++ "' used as a value"
  | moduleAsValue name => "module '" ++ name ++ "' used as a value"
  | notConstant kind name => kind.text ++ " '" ++ name ++ "' is not a constant"
  | unexpectedReturn procedure =>
    "procedure '" ++ procedure ++ "' returns a value but declares no result type"
  | missingReturn procedure =>
    "procedure '" ++ procedure ++ "' declares a result type but has no RETURN"
  | repeatedField name => "field '" ++ name ++ "' is declared twice in one record"
  | invalidLength value => "array length must be a positive integer, found " ++ value.text

end Problem

/-- A problem and the bodies in which it was found, innermost first. -/
structure Finding where
  problem : Problem
  path : List String
deriving DecidableEq

def Finding.diagnostic (f : Finding) : Diagnostic :=
  ⟨f.problem.severity, f.problem.message, some (".".intercalate f.path.reverse)⟩

end Oberon
