/-!
# Modules as trees

The abstract form of an Oberon module: names, expressions, types, declarations.  Lists keep the
order of the source.  Operators of one level associate to the left, and the levels (expression,
term, factor) encode precedence.
-/

namespace Oberon

/-! ## Names -/

/-- A declared name with its export mark (`name*`). -/
structure IdentDef where
  name : String
  exported : Bool
deriving DecidableEq, Repr

/-- A reference to a name, perhaps qualified by an imported module (`Module.name`). -/
structure Qualident where
  qualifier : Option String
  name : String
deriving DecidableEq, Repr

namespace Qualident

def isQualified (q : Qualident) : Bool :=
  q.qualifier.isSome

def text (q : Qualident) : String :=
  match q.qualifier with
  | some qualifier => qualifier ++ "." ++ q.name
  | none => q.name

end Qualident

/-! ## Expressions -/

inductive Number where
  | integer (value : Int64)
  | real (value : Float)
deriving DecidableEq

inductive Sign where
  | plus
  | minus
deriving DecidableEq, Repr

inductive AddOperator where
  | plus
  | minus
  | or
deriving DecidableEq, Repr

/-- The multiplicative operators: product, quotient, whole quotient, remainder and conjunction. -/
inductive MulOperator where
  | times
  | divide
  | div
  | mod
  | and
deriving DecidableEq, Repr

def Sign.text : Sign → String
  | plus => "+"
  | minus => "-"

def AddOperator.text : AddOperator → String
  | plus => "+"
  | minus => "-"
  | or => "OR"

def MulOperator.text : MulOperator → String
  | times => "*"
  | divide => "/"
  | div => "DIV"
  | mod => "MOD"
  | and => "&"

mutual

/-- An expression, `["+" | "-"] term {AddOperator term}`; the sign applies to the whole first
term. -/
structure Expression where
  sign : Option Sign
  first : Term
  operations : List TermOperation

structure TermOperation where
  operator : AddOperator
  right : Term

/-- A term, `factor {MulOperator factor}`. -/
structure Term where
  first : Factor
  operations : List FactorOperation

structure FactorOperation where
  operator : MulOperator
  right : Factor

/-- A factor, `number | string | qualident | "(" expression ")"`. -/
inductive Factor where
  | number (number : Number)
  | string (content : String)
  | name (name : Qualident)
  | parenthesized (expression : Expression)

end

/-! ## Types -/

/-- The type of a parameter, `{ARRAY OF} qualident`, with the number of open array dimensions. -/
structure FormalType where
  openArrays : Nat
  name : Qualident
deriving DecidableEq, Repr

/-- Parameters of one type, `[VAR] ident {"," ident} ":" FormalType`. -/
structure ParameterSection where
  byReference : Bool
  names : List String
  type : FormalType
deriving DecidableEq, Repr

/-- All parameters and the result type,
`"(" [ParameterSection {";" ParameterSection}] ")" [":" qualident]`. -/
structure FormalParameters where
  sections : List ParameterSection
  result : Option Qualident
deriving DecidableEq, Repr

mutual

/-- A type: a named one, or an array, record, pointer or procedure type. -/
inductive TypeExpr where
  | named (name : Qualident)
  | array (lengths : List Expression) (element : TypeExpr)
  | record (base : Option Qualident) (fields : List FieldList)
  | pointer (target : TypeExpr)
  | procedure (parameters : Option FormalParameters)

/-- Fields of one type inside a record, `identdef {"," identdef} ":" type`. -/
structure FieldList where
  names : List IdentDef
  type : TypeExpr

end

/-! ## Declarations -/

/-- A constant, `identdef "=" expression`. -/
structure ConstDeclaration where
  name : IdentDef
  value : Expression

/-- A declared type, `identdef "=" type`. -/
structure TypeDeclaration where
  name : IdentDef
  type : TypeExpr

/-- Variables of one type, `identdef {"," identdef} ":" type`. -/
structure VariableDeclaration where
  names : List IdentDef
  type : TypeExpr

/-- The heading of a procedure, `PROCEDURE identdef [FormalParameters]`. -/
structure ProcedureHeading where
  name : IdentDef
  parameters : Option FormalParameters
deriving DecidableEq, Repr

mutual

structure Declarations where
  constants : List ConstDeclaration
  types : List TypeDeclaration
  vars : List VariableDeclaration
  procedures : List ProcedureDeclaration

/-- A procedure, `ProcedureHeading ";" Declarations [RETURN expression] END ident`. -/
structure ProcedureDeclaration where
  heading : ProcedureHeading
  declarations : Declarations
  result : Option Expression
  endName : String

end

def Declarations.isEmpty (d : Declarations) : Bool :=
  d.constants.isEmpty && d.types.isEmpty && d.vars.isEmpty && d.procedures.isEmpty

def ProcedureDeclaration.name (p : ProcedureDeclaration) : String :=
  p.heading.name.name

/-- A module, `MODULE ident ";" [IMPORT ident {"," ident} ";"] Declarations END ident "."`. -/
structure Module where
  name : String
  imports : Option (List String)
  declarations : Declarations
  endName : String

end Oberon
