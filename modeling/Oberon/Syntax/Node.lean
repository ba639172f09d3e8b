import Oberon.Syntax

/-!
# Nodes

A node is one construct of a module, seen as a vertex of its tree.  Nodes come in 49 kinds; the
operators, signs and forms of types each have a kind of their own.
-/

namespace Oberon

inductive NodeKind where
  | root
  | module
  | identifier
  | identDef
  | qualident
  | number
  | integer
  | real
  | string
  | constDeclaration
  | constExpression
  | typeDeclaration
  | variableDeclaration
  | variableDeclarationList
  | procedureDeclaration
  | procedureHeading
  | type
  | arrayType
  | baseType
  | recordType
  | pointerType
  | namedType
  | procedureType
  | fieldList
  | fieldListSequence
  | identDefList
  | length
  | lengthList
  | expression
  | simpleExpression
  | singleTerm
  | termOperation
  | term
  | factor
  | binaryPlus
  | binaryMinus
  | disjunction
  | multiplication
  | division
  | integerDivision
  | modulo
  | conjunction
  | unaryPlus
  | unaryMinus
  | formalParameters
  | formalType
  | parameterSection
  | parameterSectionList
  | identifierList
deriving DecidableEq, Repr

namespace NodeKind

def all : List NodeKind :=
  [root, module, identifier, identDef, qualident, number, integer, real, string, constDeclaration,
   constExpression, typeDeclaration, variableDeclaration, variableDeclarationList,
   procedureDeclaration, procedureHeading, type, arrayType, baseType, recordType, pointerType,
   namedType, procedureType, fieldList, fieldListSequence, identDefList, length, lengthList,
   expression, simpleExpression, singleTerm, termOperation, term, factor, binaryPlus, binaryMinus,
   disjunction, multiplication, division, integerDivision, modulo, conjunction, unaryPlus,
   unaryMinus, formalParameters, formalType, parameterSection, parameterSectionList,
   identifierList]

theorem mem_all (kind : NodeKind) : kind ∈ all := by
  cases kind <;> simp [all]

def name : NodeKind → String
  | root => "Root"
  | module => "Module"
  | identifier => "Identifier"
  | identDef => "IdentDef"
  | qualident => "Qualident"
  | number => "Number"
  | integer => "Integer"
  | real => "Real"
  | string => "String"
  | constDeclaration => "ConstDeclaration"
  | constExpression => "ConstExpression"
  | typeDeclaration => "TypeDeclaration"
  | variableDeclaration => "VariableDeclaration"
  | variableDeclarationList => "VariableDeclarationList"
  | procedureDeclaration => "ProcedureDeclaration"
  | procedureHeading => "ProcedureHeading"
  | type => "Type"
  | arrayType => "ArrayType"
  | baseType => "BaseType"
  | recordType => "RecordType"
  | pointerType => "PointerType"
  | namedType => "QualidentType"
  | procedureType => "ProcedureType"
  | fieldList => "FieldList"
  | fieldListSequence => "FieldListSequence"
  | identDefList => "IdentDefList"
  | length => "Length"
  | lengthList => "LengthList"
  | expression => "Expression"
  | simpleExpression => "SimpleExpression"
  | singleTerm => "SingleTerm"
  | termOperation => "TermOperation"
  | term => "Term"
  | factor => "Factor"
  | binaryPlus => "BinaryPlus"
  | binaryMinus => "BinaryMinus"
  | disjunction => "LogicalDisjunction"
  | multiplication => "Multiplication"
  | division => "Division"
  | integerDivision => "IntegerDivision"
  | modulo => "Modulo"
  | conjunction => "LogicalConjunction"
  | unaryPlus => "UnaryPlus"
  | unaryMinus => "UnaryMinus"
  | formalParameters => "FormalParameters"
  | formalType => "FormalType"
  | parameterSection => "FPSection"
  | parameterSectionList => "FPSectionList"
  | identifierList => "IdentifierList"

end NodeKind

/-- A construct of a module.  An expression is one node as a whole and another one, of the kind
`simpleExpression`, as a sequence of terms; a type is one node as a whole and another one by its
form. -/
inductive Node where
  | root (module : Module)
  | module (module : Module)
  | identifier (name : String)
  | identDef (name : IdentDef)
  | qualident (name : Qualident)
  | number (number : Number)
  | integer (value : Int64)
  | real (value : Float)
  | string (content : String)
  | constDeclaration (declaration : ConstDeclaration)
  | constExpression (expression : Expression)
  | typeDeclaration (declaration : TypeDeclaration)
  | variableDeclaration (declaration : VariableDeclaration)
  | variableDeclarationList (declarations : List VariableDeclaration)
  | procedureDeclaration (declaration : ProcedureDeclaration)
  | procedureHeading (heading : ProcedureHeading)
  | type (type : TypeExpr)
  | typeForm (type : TypeExpr)
  | baseType (name : Qualident)
  | fieldList (fields : FieldList)
  | fieldListSequence (fields : List FieldList)
  | identDefList (names : List IdentDef)
  | length (expression : Expression)
  | lengthList (lengths : List Expression)
  | expression (expression : Expression)
  | simpleExpression (expression : Expression)
  | singleTerm (sign : Option Sign) (term : Term)
  | termOperation (operation : TermOperation)
  | term (term : Term)
  | factor (factor : Factor)
  | addOperator (operator : AddOperator)
  | factorOperation (operation : FactorOperation)
  | sign (sign : Sign)
  | formalParameters (parameters : FormalParameters)
  | formalType (type : FormalType)
  | parameterSection (parameters : ParameterSection)
  | parameterSectionList (sections : List ParameterSection)
  | identifierList (names : List String)

def AddOperator.kind : AddOperator → NodeKind
  | plus => .binaryPlus
  | minus => .binaryMinus
  | or => .disjunction

def MulOperator.kind : MulOperator → NodeKind
  | times => .multiplication
  | divide => .division
  | div => .integerDivision
  | mod => .modulo
  | and => .conjunction

def Sign.kind : Sign → NodeKind
  | plus => .unaryPlus
  | minus => .unaryMinus

def TypeExpr.formKind : TypeExpr → NodeKind
  | named _ => .namedType
  | array .. => .arrayType
  | record .. => .recordType
  | pointer _ => .pointerType
  | procedure _ => .procedureType

def Factor.contentKind : Factor → NodeKind
  | number _ => .number
  | string _ => .string
  | name _ => .qualident
  | parenthesized _ => .expression

def Node.kind : Node → NodeKind
  | root _ => .root
  | module _ => .module
  | identifier _ => .identifier
  | identDef _ => .identDef
  | qualident _ => .qualident
  | number _ => .number
  | integer _ => .integer
  | real _ => .real
  | string _ => .string
  | constDeclaration _ => .constDeclaration
  | constExpression _ => .constExpression
  | typeDeclaration _ => .typeDeclaration
  | variableDeclaration _ => .variableDeclaration
  | variableDeclarationList _ => .variableDeclarationList
  | procedureDeclaration _ => .procedureDeclaration
  | procedureHeading _ => .procedureHeading
  | type _ => .type
  | typeForm form => form.formKind
  | baseType _ => .baseType
  | fieldList _ => .fieldList
  | fieldListSequence _ => .fieldListSequence
  | identDefList _ => .identDefList
  | length _ => .length
  | lengthList _ => .lengthList
  | expression _ => .expression
  | simpleExpression _ => .simpleExpression
  | singleTerm .. => .singleTerm
  | termOperation _ => .termOperation
  | term _ => .term
  | factor _ => .factor
  | addOperator operator => operator.kind
  | factorOperation operation => operation.operator.kind
  | sign mark => mark.kind
  | formalParameters _ => .formalParameters
  | formalType _ => .formalType
  | parameterSection _ => .parameterSection
  | parameterSectionList _ => .parameterSectionList
  | identifierList _ => .identifierList

end Oberon
