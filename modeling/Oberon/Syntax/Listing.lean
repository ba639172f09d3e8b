import Oberon.Decimal.Text
import Oberon.Listing
import Oberon.Syntax.Node

/-!
# Listings of trees

The listing of a module shows every construct of its tree under the name of its kind, with its
parts in the order of the source.
-/

namespace Oberon

open Oberon.Listing (record tagged list option)

/-! ## Names -/

def identifierListing (name : String) : Listing :=
  record "Identifier" [("name", .string name)]

def identifierListListing (names : List String) : Listing :=
  record "IdentifierList" [("identifiers", list (names.map identifierListing))]

def IdentDef.listing (d : IdentDef) : Listing :=
  record "IdentDef" [("name", .string d.name), ("exported", .bool d.exported)]

def identDefListListing (names : List IdentDef) : Listing :=
  record "IdentDefList" [("defs", list (names.map IdentDef.listing))]

def Qualident.listing (q : Qualident) : Listing :=
  record "Qualident" [("module", option (q.qualifier.map .string)), ("name", .string q.name)]

/-! ## Expressions -/

def Number.listing (n : Number) : Listing :=
  record "Number" [("kind",
    match n with
    | integer value => tagged "Integer" (record "Integer" [("value", .atom (Int.repr value.toInt))])
    | real value => tagged "Real" (record "Real" [("value", .atom (Real.listing value))]))]

def Sign.listing (sign : Sign) : Listing :=
  tagged (match sign with | plus => "Plus" | minus => "Minus") (.atom sign.kind.name)

def AddOperator.listing (operator : AddOperator) : Listing :=
  tagged (match operator with | plus => "Plus" | minus => "Minus" | or => "Or")
    (.atom operator.kind.name)

def MulOperator.tag : MulOperator → String
  | times => "Multiplication"
  | divide => "Division"
  | div => "IntegerDivision"
  | mod => "Modulo"
  | and => "And"

mutual

def Expression.listing : Expression → Listing
  | ⟨sign, first, operations⟩ =>
    record "Expression" [("simple", record "SimpleExpression" [
      ("first", record "SingleTerm" [
        ("sign", option (sign.map Sign.listing)),
        ("term", first.listing)]),
      ("operations", list (TermOperation.listings operations))])]

def TermOperation.listing : TermOperation → Listing
  | ⟨operator, right⟩ =>
    record "TermOperation" [("operator", operator.listing), ("term", right.listing)]

def TermOperation.listings : List TermOperation → List Listing
  | [] => []
  | operation :: operations => operation.listing :: TermOperation.listings operations

def Term.listing : Term → Listing
  | ⟨first, operations⟩ =>
    record "Term" [
      ("first", first.listing),
      ("operations", list (FactorOperation.listings operations))]

def FactorOperation.listing : FactorOperation → Listing
  | ⟨operator, right⟩ =>
    tagged operator.tag (record operator.kind.name [("right", right.listing)])

def FactorOperation.listings : List FactorOperation → List Listing
  | [] => []
  | operation :: operations => operation.listing :: FactorOperation.listings operations

def Factor.listing : Factor → Listing
  | .number n => record "Factor" [("kind", tagged "Number" n.listing)]
  | .string content =>
    record "Factor" [("kind",
      tagged "String" (record "StringLiteral" [("value", .string content)]))]
  | .name q => record "Factor" [("kind", tagged "Designator" q.listing)]
  | .parenthesized e => record "Factor" [("kind", tagged "Parenthesized" e.listing)]

end

def Expression.constantListing (e : Expression) : Listing :=
  record "ConstExpression" [("expression", e.listing)]

/-! ## Types -/

def FormalType.listing (t : FormalType) : Listing :=
  record "FormalType" [("open_arrays", .nat t.openArrays), ("name", t.name.listing)]

def ParameterSection.listing (s : ParameterSection) : Listing :=
  record "FPSection" [
    ("by_reference", .bool s.byReference),
    ("names", identifierListListing s.names),
    ("formal_type", s.type.listing)]

def FormalParameters.listing (p : FormalParameters) : Listing :=
  record "FormalParameters" [
    ("sections", record "FPSectionList" [
      ("sections", list (p.sections.map ParameterSection.listing))]),
    ("result", option (p.result.map Qualident.listing))]

def lengthListListing (lengths : List Expression) : Listing :=
  record "LengthList" [("lengths",
    list (lengths.map fun e => record "Length" [("value", e.constantListing)]))]

def baseTypeListing (q : Qualident) : Listing :=
  record "BaseType" [("name", q.listing)]

mutual

def TypeExpr.listing : TypeExpr → Listing
  | .named q =>
    record "Type" [("kind", tagged "Qualident" (record "QualidentType" [("name", q.listing)]))]
  | .array lengths element =>
    record "Type" [("kind", tagged "Array" (record "ArrayType" [
      ("lengths", lengthListListing lengths),
      ("element", element.listing)]))]
  | .record base fields =>
    record "Type" [("kind", tagged "Record" (record "RecordType" [
      ("base", option (base.map baseTypeListing)),
      ("fields", record "FieldListSequence" [
        ("field_lists", list (FieldList.listings fields))])]))]
  | .pointer target =>
    record "Type" [("kind", tagged "Pointer" (record "PointerType" [("target", target.listing)]))]
  | .procedure parameters =>
    record "Type" [("kind", tagged "Procedure" (record "ProcedureType" [
      ("parameters", option (parameters.map FormalParameters.listing))]))]

def FieldList.listing : FieldList → Listing
  | ⟨names, type⟩ =>
    record "FieldList" [("names", identDefListListing names), ("field_type", type.listing)]

def FieldList.listings : List FieldList → List Listing
  | [] => []
  | fields :: rest => fields.listing :: FieldList.listings rest

end

/-! ## Declarations -/

def ConstDeclaration.listing (d : ConstDeclaration) : Listing :=
  record "ConstDeclaration" [("name", d.name.listing), ("value", d.value.constantListing)]

def TypeDeclaration.listing (d : TypeDeclaration) : Listing :=
  record "TypeDeclaration" [("name", d.name.listing), ("declared_type", d.type.listing)]

def VariableDeclaration.listing (d : VariableDeclaration) : Listing :=
  record "VariableDeclaration" [
    ("names", identDefListListing d.names),
    ("var_type", d.type.listing)]

def ProcedureHeading.listing (h : ProcedureHeading) : Listing :=
  record "ProcedureHeading" [
    ("name", h.name.listing),
    ("parameters", option (h.parameters.map FormalParameters.listing))]

mutual

def Declarations.listing : Declarations → Listing
  | ⟨constants, types, vars, procedures⟩ =>
    record "DeclarationSequence" [
      ("constants", list (constants.map ConstDeclaration.listing)),
      ("types", list (types.map TypeDeclaration.listing)),
      ("variables", record "VariableDeclarationList" [
        ("declarations", list (vars.map VariableDeclaration.listing))]),
      ("procedures", list (ProcedureDeclaration.listings procedures))]

def ProcedureDeclaration.listing : ProcedureDeclaration → Listing
  | ⟨heading, declarations, result, endName⟩ =>
    record "ProcedureDeclaration" [
      ("heading", heading.listing),
      ("body", declarations.listing),
      ("return_value", option (result.map Expression.listing)),
      ("end_name", identifierListing endName)]

def ProcedureDeclaration.listings : List ProcedureDeclaration → List Listing
  | [] => []
  | p :: ps => p.listing :: ProcedureDeclaration.listings ps

end

def Module.listing (m : Module) : Listing :=
  record "Root" [("module", record "Module" [
    ("name", identifierListing m.name),
    ("imports", option (m.imports.map identifierListListing)),
    ("declarations", m.declarations.listing),
    ("end_name", identifierListing m.endName)])]

end Oberon
