import Oberon.Decimal.Text
import Oberon.Syntax.Node
import Oberon.Text.Format

/-!
# Source text of trees

The canonical source text of every construct: reserved words in capitals, each declaration on a
line of its own, one blank around binary operators, and parentheses exactly where the tree has
them.  A body is indented by `width` blanks more than what encloses it.
-/

namespace Oberon

def defaultIndent : Nat := 2

/-- The largest indentation; a larger request counts as this one. -/
def maxIndent : Nat := 8

/-! ## Names and numbers -/

def IdentDef.source (d : IdentDef) : String :=
  if d.exported then d.name ++ "*" else d.name

def identDefListSource (names : List IdentDef) : String :=
  ", ".intercalate (names.map IdentDef.source)

def Number.source : Number → String
  | integer value => Int.repr value.toInt
  | real value => Real.literal value

def stringSource (content : String) : String :=
  "\"" ++ content ++ "\""

/-! ## Expressions -/

def signSource : Option Sign → String
  | none => ""
  | some sign => sign.text

mutual

def Expression.source : Expression → String
  | ⟨sign, first, operations⟩ =>
    signSource sign ++ first.source ++ TermOperation.sources operations

def TermOperation.source : TermOperation → String
  | ⟨operator, right⟩ => " " ++ operator.text ++ " " ++ right.source

def TermOperation.sources : List TermOperation → String
  | [] => ""
  | operation :: operations => operation.source ++ TermOperation.sources operations

def Term.source : Term → String
  | ⟨first, operations⟩ => first.source ++ FactorOperation.sources operations

def FactorOperation.source : FactorOperation → String
  | ⟨operator, right⟩ => " " ++ operator.text ++ " " ++ right.source

def FactorOperation.sources : List FactorOperation → String
  | [] => ""
  | operation :: operations => operation.source ++ FactorOperation.sources operations

def Factor.source : Factor → String
  | .number n => n.source
  | .string content => stringSource content
  | .name q => q.text
  | .parenthesized e => "(" ++ e.source ++ ")"

end

def lengthListSource (lengths : List Expression) : String :=
  ", ".intercalate (lengths.map Expression.source)

/-! ## Types -/

def FormalType.source (t : FormalType) : String :=
  String.join (List.replicate t.openArrays "ARRAY OF ") ++ t.name.text

def ParameterSection.source (s : ParameterSection) : String :=
  (if s.byReference then "VAR " else "") ++ ", ".intercalate s.names ++ ": " ++ s.type.source

def parameterSectionListSource (sections : List ParameterSection) : String :=
  "; ".intercalate (sections.map ParameterSection.source)

def FormalParameters.source (p : FormalParameters) : String :=
  "(" ++ parameterSectionListSource p.sections ++ ")" ++
    match p.result with
    | none => ""
    | some q => ": " ++ q.text

def parametersSource : Option FormalParameters → String
  | none => ""
  | some parameters => parameters.source

def baseTypeSource (q : Qualident) : String :=
  "(" ++ q.text ++ ")"

mutual

def TypeExpr.source (width depth : Nat) : TypeExpr → String
  | .named q => q.text
  | .array lengths element =>
    "ARRAY " ++ lengthListSource lengths ++ " OF " ++ element.source width depth
  | .record base fields =>
    "RECORD" ++ (match base with
      | none => ""
      | some q => " " ++ baseTypeSource q) ++
      (match fields with
      | [] => " END"
      | _ :: _ => "\n" ++ FieldList.lines width (depth + 1) fields ++ margin width depth ++ "END")
  | .pointer target => "POINTER TO " ++ target.source width depth
  | .procedure parameters => "PROCEDURE" ++ parametersSource parameters

def FieldList.source (width depth : Nat) : FieldList → String
  | ⟨names, type⟩ => identDefListSource names ++ ": " ++ type.source width depth

def FieldList.lines (width depth : Nat) : List FieldList → String
  | [] => ""
  | fields :: others =>
    margin width depth ++ fields.source width depth ++ (if others.isEmpty then "" else ";") ++
      "\n" ++ FieldList.lines width depth others

end

/-! ## Declarations -/

def ConstDeclaration.source (width depth : Nat) (d : ConstDeclaration) : String :=
  margin width depth ++ d.name.source ++ " = " ++ d.value.source ++ ";\n"

def TypeDeclaration.source (width depth : Nat) (d : TypeDeclaration) : String :=
  margin width depth ++ d.name.source ++ " = " ++ d.type.source width depth ++ ";\n"

def VariableDeclaration.source (width depth : Nat) (d : VariableDeclaration) : String :=
  margin width depth ++ identDefListSource d.names ++ ": " ++ d.type.source width depth ++ ";\n"

def sectionSource {α : Type} (heading : String) (line : Nat → Nat → α → String) (width depth : Nat)
    (declarations : List α) : String :=
  if declarations.isEmpty then ""
  else
    margin width depth ++ heading ++ "\n" ++ String.join (declarations.map (line width (depth + 1)))

def variableSectionSource (width depth : Nat) (ds : List VariableDeclaration) : String :=
  sectionSource "VAR" VariableDeclaration.source width depth ds

def ProcedureHeading.source (h : ProcedureHeading) : String :=
  "PROCEDURE " ++ h.name.source ++ parametersSource h.parameters

mutual

def Declarations.source (width depth : Nat) : Declarations → String
  | ⟨constants, types, vars, procedures⟩ =>
    sectionSource "CONST" ConstDeclaration.source width depth constants ++
      sectionSource "TYPE" TypeDeclaration.source width depth types ++
      variableSectionSource width depth vars ++
      ProcedureDeclaration.sources width depth procedures

def ProcedureDeclaration.source (width depth : Nat) : ProcedureDeclaration → String
  | ⟨heading, declarations, result, endName⟩ =>
    margin width depth ++ heading.source ++ ";\n" ++ declarations.source width (depth + 1) ++
      (match result with
      | none => ""
      | some value => margin width (depth + 1) ++ "RETURN " ++ value.source ++ "\n") ++
      margin width depth ++ "END " ++ endName ++ ";\n"

def ProcedureDeclaration.sources (width depth : Nat) : List ProcedureDeclaration → String
  | [] => ""
  | procedure :: procedures =>
    procedure.source width depth ++ ProcedureDeclaration.sources width depth procedures

end

def Module.source (width : Nat) (m : Module) : String :=
  "MODULE " ++ m.name ++ ";\n" ++
    (match m.imports with
    | none => ""
    | some names => "IMPORT " ++ ", ".intercalate names ++ ";\n") ++
    m.declarations.source width 0 ++ "END " ++ m.endName ++ ".\n"

/-! ## All nodes -/

def Node.source (width : Nat) : Node → String
  | root m => m.source width
  | module m => m.source width
  | identifier name => name
  | identDef name => name.source
  | qualident q => q.text
  | number n => n.source
  | integer value => Number.source (.integer value)
  | real value => Number.source (.real value)
  | string content => stringSource content
  | constDeclaration d => d.source width 0
  | constExpression e => e.source
  | typeDeclaration d => d.source width 0
  | variableDeclaration d => d.source width 0
  | variableDeclarationList ds => variableSectionSource width 0 ds
  | procedureDeclaration p => p.source width 0
  | procedureHeading h => h.source
  | type t => t.source width 0
  | typeForm t => t.source width 0
  | baseType q => baseTypeSource q
  | fieldList fields => fields.source width 0
  | fieldListSequence fields => FieldList.lines width 1 fields
  | identDefList names => identDefListSource names
  | length e => e.source
  | lengthList lengths => lengthListSource lengths
  | expression e => e.source
  | simpleExpression e => e.source
  | singleTerm s t => signSource s ++ t.source
  | termOperation operation => operation.source
  | term t => t.source
  | factor f => f.source
  | addOperator operator => " " ++ operator.text ++ " "
  | factorOperation operation => operation.source
  | sign s => s.text
  | formalParameters p => p.source
  | formalType t => t.source
  | parameterSection s => s.source
  | parameterSectionList sections => parameterSectionListSource sections
  | identifierList names => ", ".intercalate names

def Node.print (indent : Nat) (n : Node) : String :=
  n.source (min indent maxIndent)

def printAll (indent : Nat) (nodes : List Node) : String :=
  String.join (nodes.map (Node.print indent))

end Oberon
