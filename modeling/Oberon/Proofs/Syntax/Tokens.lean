import Oberon.Proofs.Grammar
import Oberon.Syntax.Outline

/-!
# The tokens of a tree

Every tree is written with one list of tokens: no section heading stands without declarations, and
exactly one semicolon stands between two field lists.  Other lists of tokens may have the same
tree, if they differ in these respects only.
-/

namespace Oberon

/-! ## Lists -/

def joined (separator : Token) : List (List Token) → List Token
  | [] => []
  | [item] => item
  | item :: items => item ++ separator :: joined separator items

theorem joined_cons (separator : Token) (item : List Token) {items : List (List Token)}
    (h : items ≠ []) :
    joined separator (item :: items) = item ++ separator :: joined separator items := by
  cases items with
  | nil => exact absurd rfl h
  | cons => rfl

/-- Declarations behind their heading, which is left out if there are none. -/
def sectionTokens (heading : Keyword) : List (List Token) → List Token
  | [] => []
  | item :: items => .keyword heading :: (item :: items).flatMap (· ++ [.mark .semicolon])

/-! ## Names and numbers -/

def nameTokens (names : List String) : List Token :=
  joined (.mark .comma) (names.map fun name => [.identifier name])

def IdentDef.tokens (d : IdentDef) : List Token :=
  if d.exported then [.identifier d.name, .mark .times] else [.identifier d.name]

def identDefTokens (ds : List IdentDef) : List Token :=
  joined (.mark .comma) (ds.map IdentDef.tokens)

def Qualident.tokens (q : Qualident) : List Token :=
  match q.qualifier with
  | some qualifier => [.identifier qualifier, .mark .dot, .identifier q.name]
  | none => [.identifier q.name]

def Number.token : Number → Token
  | integer value => .integer value
  | real value => .real value

/-! ## Expressions -/

def signTokens (sign : Option Sign) : List Token :=
  sign.toList.map Sign.token

mutual

def Expression.tokens : Expression → List Token
  | ⟨sign, first, operations⟩ =>
    signTokens sign ++ first.tokens ++ TermOperation.allTokens operations

def TermOperation.tokens : TermOperation → List Token
  | ⟨operator, right⟩ => operator.token :: right.tokens

def TermOperation.allTokens : List TermOperation → List Token
  | [] => []
  | operation :: operations => operation.tokens ++ TermOperation.allTokens operations

def Term.tokens : Term → List Token
  | ⟨first, operations⟩ => first.tokens ++ FactorOperation.allTokens operations

def FactorOperation.tokens : FactorOperation → List Token
  | ⟨operator, right⟩ => operator.token :: right.tokens

def FactorOperation.allTokens : List FactorOperation → List Token
  | [] => []
  | operation :: operations => operation.tokens ++ FactorOperation.allTokens operations

def Factor.tokens : Factor → List Token
  | .number n => [n.token]
  | .string content => [.string content]
  | .name q => q.tokens
  | .parenthesized e => .mark .leftParen :: e.tokens ++ [.mark .rightParen]

end

theorem TermOperation.allTokens_eq_flatMap (operations : List TermOperation) :
    TermOperation.allTokens operations = operations.flatMap TermOperation.tokens := by
  induction operations with
  | nil => rfl
  | cons operation operations ih => rw [TermOperation.allTokens, ih, List.flatMap_cons]

theorem FactorOperation.allTokens_eq_flatMap (operations : List FactorOperation) :
    FactorOperation.allTokens operations = operations.flatMap FactorOperation.tokens := by
  induction operations with
  | nil => rfl
  | cons operation operations ih => rw [FactorOperation.allTokens, ih, List.flatMap_cons]

/-! ## Types -/

def openArrayTokens : Nat → List Token
  | 0 => []
  | dimensions + 1 => .keyword .ARRAY :: .keyword .OF :: openArrayTokens dimensions

def FormalType.tokens (t : FormalType) : List Token :=
  openArrayTokens t.openArrays ++ t.name.tokens

def ParameterSection.tokens (s : ParameterSection) : List Token :=
  (if s.byReference then [.keyword .VAR] else []) ++ nameTokens s.names ++
    .mark .colon :: s.type.tokens

def sectionListTokens (sections : List ParameterSection) : List Token :=
  joined (.mark .semicolon) (sections.map ParameterSection.tokens)

def resultTypeTokens (result : Option Qualident) : List Token :=
  result.toList.flatMap fun q => .mark .colon :: q.tokens

def FormalParameters.tokens (p : FormalParameters) : List Token :=
  .mark .leftParen :: sectionListTokens p.sections ++ .mark .rightParen :: resultTypeTokens p.result

def parameterTokens (p : Option FormalParameters) : List Token :=
  p.toList.flatMap FormalParameters.tokens

def lengthTokens (lengths : List Expression) : List Token :=
  joined (.mark .comma) (lengths.map Expression.tokens)

def baseTokens (base : Option Qualident) : List Token :=
  base.toList.flatMap fun q => .mark .leftParen :: q.tokens ++ [.mark .rightParen]

mutual

def TypeExpr.tokens : TypeExpr → List Token
  | .named q => q.tokens
  | .array lengths element =>
    .keyword .ARRAY :: lengthTokens lengths ++ .keyword .OF :: element.tokens
  | .record base fields =>
    .keyword .RECORD :: baseTokens base ++
      joined (.mark .semicolon) (FieldList.tokenLists fields) ++ [.keyword .END]
  | .pointer target => .keyword .POINTER :: .keyword .TO :: target.tokens
  | .procedure parameters => .keyword .PROCEDURE :: parameterTokens parameters

def FieldList.tokens : FieldList → List Token
  | ⟨names, type⟩ => identDefTokens names ++ .mark .colon :: type.tokens

def FieldList.tokenLists : List FieldList → List (List Token)
  | [] => []
  | fields :: others => fields.tokens :: FieldList.tokenLists others

end

theorem FieldList.tokenLists_eq_map (fields : List FieldList) :
    FieldList.tokenLists fields = fields.map FieldList.tokens := by
  induction fields with
  | nil => rfl
  | cons field fields ih => rw [FieldList.tokenLists, ih, List.map_cons]

def fieldTokens (fields : List FieldList) : List Token :=
  joined (.mark .semicolon) (fields.map FieldList.tokens)

/-! ## Declarations -/

def ConstDeclaration.tokens (d : ConstDeclaration) : List Token :=
  d.name.tokens ++ .mark .equal :: d.value.tokens

def TypeDeclaration.tokens (d : TypeDeclaration) : List Token :=
  d.name.tokens ++ .mark .equal :: d.type.tokens

def VariableDeclaration.tokens (d : VariableDeclaration) : List Token :=
  identDefTokens d.names ++ .mark .colon :: d.type.tokens

def variableTokens (ds : List VariableDeclaration) : List Token :=
  sectionTokens .VAR (ds.map VariableDeclaration.tokens)

def ProcedureHeading.tokens (h : ProcedureHeading) : List Token :=
  .keyword .PROCEDURE :: h.name.tokens ++ parameterTokens h.parameters

def resultTokens (result : Option Expression) : List Token :=
  result.toList.flatMap fun e => .keyword .RETURN :: e.tokens

mutual

def Declarations.tokens : Declarations → List Token
  | ⟨constants, types, vars, procedures⟩ =>
    sectionTokens .CONST (constants.map ConstDeclaration.tokens) ++
      sectionTokens .TYPE (types.map TypeDeclaration.tokens) ++ variableTokens vars ++
      ProcedureDeclaration.allTokens procedures

def ProcedureDeclaration.tokens : ProcedureDeclaration → List Token
  | ⟨heading, declarations, result, endName⟩ =>
    heading.tokens ++ .mark .semicolon :: declarations.tokens ++ resultTokens result ++
      [.keyword .END, .identifier endName]

def ProcedureDeclaration.allTokens : List ProcedureDeclaration → List Token
  | [] => []
  | p :: ps => p.tokens ++ [.mark .semicolon] ++ ProcedureDeclaration.allTokens ps

end

theorem ProcedureDeclaration.allTokens_eq_flatMap (ps : List ProcedureDeclaration) :
    ProcedureDeclaration.allTokens ps = ps.flatMap fun p => p.tokens ++ [.mark .semicolon] := by
  induction ps with
  | nil => rfl
  | cons p ps ih => rw [ProcedureDeclaration.allTokens, ih, List.flatMap_cons]

def importTokens (imports : Option (List String)) : List Token :=
  imports.toList.flatMap fun names => .keyword .IMPORT :: nameTokens names ++ [.mark .semicolon]

def Module.tokens (m : Module) : List Token :=
  .keyword .MODULE :: .identifier m.name :: .mark .semicolon :: importTokens m.imports ++
    m.declarations.tokens ++ [.keyword .END, .identifier m.endName, .mark .dot]

/-! ## All nodes -/

/-- The tokens of a node.  The marks between a node and its neighbours belong to the node above. -/
def Node.tokens : Node → List Token
  | root m => m.tokens
  | module m => m.tokens
  | identifier name => [.identifier name]
  | identDef d => d.tokens
  | qualident q => q.tokens
  | number n => [n.token]
  | integer value => [.integer value]
  | real value => [.real value]
  | string content => [.string content]
  | constDeclaration d => d.tokens
  | constExpression e => e.tokens
  | typeDeclaration d => d.tokens
  | variableDeclaration d => d.tokens
  | variableDeclarationList ds => variableTokens ds
  | procedureDeclaration p => p.tokens
  | procedureHeading h => h.tokens
  | type t => t.tokens
  | typeForm t => t.tokens
  | baseType q => q.tokens
  | fieldList fields => fields.tokens
  | fieldListSequence fields => fieldTokens fields
  | identDefList names => identDefTokens names
  | length e => e.tokens
  | lengthList lengths => lengthTokens lengths
  | expression e => e.tokens
  | simpleExpression e => e.tokens
  | singleTerm s t => signTokens s ++ t.tokens
  | termOperation operation => operation.tokens
  | term t => t.tokens
  | factor f => f.tokens
  | addOperator operator => [operator.token]
  | factorOperation operation => operation.tokens
  | sign s => [s.token]
  | formalParameters p => p.tokens
  | formalType t => t.tokens
  | parameterSection s => s.tokens
  | parameterSectionList sections => sectionListTokens sections
  | identifierList names => nameTokens names

end Oberon
