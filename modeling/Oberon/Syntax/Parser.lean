import Oberon.Syntax
import Oberon.Syntax.Cursor

/-!
# Parsing modules and expressions

One parser for each construct of the grammar.  Expressions, types and procedures contain each
other, so their parsers take a budget: a construct read with budget `n + 1` reads those inside it
with budget `n`, and with budget zero there may be none.  The budget of a whole module is
`maxNesting`.
-/

namespace Oberon.Parser

/-! ## Names -/

def isIdentifier : Token → Bool
  | .identifier _ => true
  | _ => false

def identifier : Parser String := do
  match ← token with
  | .identifier name =>
    advance
    return name
  | _ => fail .identifier

def identDef : Parser IdentDef := do
  let name ← identifier
  return ⟨name, ← accept (.mark .times)⟩

/-- Reads `qualident = [ident "."] ident`; the point is a part of it only before another
identifier. -/
def qualident : Parser Qualident := do
  let first ← identifier
  -- the point of `END M.` follows an identifier and belongs to the module
  match (← get).rest with
  | ⟨.mark .dot, _⟩ :: ⟨.identifier name, _⟩ :: _ =>
    advance
    advance
    return ⟨some first, name⟩
  | _ => return ⟨none, first⟩

def identDefs : Parser (List IdentDef) :=
  separated (.mark .comma) identDef

def identifiers : Parser (List String) :=
  separated (.mark .comma) identifier

/-! ## Expressions -/

def sign? : Token → Option Sign
  | .mark .plus => some .plus
  | .mark .minus => some .minus
  | _ => none

def addOperator? : Token → Option AddOperator
  | .mark .plus => some .plus
  | .mark .minus => some .minus
  | .keyword .OR => some .or
  | _ => none

def mulOperator? : Token → Option MulOperator
  | .mark .times => some .times
  | .mark .slash => some .divide
  | .keyword .DIV => some .div
  | .keyword .MOD => some .mod
  | .mark .ampersand => some .and
  | _ => none

/-- Reads `factor = number | string | qualident | "(" expression ")"` -/
def factor (expression : Parser Expression) : Parser Factor := do
  match ← token with
  | .integer value =>
    advance
    return .number (.integer value)
  | .real value =>
    advance
    return .number (.real value)
  | .string content =>
    advance
    return .string content
  | .identifier _ => return .name (← qualident)
  | .mark .leftParen =>
    advance
    let inner ← expression
    expect (.mark .rightParen)
    return .parenthesized inner
  | _ => fail .factor

/-- Reads `term = factor {("*" | "/" | DIV | MOD | "&") factor}` -/
def term (expression : Parser Expression) : Parser Term := do
  let first ← factor expression
  return ⟨first, ← operations mulOperator? (factor expression) FactorOperation.mk⟩

def sign : Parser (Option Sign) := do
  match sign? (← token) with
  | some sign =>
    advance
    return some sign
  | none => return none

/-- Reads `["+" | "-"] term {("+" | "-" | OR) term}` -/
def simpleExpression (expression : Parser Expression) : Parser Expression := do
  let sign ← sign
  let first ← term expression
  return ⟨sign, first, ← operations addOperator? (term expression) TermOperation.mk⟩

/-- An expression with fewer than `budget` others inside each other. -/
def expression : (budget : Nat) → Parser Expression
  | 0 => fail (.lessNesting .expressions)
  | budget + 1 => simpleExpression (expression budget)

/-! ## Types -/

/-- Reads `ARRAY OF` as often as it stands there, at most `limit` times. -/
def openArrays : (limit : Nat) → Parser Nat
  | 0 => do
    if (← token) = .keyword .ARRAY then
      fail .fewerOpenArrays
    else
      return 0
  | limit + 1 => do
    if ← accept (.keyword .ARRAY) then
      expect (.keyword .OF)
      return (← openArrays limit) + 1
    else
      return 0

def formalType : Parser FormalType := do
  let dimensions ← openArrays maxOpenArrays
  return ⟨dimensions, ← qualident⟩

/-- Reads `ParameterSection = [VAR] ident {"," ident} ":" FormalType` -/
def parameterSection : Parser ParameterSection := do
  let byReference ← accept (.keyword .VAR)
  let names ← identifiers
  expect (.mark .colon)
  return ⟨byReference, names, ← formalType⟩

def parameterSections : Parser (List ParameterSection) := do
  if (← token) = .mark .rightParen then
    return []
  else
    separated (.mark .semicolon) parameterSection

/-- Reads `FormalParameters = "(" [ParameterSection {";" ParameterSection}] ")" [":" qualident]`
behind the opening parenthesis. -/
def formalParameters : Parser FormalParameters := do
  let sections ← parameterSections
  expect (.mark .rightParen)
  return ⟨sections, ← optional (.mark .colon) qualident⟩

def baseType : Parser Qualident := do
  let name ← qualident
  expect (.mark .rightParen)
  return name

def fieldList (type : Parser TypeExpr) : Parser FieldList := do
  let names ← identDefs
  expect (.mark .colon)
  return ⟨names, ← type⟩

/-- Reads field lists with semicolons between them, at most `limit` of them.  A field list may be
empty, so semicolons may also stand in front of the first one, behind the last one, and repeated. -/
def fieldListsUpTo (type : Parser TypeExpr) : (limit : Nat) → Parser (List FieldList)
  | 0 => return []
  | limit + 1 => do
    let here ← if isIdentifier (← token) then List.singleton <$> fieldList type else pure []
    if ← accept (.mark .semicolon) then
      -- an empty field list leaves no trace in the tree
      return here ++ (← fieldListsUpTo type limit)
    else
      return here

/-- Reads `[FieldList] {";" [FieldList]}`; between two field lists there is at least one token. -/
def fieldLists (type : Parser TypeExpr) : Parser (List FieldList) := do
  fieldListsUpTo type ((← get).rest.length + 1)

/-- Reads `type = qualident | ArrayType | RecordType | PointerType | ProcedureType` -/
def typeForm (expression : Parser Expression) (type : Parser TypeExpr) : Parser TypeExpr := do
  match ← token with
  | .identifier _ => return .named (← qualident)
  | .keyword .ARRAY =>
    advance
    let lengths ← separated (.mark .comma) expression
    expect (.keyword .OF)
    return .array lengths (← type)
  | .keyword .RECORD =>
    advance
    let base ← optional (.mark .leftParen) baseType
    let fields ← fieldLists type
    expect (.keyword .END)
    return .record base fields
  | .keyword .POINTER =>
    advance
    expect (.keyword .TO)
    return .pointer (← type)
  | .keyword .PROCEDURE =>
    advance
    return .procedure (← optional (.mark .leftParen) formalParameters)
  | _ => fail .type

def type : (budget : Nat) → Parser TypeExpr
  | 0 => fail (.lessNesting .types)
  | budget + 1 => typeForm (expression budget) (type budget)

/-! ## Declarations -/

def constDeclaration (expression : Parser Expression) : Parser ConstDeclaration := do
  let name ← identDef
  expect (.mark .equal)
  return ⟨name, ← expression⟩

def typeDeclaration (type : Parser TypeExpr) : Parser TypeDeclaration := do
  let name ← identDef
  expect (.mark .equal)
  return ⟨name, ← type⟩

def variableDeclaration (type : Parser TypeExpr) : Parser VariableDeclaration := do
  let names ← identDefs
  expect (.mark .colon)
  return ⟨names, ← type⟩

def terminated {α : Type} (declaration : Parser α) : Parser α := do
  let result ← declaration
  expect (.mark .semicolon)
  return result

/-- Reads `[heading {declaration ";"}]` -/
def declarationSection {α : Type} (heading : Keyword) (declaration : Parser α) :
    Parser (List α) := do
  if ← accept (.keyword heading) then
    many isIdentifier (terminated declaration)
  else
    return []

/-- Reads `[CONST {ConstDeclaration ";"}] [TYPE {TypeDeclaration ";"}] [VAR {VariableDeclaration
";"}] {ProcedureDeclaration ";"}` -/
def declarations (expression : Parser Expression) (type : Parser TypeExpr)
    (procedure : Parser ProcedureDeclaration) : Parser Declarations := do
  let constants ← declarationSection .CONST (constDeclaration expression)
  let types ← declarationSection .TYPE (typeDeclaration type)
  let vars ← declarationSection .VAR (variableDeclaration type)
  let procedures ← many (· = .keyword .PROCEDURE) (terminated procedure)
  return ⟨constants, types, vars, procedures⟩

def procedureHeading : Parser ProcedureHeading := do
  expect (.keyword .PROCEDURE)
  let name ← identDef
  return ⟨name, ← optional (.mark .leftParen) formalParameters⟩

/-- Reads `ProcedureDeclaration = ProcedureHeading ";" Declarations [RETURN expression] END
ident` -/
def procedureBody (expression : Parser Expression) (type : Parser TypeExpr)
    (procedure : Parser ProcedureDeclaration) : Parser ProcedureDeclaration := do
  let heading ← procedureHeading
  expect (.mark .semicolon)
  let declarations ← declarations expression type procedure
  let result ← optional (.keyword .RETURN) expression
  expect (.keyword .END)
  return ⟨heading, declarations, result, ← identifier⟩

def procedure : (budget : Nat) → Parser ProcedureDeclaration
  | 0 => fail (.lessNesting .procedures)
  | budget + 1 => procedureBody (expression budget) (type budget) (procedure budget)

def importList : Parser (List String) := do
  let names ← identifiers
  expect (.mark .semicolon)
  return names

/-- Reads `MODULE ident ";" [IMPORT ident {"," ident} ";"] Declarations END ident "."` -/
def moduleBody (expression : Parser Expression) (type : Parser TypeExpr)
    (procedure : Parser ProcedureDeclaration) : Parser Module := do
  expect (.keyword .MODULE)
  let name ← identifier
  expect (.mark .semicolon)
  let imports ← optional (.keyword .IMPORT) importList
  let declarations ← declarations expression type procedure
  expect (.keyword .END)
  let endName ← identifier
  expect (.mark .dot)
  return ⟨name, imports, declarations, endName⟩

def module (budget : Nat) : Parser Module :=
  moduleBody (expression budget) (type budget) (procedure budget)

/-! ## Whole inputs -/

def whole {α : Type} (item : Parser α) : Parser α := do
  let result ← item
  if (← token) = .endOfFile then
    return result
  else
    fail (.token .endOfFile)

def wholeModule : Parser Module :=
  whole (module maxNesting)

def wholeExpression : Parser Expression :=
  whole (expression maxNesting)

def parseModule (tokens : List LocatedToken) : Except SyntaxError Module :=
  (wholeModule.runAt (.start tokens)).1

def parseExpression (tokens : List LocatedToken) : Except SyntaxError Expression :=
  (wholeExpression.runAt (.start tokens)).1

end Oberon.Parser
