import Oberon.Syntax
import Oberon.Token

/-!
# The grammar of modules

Which token lists spell which trees.  Every nonterminal is a relation between token lists and
trees, one constructor for each alternative; the notation of the grammar stands above it.  A rule
that contains expressions, types, procedures or their parameters takes the relations of these as
arguments, and the three recursive nonterminals close the circle.  The grammar knows no limits on
nesting.
-/

namespace Oberon

def Sign.token : Sign → Token
  | plus => .mark .plus
  | minus => .mark .minus

def AddOperator.token : AddOperator → Token
  | plus => .mark .plus
  | minus => .mark .minus
  | or => .keyword .OR

def MulOperator.token : MulOperator → Token
  | times => .mark .times
  | divide => .mark .slash
  | div => .keyword .DIV
  | mod => .keyword .MOD
  | and => .mark .ampersand

/-- A relation between token lists and what they spell. -/
abbrev Rule (α : Type) :=
  List Token → α → Prop

namespace Grammar

variable {α : Type}

/-! ## Combinations -/

/-- `[item]` -/
inductive Optional (item : Rule α) : Rule (Option α)
  | none : Optional item [] none
  | some {ts : List Token} {x : α} (h : item ts x) : Optional item ts (some x)

/-- `{item}` -/
inductive Repeated (item : Rule α) : Rule (List α)
  | nil : Repeated item [] []
  | cons {ts us : List Token} {x : α} {xs : List α} (first : item ts x)
      (others : Repeated item us xs) : Repeated item (ts ++ us) (x :: xs)

/-- `item {separator item}` -/
inductive Separated (separator : Token) (item : Rule α) : Rule (List α)
  | one {ts : List Token} {x : α} (only : item ts x) : Separated separator item ts [x]
  | cons {ts us : List Token} {x : α} {xs : List α} (first : item ts x)
      (others : Separated separator item us xs) :
      Separated separator item (ts ++ separator :: us) (x :: xs)

/-- `opening item` -/
inductive Behind (opening : Token) (item : Rule α) : Rule α
  | mk {ts : List Token} {x : α} (h : item ts x) : Behind opening item (opening :: ts) x

/-- `item ";"` -/
inductive Terminated (item : Rule α) : Rule α
  | mk {ts : List Token} {x : α} (h : item ts x) : Terminated item (ts ++ [.mark .semicolon]) x

/-! ## Names -/

inductive IsName : Rule String
  | mk (name : String) : IsName [.identifier name] name

/-- `identdef = ident ["*"]` -/
inductive IsIdentDef : Rule IdentDef
  | hidden (name : String) : IsIdentDef [.identifier name] ⟨name, false⟩
  | exported (name : String) : IsIdentDef [.identifier name, .mark .times] ⟨name, true⟩

/-- `qualident = [ident "."] ident` -/
inductive IsQualident : Rule Qualident
  | plain (name : String) : IsQualident [.identifier name] ⟨none, name⟩
  | qualified (qualifier name : String) :
      IsQualident [.identifier qualifier, .mark .dot, .identifier name] ⟨some qualifier, name⟩

/-! ## Expressions -/

inductive IsSign : Rule Sign
  | mk (sign : Sign) : IsSign [sign.token] sign

/-- `factor = number | string | qualident | "(" expression ")"` -/
inductive IsFactor (expression : Rule Expression) : Rule Factor
  | integer (value : Int64) : IsFactor expression [.integer value] (.number (.integer value))
  | real (value : Float) : IsFactor expression [.real value] (.number (.real value))
  | string (content : String) : IsFactor expression [.string content] (.string content)
  | name {ts : List Token} {q : Qualident} (h : IsQualident ts q) : IsFactor expression ts (.name q)
  | parenthesized {ts : List Token} {e : Expression} (h : expression ts e) :
      IsFactor expression (.mark .leftParen :: ts ++ [.mark .rightParen]) (.parenthesized e)

/-- `("*" | "/" | DIV | MOD | "&") factor` -/
inductive IsFactorOperation (factor : Rule Factor) : Rule FactorOperation
  | mk {ts : List Token} {right : Factor} (operator : MulOperator) (h : factor ts right) :
      IsFactorOperation factor (operator.token :: ts) ⟨operator, right⟩

/-- `term = factor {("*" | "/" | DIV | MOD | "&") factor}` -/
inductive IsTerm (expression : Rule Expression) : Rule Term
  | mk {ts us : List Token} {first : Factor} {operations : List FactorOperation}
      (hfirst : IsFactor expression ts first)
      (hothers : Repeated (IsFactorOperation (IsFactor expression)) us operations) :
      IsTerm expression (ts ++ us) ⟨first, operations⟩

/-- `("+" | "-" | OR) term` -/
inductive IsTermOperation (term : Rule Term) : Rule TermOperation
  | mk {ts : List Token} {right : Term} (operator : AddOperator) (h : term ts right) :
      IsTermOperation term (operator.token :: ts) ⟨operator, right⟩

/-- `SimpleExpression = ["+" | "-"] term {("+" | "-" | OR) term}` -/
inductive IsSimpleExpression (expression : Rule Expression) : Rule Expression
  | mk {ss ts us : List Token} {sign : Option Sign} {first : Term}
      {operations : List TermOperation} (hsign : Optional IsSign ss sign)
      (hfirst : IsTerm expression ts first)
      (hothers : Repeated (IsTermOperation (IsTerm expression)) us operations) :
      IsSimpleExpression expression (ss ++ ts ++ us) ⟨sign, first, operations⟩

inductive IsExpression : Rule Expression
  | mk {ts : List Token} {e : Expression} (h : IsSimpleExpression IsExpression ts e) :
      IsExpression ts e

/-! ## Parameters -/

/-- `FormalType = {ARRAY OF} qualident` -/
inductive IsFormalType : Rule FormalType
  | name {ts : List Token} {q : Qualident} (h : IsQualident ts q) : IsFormalType ts ⟨0, q⟩
  | openArray {ts : List Token} {dimensions : Nat} {q : Qualident}
      (h : IsFormalType ts ⟨dimensions, q⟩) :
      IsFormalType (.keyword .ARRAY :: .keyword .OF :: ts) ⟨dimensions + 1, q⟩

/-- `FPSection = [VAR] ident {"," ident} ":" FormalType` -/
inductive IsParameterSection : Rule ParameterSection
  | byValue {ns ts : List Token} {names : List String} {type : FormalType}
      (hnames : Separated (.mark .comma) IsName ns names) (htype : IsFormalType ts type) :
      IsParameterSection (ns ++ .mark .colon :: ts) ⟨false, names, type⟩
  | byReference {ns ts : List Token} {names : List String} {type : FormalType}
      (hnames : Separated (.mark .comma) IsName ns names) (htype : IsFormalType ts type) :
      IsParameterSection (.keyword .VAR :: ns ++ .mark .colon :: ts) ⟨true, names, type⟩

/-- `[FPSection {";" FPSection}]` -/
inductive IsParameterSections : Rule (List ParameterSection)
  | none : IsParameterSections [] []
  | some {ts : List Token} {sections : List ParameterSection}
      (h : Separated (.mark .semicolon) IsParameterSection ts sections) :
      IsParameterSections ts sections

/-- `FormalParameters = "(" [FPSection {";" FPSection}] ")" [":" qualident]` -/
inductive IsFormalParameters : Rule FormalParameters
  | mk {ss rs : List Token} {sections : List ParameterSection} {result : Option Qualident}
      (hsections : IsParameterSections ss sections)
      (hresult : Optional (Behind (.mark .colon) IsQualident) rs result) :
      IsFormalParameters (.mark .leftParen :: ss ++ .mark .rightParen :: rs) ⟨sections, result⟩

/-! ## Types -/

inductive IsBaseType : Rule Qualident
  | mk {ts : List Token} {q : Qualident} (h : IsQualident ts q) :
      IsBaseType (.mark .leftParen :: ts ++ [.mark .rightParen]) q

/-- `FieldList = identdef {"," identdef} ":" type` -/
inductive IsFieldList (type : Rule TypeExpr) : Rule FieldList
  | mk {ns ts : List Token} {names : List IdentDef} {t : TypeExpr}
      (hnames : Separated (.mark .comma) IsIdentDef ns names) (htype : type ts t) :
      IsFieldList type (ns ++ .mark .colon :: ts) ⟨names, t⟩

/-- `[FieldList] {";" [FieldList]}`; an empty field list leaves no trace in the tree. -/
inductive IsFieldLists (type : Rule TypeExpr) : Rule (List FieldList)
  | mk {ts : List Token} {fields : List (Option FieldList)}
      (h : Separated (.mark .semicolon) (Optional (IsFieldList type)) ts fields) :
      IsFieldLists type ts (fields.filterMap id)

/-- `type = qualident | ArrayType | RecordType | PointerType | ProcedureType` -/
inductive IsTypeForm (parameters : Rule FormalParameters) (expression : Rule Expression)
    (type : Rule TypeExpr) : Rule TypeExpr
  | named {ts : List Token} {q : Qualident} (h : IsQualident ts q) :
      IsTypeForm parameters expression type ts (.named q)
  | array {ls ts : List Token} {lengths : List Expression} {element : TypeExpr}
      (hlengths : Separated (.mark .comma) expression ls lengths) (helement : type ts element) :
      IsTypeForm parameters expression type (.keyword .ARRAY :: ls ++ .keyword .OF :: ts)
        (.array lengths element)
  | record {bs fs : List Token} {base : Option Qualident} {fields : List FieldList}
      (hbase : Optional IsBaseType bs base) (hfields : IsFieldLists type fs fields) :
      IsTypeForm parameters expression type (.keyword .RECORD :: bs ++ fs ++ [.keyword .END])
        (.record base fields)
  | pointer {ts : List Token} {target : TypeExpr} (h : type ts target) :
      IsTypeForm parameters expression type (.keyword .POINTER :: .keyword .TO :: ts)
        (.pointer target)
  | procedure {ps : List Token} {formal : Option FormalParameters}
      (h : Optional parameters ps formal) :
      IsTypeForm parameters expression type (.keyword .PROCEDURE :: ps) (.procedure formal)

inductive IsType : Rule TypeExpr
  | mk {ts : List Token} {t : TypeExpr}
    (h : IsTypeForm IsFormalParameters IsExpression IsType ts t) :
      IsType ts t

/-! ## Declarations -/

/-- `ConstDecl = identdef "=" expression` -/
inductive IsConstDeclaration (expression : Rule Expression) : Rule ConstDeclaration
  | mk {ns ts : List Token} {name : IdentDef} {value : Expression} (hname : IsIdentDef ns name)
      (hvalue : expression ts value) :
      IsConstDeclaration expression (ns ++ .mark .equal :: ts) ⟨name, value⟩

/-- `TypeDecl = identdef "=" type` -/
inductive IsTypeDeclaration (type : Rule TypeExpr) : Rule TypeDeclaration
  | mk {ns ts : List Token} {name : IdentDef} {t : TypeExpr} (hname : IsIdentDef ns name)
      (htype : type ts t) : IsTypeDeclaration type (ns ++ .mark .equal :: ts) ⟨name, t⟩

/-- `VarDecl = identdef {"," identdef} ":" type` -/
inductive IsVariableDeclaration (type : Rule TypeExpr) : Rule VariableDeclaration
  | mk {ns ts : List Token} {names : List IdentDef} {t : TypeExpr}
      (hnames : Separated (.mark .comma) IsIdentDef ns names) (htype : type ts t) :
      IsVariableDeclaration type (ns ++ .mark .colon :: ts) ⟨names, t⟩

/-- `[heading {item ";"}]`; a heading without declarations leaves no trace in the tree. -/
inductive IsSection (heading : Keyword) (item : Rule α) : Rule (List α)
  | absent : IsSection heading item [] []
  | present {ts : List Token} {xs : List α} (h : Repeated (Terminated item) ts xs) :
      IsSection heading item (.keyword heading :: ts) xs

/-- `DeclSequence = [CONST {ConstDecl ";"}] [TYPE {TypeDecl ";"}] [VAR {VarDecl ";"}] {ProcDecl
";"}` -/
inductive IsDeclarations (expression : Rule Expression) (type : Rule TypeExpr)
    (procedure : Rule ProcedureDeclaration) : Rule Declarations
  | mk {cs ts vs ps : List Token} {constants : List ConstDeclaration}
      {types : List TypeDeclaration} {vars : List VariableDeclaration}
      {procedures : List ProcedureDeclaration}
      (hconstants : IsSection .CONST (IsConstDeclaration expression) cs constants)
      (htypes : IsSection .TYPE (IsTypeDeclaration type) ts types)
      (hvars : IsSection .VAR (IsVariableDeclaration type) vs vars)
      (hprocedures : Repeated (Terminated procedure) ps procedures) :
      IsDeclarations expression type procedure (cs ++ ts ++ vs ++ ps)
        ⟨constants, types, vars, procedures⟩

/-- `ProcedureHeading = PROCEDURE identdef [FormalParameters]` -/
inductive IsProcedureHeading (parameters : Rule FormalParameters) : Rule ProcedureHeading
  | mk {ns ps : List Token} {name : IdentDef} {formal : Option FormalParameters}
      (hname : IsIdentDef ns name) (hparameters : Optional parameters ps formal) :
      IsProcedureHeading parameters (.keyword .PROCEDURE :: ns ++ ps) ⟨name, formal⟩

/-- `ProcDecl = ProcedureHeading ";" DeclSequence [RETURN expression] END ident` -/
inductive IsProcedureBody (parameters : Rule FormalParameters) (expression : Rule Expression)
    (type : Rule TypeExpr) (procedure : Rule ProcedureDeclaration) : Rule ProcedureDeclaration
  | mk {hs ds rs : List Token} {heading : ProcedureHeading} {declarations : Declarations}
      {result : Option Expression} (hheading : IsProcedureHeading parameters hs heading)
      (hdeclarations : IsDeclarations expression type procedure ds declarations)
      (hresult : Optional (Behind (.keyword .RETURN) expression) rs result) (endName : String) :
      IsProcedureBody parameters expression type procedure
        (hs ++ .mark .semicolon :: ds ++ rs ++ [.keyword .END, .identifier endName])
        ⟨heading, declarations, result, endName⟩

inductive IsProcedure : Rule ProcedureDeclaration
  | mk {ts : List Token} {p : ProcedureDeclaration}
      (h : IsProcedureBody IsFormalParameters IsExpression IsType IsProcedure ts p) :
      IsProcedure ts p

/-- `ImportList = IMPORT ident {"," ident} ";"` -/
inductive IsImportList : Rule (List String)
  | mk {ns : List Token} {names : List String} (h : Separated (.mark .comma) IsName ns names) :
      IsImportList (.keyword .IMPORT :: ns ++ [.mark .semicolon]) names

/-- `module = MODULE ident ";" [ImportList] DeclSequence END ident "."` over given expressions,
types and procedures. -/
inductive IsModuleBody (expression : Rule Expression) (type : Rule TypeExpr)
    (procedure : Rule ProcedureDeclaration) : Rule Module
  | mk {is ds : List Token} {imports : Option (List String)} {declarations : Declarations}
      (name : String) (himports : Optional IsImportList is imports)
      (hdeclarations : IsDeclarations expression type procedure ds declarations)
      (endName : String) :
      IsModuleBody expression type procedure
        (.keyword .MODULE :: .identifier name :: .mark .semicolon :: is ++ ds ++
          [.keyword .END, .identifier endName, .mark .dot])
        ⟨name, imports, declarations, endName⟩

abbrev IsModule : Rule Module :=
  IsModuleBody IsExpression IsType IsProcedure

end Grammar

end Oberon
