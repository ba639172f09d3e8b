import Oberon.Syntax.Node
import Oberon.Syntax.Tree

/-!
# The nodes of a construct

Every construct has a tree of nodes: the node itself above the nodes of its parts, in the order of
the source.  Main statement: the tree of a node has that node at its top.
-/

namespace Oberon

open Oberon.Tree (node leaf)

/-! ## Names and numbers -/

def identifierListTree (names : List String) : Tree Node :=
  node (.identifierList names) (names.map fun name => leaf (.identifier name))

def identDefListTree (names : List IdentDef) : Tree Node :=
  node (.identDefList names) (names.map fun name => leaf (.identDef name))

def Number.tree (n : Number) : Tree Node :=
  node (.number n)
    [match n with
     | integer value => leaf (.integer value)
     | real value => leaf (.real value)]

/-! ## Expressions -/

def signTrees (sign : Option Sign) : List (Tree Node) :=
  sign.toList.map fun s => leaf (.sign s)

mutual

def Expression.simpleTree : Expression → Tree Node
  | ⟨sign, first, operations⟩ =>
    node (.simpleExpression ⟨sign, first, operations⟩)
      (node (.singleTerm sign first) (signTrees sign ++ [first.tree]) ::
        TermOperation.trees operations)

def TermOperation.tree : TermOperation → Tree Node
  | ⟨operator, right⟩ =>
    node (.termOperation ⟨operator, right⟩) [leaf (.addOperator operator), right.tree]

def TermOperation.trees : List TermOperation → List (Tree Node)
  | [] => []
  | operation :: operations => operation.tree :: TermOperation.trees operations

def Term.tree : Term → Tree Node
  | ⟨first, operations⟩ =>
    node (.term ⟨first, operations⟩) (first.tree :: FactorOperation.trees operations)

def FactorOperation.tree : FactorOperation → Tree Node
  | ⟨operator, right⟩ => node (.factorOperation ⟨operator, right⟩) [right.tree]

def FactorOperation.trees : List FactorOperation → List (Tree Node)
  | [] => []
  | operation :: operations => operation.tree :: FactorOperation.trees operations

def Factor.tree : Factor → Tree Node
  | .number n => node (.factor (.number n)) [n.tree]
  | .string content => node (.factor (.string content)) [leaf (.string content)]
  | .name q => node (.factor (.name q)) [leaf (.qualident q)]
  | .parenthesized e => node (.factor (.parenthesized e)) [node (.expression e) [e.simpleTree]]

end

def Expression.tree (e : Expression) : Tree Node :=
  node (.expression e) [e.simpleTree]

def singleTermTree (sign : Option Sign) (term : Term) : Tree Node :=
  node (.singleTerm sign term) (signTrees sign ++ [term.tree])

def constExpressionTree (e : Expression) : Tree Node :=
  node (.constExpression e) [e.tree]

/-! ## Types -/

def FormalType.tree (t : FormalType) : Tree Node :=
  node (.formalType t) [leaf (.qualident t.name)]

def ParameterSection.tree (s : ParameterSection) : Tree Node :=
  node (.parameterSection s) [identifierListTree s.names, s.type.tree]

def parameterSectionListTree (sections : List ParameterSection) : Tree Node :=
  node (.parameterSectionList sections) (sections.map ParameterSection.tree)

def FormalParameters.tree (p : FormalParameters) : Tree Node :=
  node (.formalParameters p)
    (parameterSectionListTree p.sections :: p.result.toList.map fun q => leaf (.qualident q))

def lengthTree (e : Expression) : Tree Node :=
  node (.length e) [constExpressionTree e]

def lengthListTree (lengths : List Expression) : Tree Node :=
  node (.lengthList lengths) (lengths.map lengthTree)

def baseTypeTree (q : Qualident) : Tree Node :=
  node (.baseType q) [leaf (.qualident q)]

mutual

def TypeExpr.formTree : TypeExpr → Tree Node
  | .named q => node (.typeForm (.named q)) [leaf (.qualident q)]
  | .array lengths element =>
    node (.typeForm (.array lengths element))
      [lengthListTree lengths, node (.type element) [element.formTree]]
  | .record base fields =>
    node (.typeForm (.record base fields))
      (base.toList.map baseTypeTree ++ [node (.fieldListSequence fields) (FieldList.trees fields)])
  | .pointer target =>
    node (.typeForm (.pointer target)) [node (.type target) [target.formTree]]
  | .procedure parameters =>
    node (.typeForm (.procedure parameters)) (parameters.toList.map FormalParameters.tree)

def FieldList.tree : FieldList → Tree Node
  | ⟨names, type⟩ =>
    node (.fieldList ⟨names, type⟩)
      [identDefListTree names, node (.type type) [type.formTree]]

def FieldList.trees : List FieldList → List (Tree Node)
  | [] => []
  | fields :: others => fields.tree :: FieldList.trees others

end

def TypeExpr.tree (t : TypeExpr) : Tree Node :=
  node (.type t) [t.formTree]

def fieldListSequenceTree (fields : List FieldList) : Tree Node :=
  node (.fieldListSequence fields) (FieldList.trees fields)

/-! ## Declarations -/

def ConstDeclaration.tree (d : ConstDeclaration) : Tree Node :=
  node (.constDeclaration d) [leaf (.identDef d.name), constExpressionTree d.value]

def TypeDeclaration.tree (d : TypeDeclaration) : Tree Node :=
  node (.typeDeclaration d) [leaf (.identDef d.name), d.type.tree]

def VariableDeclaration.tree (d : VariableDeclaration) : Tree Node :=
  node (.variableDeclaration d) [identDefListTree d.names, d.type.tree]

def variableDeclarationListTree (ds : List VariableDeclaration) : Tree Node :=
  node (.variableDeclarationList ds) (ds.map VariableDeclaration.tree)

def ProcedureHeading.tree (h : ProcedureHeading) : Tree Node :=
  node (.procedureHeading h)
    (leaf (.identDef h.name) :: h.parameters.toList.map FormalParameters.tree)

mutual

def Declarations.trees : Declarations → List (Tree Node)
  | ⟨constants, types, vars, procedures⟩ =>
    constants.map ConstDeclaration.tree ++ types.map TypeDeclaration.tree ++
      variableDeclarationListTree vars :: ProcedureDeclaration.trees procedures

def ProcedureDeclaration.tree : ProcedureDeclaration → Tree Node
  | ⟨heading, declarations, result, endName⟩ =>
    node (.procedureDeclaration ⟨heading, declarations, result, endName⟩)
      (heading.tree :: declarations.trees ++ result.toList.map Expression.tree ++
        [leaf (.identifier endName)])

def ProcedureDeclaration.trees : List ProcedureDeclaration → List (Tree Node)
  | [] => []
  | procedure :: procedures => procedure.tree :: ProcedureDeclaration.trees procedures

end

def Module.tree (m : Module) : Tree Node :=
  node (.module m)
    (leaf (.identifier m.name) :: m.imports.toList.map identifierListTree ++
      m.declarations.trees ++ [leaf (.identifier m.endName)])

/-! ## All nodes -/

def Node.tree : Node → Tree Node
  | root m => Tree.node (.root m) [m.tree]
  | module m => m.tree
  | identifier name => leaf (.identifier name)
  | identDef name => leaf (.identDef name)
  | qualident q => leaf (.qualident q)
  | number n => n.tree
  | integer value => leaf (.integer value)
  | real value => leaf (.real value)
  | string content => leaf (.string content)
  | constDeclaration d => d.tree
  | constExpression e => constExpressionTree e
  | typeDeclaration d => d.tree
  | variableDeclaration d => d.tree
  | variableDeclarationList ds => variableDeclarationListTree ds
  | procedureDeclaration p => p.tree
  | procedureHeading h => h.tree
  | type t => t.tree
  | typeForm t => t.formTree
  | baseType q => baseTypeTree q
  | fieldList fields => fields.tree
  | fieldListSequence fields => fieldListSequenceTree fields
  | identDefList names => identDefListTree names
  | length e => lengthTree e
  | lengthList lengths => lengthListTree lengths
  | expression e => e.tree
  | simpleExpression e => e.simpleTree
  | singleTerm s t => singleTermTree s t
  | termOperation operation => operation.tree
  | term t => t.tree
  | factor f => f.tree
  | addOperator operator => leaf (.addOperator operator)
  | factorOperation operation => operation.tree
  | sign s => leaf (.sign s)
  | formalParameters p => p.tree
  | formalType t => t.tree
  | parameterSection s => s.tree
  | parameterSectionList sections => parameterSectionListTree sections
  | identifierList names => identifierListTree names

def Node.kinds (n : Node) : List NodeKind :=
  n.tree.preorder.map Node.kind

end Oberon
