import Oberon.Check.Declarations
import Oberon.Syntax.Node

/-!
# Checking single nodes

A node of any kind can be checked by itself, in the environment that the nodes before it leave.
Names in expressions are then references to values; only a declaration or an array length makes
them constants.
-/

namespace Oberon

/-- The names in a node that is a part of an expression; other nodes have none. -/
def Node.names : Node → List Qualident
  | qualident q => [q]
  | constExpression e => e.names
  | expression e => e.names
  | simpleExpression e => e.names
  | singleTerm _ t => t.names
  | termOperation operation => operation.names
  | term t => t.names
  | factor f => f.names
  | factorOperation operation => operation.names
  | _ => []

namespace Environment

def checkNode (env : Environment) : Node → Environment × List Finding
  | .root m => env.checkModule m
  | .module m => env.checkModule m
  | .constDeclaration d => env.checkConstant d
  | .typeDeclaration d => env.checkType false d
  | .variableDeclaration d => env.checkVariable d
  | .variableDeclarationList ds => sequence checkVariable env ds
  | .procedureDeclaration p => checkProcedure p env
  | .procedureHeading h => env.checkHeading h
  | .formalParameters p => env.checkParameters p
  | .parameterSectionList sections => sequence checkParameterSection env sections
  | .parameterSection s => env.checkParameterSection s
  | .identifierList names => sequence declareImport env names
  | .formalType t => (env, env.report (env.referenceProblems .type [t.name]))
  | .type t => (env, t.check env false)
  | .typeForm t => (env, t.check env false)
  | .baseType q => (env, env.report (env.referenceProblems .type [q]))
  | .fieldList fields => (env, fields.check env false)
  | .fieldListSequence fields =>
    (env, env.report (fieldNameProblems fields) ++ FieldList.checkAll env false fields)
  | .length e => (env, env.report (env.lengthProblems e))
  | .lengthList lengths => (env, env.report (lengths.flatMap env.lengthProblems))
  | n => (env, env.report (env.referenceProblems .value n.names))

def checkNodes (nodes : List Node) : List Finding :=
  (sequence checkNode initial nodes).2

end Environment

end Oberon
