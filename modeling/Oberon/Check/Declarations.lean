import Oberon.Check.Environment
import Oberon.Constant.Evaluator

/-!
# Checking declarations

Every declaration is checked in the environment that the ones before it leave, and every problem
is reported.  Constant expressions are evaluated on the way; one whose names already gave rise to
a report is not evaluated, so that a mistake is reported once.
-/

namespace Oberon

/-! ## Names in expressions -/

mutual

def Expression.names : Expression → List Qualident
  | ⟨_, first, operations⟩ => first.names ++ TermOperation.allNames operations

def TermOperation.names : TermOperation → List Qualident
  | ⟨_, right⟩ => right.names

def TermOperation.allNames : List TermOperation → List Qualident
  | [] => []
  | operation :: operations => operation.names ++ TermOperation.allNames operations

def Term.names : Term → List Qualident
  | ⟨first, operations⟩ => first.names ++ FactorOperation.allNames operations

def FactorOperation.names : FactorOperation → List Qualident
  | ⟨_, right⟩ => right.names

def FactorOperation.allNames : List FactorOperation → List Qualident
  | [] => []
  | operation :: operations => operation.names ++ FactorOperation.allNames operations

def Factor.names : Factor → List Qualident
  | .number _ => []
  | .string _ => []
  | .name q => [q]
  | .parenthesized e => e.names

end

theorem TermOperation.allNames_eq_flatMap (operations : List TermOperation) :
    TermOperation.allNames operations = operations.flatMap TermOperation.names := by
  induction operations with
  | nil => rfl
  | cons operation operations ih => rw [TermOperation.allNames, ih, List.flatMap_cons]

theorem FactorOperation.allNames_eq_flatMap (operations : List FactorOperation) :
    FactorOperation.allNames operations = operations.flatMap FactorOperation.names := by
  induction operations with
  | nil => rfl
  | cons operation operations ih => rw [FactorOperation.allNames, ih, List.flatMap_cons]

namespace Environment

/-! ## Constant expressions -/

def constantValue (env : Environment) (e : Expression) : List Problem × Option Value :=
  if e.names.all fun q => env.resolve .constant q = .known then
    match env.constants.evaluate e with
    | .ok value => ([], some value)
    | .error error => ([.invalidConstant error], none)
  else (env.referenceProblems .constant e.names, none)

def lengthProblems (env : Environment) (e : Expression) : List Problem :=
  let (problems, value) := env.constantValue e
  problems ++
    match value with
    | none => []
    | some (.integer n) => if 0 < n.toInt then [] else [.invalidLength (.integer n)]
    | some value => [.invalidLength value]

/-- Checks a constant declaration.  The name is not in scope inside its own value. -/
def checkConstant (env : Environment) (d : ConstDeclaration) : Environment × List Finding :=
  let (problems, value) := env.constantValue d.value
  let (after, findings) := env.declareConstant d.name value
  (after, env.report problems ++ findings)

/-! ## Parameters -/

/-- Checks a parameter section: its names are declared before its type is resolved. -/
def checkParameterSection (env : Environment) (s : ParameterSection) : Environment × List Finding :=
  let (env, findings) := sequence declareParameter env s.names
  (env, findings ++ env.report (env.referenceProblems .type [s.type.name]))

def checkParameters (env : Environment) (p : FormalParameters) : Environment × List Finding :=
  let (env, findings) := sequence checkParameterSection env p.sections
  (env, findings ++ env.report (env.referenceProblems .type p.result.toList))

def checkHeading (env : Environment) (h : ProcedureHeading) : Environment × List Finding :=
  sequence checkParameters env h.parameters.toList

/-! ## Types -/

/-- May the target of a pointer be declared later?  An unqualified name that is not declared yet
may. -/
def isForward (env : Environment) (q : Qualident) : Bool :=
  !q.isQualified && (env.symbols.find? q.name).isNone

end Environment

/-- The names that occur again behind their first occurrence, one entry for each repetition. -/
def repetitions (seen : List String) : List String → List String
  | [] => []
  | name :: names =>
    if name ∈ seen then name :: repetitions seen names else repetitions (name :: seen) names

def fieldNameProblems (fields : List FieldList) : List Problem :=
  (repetitions [] (fields.flatMap fun f => f.names.map IdentDef.name)).map .repeatedField

mutual

/-- The findings in a type.  While `forward` is set, a pointer may refer to a type that is not
declared yet; such targets are left out here. -/
def TypeExpr.check (env : Environment) (forward : Bool) : TypeExpr → List Finding
  | .named q => env.report (env.referenceProblems .type [q])
  | .array lengths element =>
    env.report (lengths.flatMap env.lengthProblems) ++ element.check env forward
  | .record base fields =>
    env.report (env.referenceProblems .type base.toList) ++ env.report (fieldNameProblems fields) ++
      FieldList.checkAll env forward fields
  | .pointer (.named q) =>
    if forward && env.isForward q then [] else env.report (env.referenceProblems .type [q])
  | .pointer target => target.check env forward
  | .procedure parameters =>
    (Environment.sequence Environment.checkParameters env.enterProcedureType parameters.toList).2

def FieldList.check (env : Environment) (forward : Bool) : FieldList → List Finding
  | ⟨_, type⟩ => type.check env forward

def FieldList.checkAll (env : Environment) (forward : Bool) : List FieldList → List Finding
  | [] => []
  | fields :: others => fields.check env forward ++ FieldList.checkAll env forward others

end

mutual

def TypeExpr.forwardTargets (env : Environment) : TypeExpr → List Qualident
  | .named _ => []
  | .array _ element => element.forwardTargets env
  | .record _ fields => FieldList.allForwardTargets env fields
  | .pointer (.named q) => if env.isForward q then [q] else []
  | .pointer target => target.forwardTargets env
  | .procedure _ => []

def FieldList.forwardTargets (env : Environment) : FieldList → List Qualident
  | ⟨_, type⟩ => type.forwardTargets env

def FieldList.allForwardTargets (env : Environment) : List FieldList → List Qualident
  | [] => []
  | fields :: others => fields.forwardTargets env ++ FieldList.allForwardTargets env others

end

namespace Environment

def checkType (forward : Bool) (env : Environment) (d : TypeDeclaration) :
    Environment × List Finding :=
  let (after, findings) := env.declareOther .type d.name
  (after, d.type.check env forward ++ findings)

/-- Checks the type declarations of a section in which pointers may refer forward, and gathers the
targets that were not declared at their place. -/
def checkTypes (env : Environment) :
    List TypeDeclaration → Environment × List Finding × List Qualident
  | [] => (env, [], [])
  | d :: ds =>
    -- the targets are found before the type's own name is declared
    let targets := d.type.forwardTargets env
    let (env, first) := env.checkType true d
    let (env, others, moreTargets) := env.checkTypes ds
    (env, first ++ others, targets ++ moreTargets)

/-- Checks a type section; forward pointer targets are resolved at its end. -/
def checkTypeSection (env : Environment) (ds : List TypeDeclaration) :
    Environment × List Finding :=
  let (env, findings, targets) := env.checkTypes ds
  (env, findings ++ env.report (env.referenceProblems .type targets))

def checkVariable (env : Environment) (d : VariableDeclaration) : Environment × List Finding :=
  let (env, findings) := sequence (·.declareOther .variable) env d.names
  (env, findings ++ d.type.check env false)

/-! ## Bodies -/

def endNameProblems (body : Body) (name endName : String) : List Problem :=
  if endName = name then [] else [.closedBy body name endName]

def resultProblems (env : Environment) (heading : ProcedureHeading) (result : Option Expression) :
    List Problem :=
  let hasResult := heading.parameters.any fun parameters => parameters.result.isSome
  match result with
  | some value =>
    (if hasResult then [] else [.unexpectedReturn heading.name.name]) ++
      env.referenceProblems .value value.names
  | none => if hasResult then [.missingReturn heading.name.name] else []

mutual

def checkDeclarations : Declarations → Environment → Environment × List Finding
  | ⟨constants, types, vars, procedures⟩, env =>
    let (env, constantFindings) := sequence checkConstant env constants
    let (env, typeFindings) := env.checkTypeSection types
    let (env, variableFindings) := sequence checkVariable env vars
    let (env, procedureFindings) := checkProcedures procedures env
    (env, constantFindings ++ typeFindings ++ variableFindings ++ procedureFindings)

def checkProcedure : ProcedureDeclaration → Environment → Environment × List Finding
  | ⟨heading, declarations, result, endName⟩, env =>
    let name := heading.name.name
    let (outer, nameFindings) := env.declareOther .procedure heading.name
    -- the name belongs to the enclosing scope, the parameters to the scope of the body
    let inner := outer.enterProcedure name heading.parameterNames
    let (inner, headingFindings) := inner.checkHeading heading
    let (inner, bodyFindings) := checkDeclarations declarations inner
    let endProblems :=
      inner.resultProblems heading result ++ endNameProblems .procedure name endName
    (outer, nameFindings ++ headingFindings ++ bodyFindings ++ inner.report endProblems)

def checkProcedures : List ProcedureDeclaration → Environment → Environment × List Finding
  | [], env => (env, [])
  | procedure :: procedures, env =>
    let (env, first) := checkProcedure procedure env
    let (env, others) := checkProcedures procedures env
    (env, first ++ others)

end

/-- Checks a module.  Its imports and the values of its constants stay known behind it, its names do
not. -/
def checkModule (env : Environment) (m : Module) : Environment × List Finding :=
  let inner := env.enterModule m.name
  let (inner, importFindings) := sequence declareImport inner (m.imports.getD [])
  let (inner, bodyFindings) := checkDeclarations m.declarations inner
  let endFindings := inner.report (endNameProblems .module m.name m.endName)
  ({ env with constants := inner.constants, imports := inner.imports },
    importFindings ++ bodyFindings ++ endFindings)

end Environment

def Module.findings (m : Module) : List Finding :=
  (Environment.initial.checkModule m).2

def Module.check (m : Module) : List Diagnostic :=
  m.findings.map Finding.diagnostic

end Oberon
