import Oberon.Constant.Machine

/-!
# Evaluating the constants of a module

The constants of a module are evaluated in the order of their declarations: those of a body, then
those of its procedures.  A constant is recorded under the names of the procedures around it and
its own name, joined by points.  Types, variables, procedures and parameters hide constants of
outer scopes.
-/

namespace Oberon

structure Evaluator where
  /-- The values that expressions are working on. -/
  stack : List Value
  /-- The constants in scope, one scope for the module and one for each enclosing procedure. -/
  constants : Constants
  /-- The enclosing procedures, innermost first. -/
  path : List String
  /-- The constants evaluated so far, in order. -/
  values : List (String × Value)

namespace Evaluator

def initial : Evaluator :=
  ⟨[], .empty, [], []⟩

def enter (ev : Evaluator) (name : String) : Evaluator :=
  { ev with constants := ev.constants.push, path := name :: ev.path }

/-- Leaves the scope of a procedure; the scope of the module is never left. -/
def leave (ev : Evaluator) : Evaluator :=
  match ev.constants.pop? with
  | some constants => { ev with constants, path := ev.path.tail }
  | none => ev

def define (ev : Evaluator) (name : String) (value : Value) : Evaluator :=
  { ev with constants := ev.constants.define name value }

def hide (ev : Evaluator) (name : String) : Evaluator :=
  { ev with constants := ev.constants.hide name }

def hideAll (ev : Evaluator) (names : List String) : Evaluator :=
  { ev with constants := ev.constants.hideAll names }

def lookup (ev : Evaluator) (name : String) : Option Value :=
  ev.constants.lookup name

def valueOf (ev : Evaluator) (key : String) : Option Value :=
  ev.values.lookup key

def key (ev : Evaluator) (name : String) : String :=
  ".".intercalate (ev.path.reverse ++ [name])

def record (ev : Evaluator) (name : String) (value : Value) : Evaluator :=
  { ev with values := ev.values ++ [(ev.key name, value)] }

def evaluate (ev : Evaluator) (e : Expression) : Result × Evaluator :=
  (ev.constants.evaluate e, { ev with stack := [] })

def constant (ev : Evaluator) (d : ConstDeclaration) : Work Evaluator Evaluator :=
  match ev.evaluate d.value with
  | (.ok value, ev) => .ok ((ev.define d.name.name value).record d.name.name value)
  | (.error error, ev) => .error (error, ev)

end Evaluator

def parameterNames (sections : List ParameterSection) : List String :=
  sections.flatMap ParameterSection.names

def ProcedureHeading.parameterNames (h : ProcedureHeading) : List String :=
  h.parameters.toList.flatMap fun parameters => Oberon.parameterNames parameters.sections

def VariableDeclaration.variableNames (d : VariableDeclaration) : List String :=
  d.names.map IdentDef.name

namespace Evaluator

/-- Enters a procedure whose name has been declared outside: its parameters hide constants. -/
def enterProcedure (ev : Evaluator) (heading : ProcedureHeading) : Evaluator :=
  ((ev.hide heading.name.name).enter heading.name.name).hideAll heading.parameterNames

/-- Leaves a procedure, also when an error stops the evaluation inside it. -/
def leaveProcedure : Work Evaluator Evaluator → Work Evaluator Evaluator
  | .ok ev => .ok ev.leave
  | .error (error, ev) => .error (error, ev.leave)

mutual

def declarations : Declarations → Evaluator → Work Evaluator Evaluator
  | ⟨constants, types, vars, procs⟩, ev => do
    let ev ← constants.foldlM constant ev
    let ev := ev.hideAll (types.map fun d => d.name.name)
    let ev := ev.hideAll (vars.flatMap VariableDeclaration.variableNames)
    procedures procs ev

def procedure : ProcedureDeclaration → Evaluator → Work Evaluator Evaluator
  | ⟨heading, decls, _, _⟩, ev => leaveProcedure (declarations decls (ev.enterProcedure heading))

def procedures : List ProcedureDeclaration → Evaluator → Work Evaluator Evaluator
  | [], ev => .ok ev
  | p :: ps, ev => do
    let ev ← procedure p ev
    procedures ps ev

end

def execute (ev : Evaluator) (code : List Instruction) : Work Evaluator Evaluator :=
  match Machine.run ev.constants code ev.stack with
  | .ok stack => .ok { ev with stack }
  | .error (error, stack) => .error (error, { ev with stack })

/-- Evaluates a node.  Declarations evaluate and hide constants, parts of expressions work on the
stack, and other nodes do nothing. -/
def evaluateNode (ev : Evaluator) : Node → Work Evaluator Evaluator
  | .root m => declarations m.declarations ev
  | .module m => declarations m.declarations ev
  | .constDeclaration d => ev.constant d
  | .typeDeclaration d => .ok (ev.hide d.name.name)
  | .variableDeclaration d => .ok (ev.hideAll d.variableNames)
  | .variableDeclarationList ds =>
    .ok (ev.hideAll (ds.flatMap VariableDeclaration.variableNames))
  | .procedureDeclaration p => procedure p ev
  | n => ev.execute n.code

/-- Evaluates a module: the error, if any, and the constants recorded until then. -/
def evaluateModule (m : Module) : Option EvalError × List (String × Value) :=
  match initial.evaluateNode (.root m) with
  | .ok ev => (none, ev.values)
  | .error (error, ev) => (some error, ev.values)

end Evaluator

end Oberon
