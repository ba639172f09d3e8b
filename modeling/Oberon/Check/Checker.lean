import Oberon.Check.Node

/-!
# Checking with a running state

A checker visits nodes one after the other and keeps a single state between them.  It enters and
leaves scopes, takes note of what names should denote and of what is being declared, and postpones
the targets of pointers; each visit has to put back what it changed for the time of the visit.
Problems become remarks and never stop it: the only thing that could is to leave a scope that was
not entered.
-/

namespace Oberon

/-- What a checker does that can be seen from outside. -/
inductive Event where
  /-- It enters the body of a module or procedure. -/
  | enter (name : String)
  /-- It leaves the innermost body. -/
  | leave
  /-- It makes a remark. -/
  | remark (diagnostic : Diagnostic)

namespace Event

def remark? : Event → Option Diagnostic
  | remark diagnostic => some diagnostic
  | _ => none

def bodies (before : List String) : Event → List String
  | enter name => name :: before
  | leave => before.tail
  | remark _ => before

end Event

def remarks (events : List Event) : List Diagnostic :=
  events.filterMap Event.remark?

def openBodies (before : List String) (events : List Event) : List String :=
  events.foldl Event.bodies before

structure Checker where
  symbols : SymbolTable
  /-- The constants in scope; its other parts only serve the evaluation. -/
  evaluator : Evaluator
  imports : List String
  /-- The enclosing module and procedures, innermost first. -/
  path : List String
  /-- What names should denote. -/
  role : Role
  /-- What defining names stand for, where they are declared as they are visited. -/
  declaring : Option SymbolKind
  /-- Has a name been met since the flag was cleared that denotes no known value? -/
  tainted : Bool
  /-- In a type section, the targets of pointers that were not declared at their place. -/
  forwardPointers : Option (List Qualident)
  log : List Event

abbrev Visit :=
  Checker → Except SymbolError Checker

namespace Checker

def initial : Checker :=
  ⟨.predeclared, .initial, [], [], .value, none, false, none, []⟩

def diagnostics (c : Checker) : List Diagnostic :=
  remarks c.log

def environment (c : Checker) : Environment :=
  ⟨c.symbols, c.evaluator.constants, c.imports, c.path⟩

def report (c : Checker) (problem : Problem) : Checker :=
  { c with log := c.log ++ [.remark (Finding.diagnostic ⟨problem, c.path⟩)] }

def reportAll (c : Checker) (problems : List Problem) : Checker :=
  problems.foldl report c

/-! ## For the time of a visit -/

def each {α : Type} (visit : α → Visit) (items : List α) : Visit := fun c =>
  items.foldlM (fun c item => visit item c) c

def within (role : Role) (visit : Visit) : Visit := fun c => do
  let after ← visit { c with role }
  return { after with role := c.role }

def declaringAs (kind : SymbolKind) (visit : Visit) : Visit := fun c => do
  let after ← visit { c with declaring := some kind }
  return { after with declaring := c.declaring }

def dropScope : Visit := fun c => do
  let symbols ← c.symbols.drop
  return { c with symbols }

def inScope (visit : Visit) : Visit := fun c => do
  let c ← visit { c with symbols := c.symbols.push }
  dropScope c

def enter (c : Checker) (name : String) : Checker :=
  { c with symbols := c.symbols.push, path := name :: c.path, log := c.log ++ [.enter name] }

def leave : Visit := fun c => do
  let c ← dropScope c
  return { c with path := c.path.tail, log := c.log ++ [.leave] }

def inBody (name : String) (visit : Visit) : Visit := fun c => do
  let c ← visit (c.enter name)
  leave c

/-- A visit in a scope of constants of its own, in which the parameters of a procedure hide
constants. -/
def inProcedure (name : String) (parameters : List String) (visit : Visit) : Visit := fun c => do
  let c ← visit { c with evaluator := (c.evaluator.enter name).hideAll parameters }
  return { c with evaluator := c.evaluator.leave }

/-! ## Names -/

def resolve (c : Checker) (q : Qualident) : Checker :=
  match c.environment.resolve c.role q with
  | .known => c
  | .unknownValue => { c with tainted := true }
  | .broken problem => { c.report problem with tainted := true }

def references (names : List Qualident) : Visit := fun c =>
  .ok (names.foldl resolve c)

/-- Does a declaration hide constants of its name?  A constant replaces them; parameters are
hidden by the procedure that they belong to, and those of a procedure type are out of reach. -/
def hidesConstants : SymbolKind → Bool
  | .constant | .parameter => false
  | _ => true

def declare (c : Checker) (name : String) (symbol : Symbol) : Checker × Bool :=
  let c := c.reportAll (c.environment.exportProblems name symbol.exported)
  match c.symbols.insert name symbol with
  | .ok symbols =>
    let evaluator := if hidesConstants symbol.kind then c.evaluator.hide name else c.evaluator
    ({ c with symbols, evaluator }, true)
  | .error (.alreadyDefined name) => (c.report (.alreadyDeclared name), false)
  | .error error => (c.report (.invalidName error), false)

/-- Visits a defining name: it is declared if the construct around it declares names as they are
visited. -/
def definingName (name : IdentDef) : Visit := fun c =>
  match c.declaring with
  | some kind => .ok (c.declare name.name ⟨kind, name.exported⟩).1
  | none => .ok c

def imported (name : String) : Visit := fun c =>
  let c := (c.declare name ⟨.module, false⟩).1
  .ok { c with imports := name :: c.imports }

/-! ## Constant expressions -/

/-- The value of a constant expression.  It is not evaluated if one of its names denotes no known
value. -/
def constantValue (e : Expression) (c : Checker) : Except SymbolError (Checker × Option Value) := do
  let c ← within .constant (references e.names) { c with tainted := false }
  if c.tainted then
    return (c, none)
  else
    match c.evaluator.evaluate e with
    | (.ok value, evaluator) => return ({ c with evaluator }, some value)
    | (.error error, evaluator) =>
      return ({ c with evaluator }.report (.invalidConstant error), none)

def declareConstant (c : Checker) (name : IdentDef) (value : Option Value) : Checker :=
  match c.declare name.name ⟨.constant, name.exported⟩, value with
  | (c, true), some value => { c with evaluator := c.evaluator.define name.name value }
  | (c, true), none => { c with evaluator := c.evaluator.hide name.name }
  | (c, false), _ => c

def constant (d : ConstDeclaration) : Visit := fun c => do
  let (c, value) ← constantValue d.value c
  return c.declareConstant d.name value

def checkLength (c : Checker) : Option Value → Checker
  | none => c
  | some (.integer n) => if 0 < n.toInt then c else c.report (.invalidLength (.integer n))
  | some value => c.report (.invalidLength value)

def length (e : Expression) : Visit := fun c => do
  let (c, value) ← constantValue e c
  return c.checkLength value

/-! ## Parameters -/

def parameter (name : String) : Visit := fun c =>
  .ok (c.declare name ⟨.parameter, false⟩).1

def parameterSection (s : ParameterSection) : Visit := fun c => do
  let c ← each parameter s.names c
  within .type (references [s.type.name]) c

def parameters (p : FormalParameters) : Visit := fun c => do
  let c ← each parameterSection p.sections c
  within .type (references p.result.toList) c

def optionalParameters (p : Option FormalParameters) : Visit :=
  each parameters p.toList

/-! ## Types -/

/-- Visits a pointer target that is a name.  In a type section it is postponed if it may be
declared later. -/
def namedTarget (q : Qualident) : Visit := fun c =>
  match c.forwardPointers with
  | some pending =>
    if c.environment.isForward q then .ok { c with forwardPointers := some (pending ++ [q]) }
    else within .type (references [q]) c
  | none => within .type (references [q]) c

mutual

def type : TypeExpr → Visit
  | .named q => within .type (references [q])
  | .array lengths element => fun c => do
    let c ← each length lengths c
    within .type (type element) c
  | .record base fields => fun c => do
    let c ← within .type (references base.toList) c
    fieldLists fields (c.reportAll (fieldNameProblems fields))
  | .pointer (.named q) => namedTarget q
  | .pointer target => within .type (type target)
  | .procedure p => inScope (optionalParameters p)

def fieldList : FieldList → Visit
  | ⟨_, fieldType⟩ => within .type (type fieldType)

def fieldLists : List FieldList → Visit
  | [] => fun c => .ok c
  | fields :: others => fun c => do
    let c ← fieldList fields c
    fieldLists others c

end

def typeDeclaration (d : TypeDeclaration) : Visit := fun c => do
  let c ← within .type (type d.type) c
  return (c.declare d.name.name ⟨.type, d.name.exported⟩).1

/-- Visits a type section; at its end the postponed targets are resolved. -/
def typeSection (ds : List TypeDeclaration) : Visit := fun c => do
  let after ← each typeDeclaration ds { c with forwardPointers := some [] }
  let pending := after.forwardPointers.getD []
  within .type (references pending) { after with forwardPointers := c.forwardPointers }

def variableDeclaration (d : VariableDeclaration) : Visit := fun c => do
  let c ← declaringAs .variable (each definingName d.names) c
  within .type (type d.type) c

/-! ## Bodies -/

def closingName (c : Checker) (body : Body) (name endName : String) : Checker :=
  c.reportAll (Environment.endNameProblems body name endName)

def result (heading : ProcedureHeading) (value : Option Expression) : Visit := fun c =>
  let hasResult := heading.parameters.any fun parameters => parameters.result.isSome
  match value with
  | some value =>
    let c := if hasResult then c else c.report (.unexpectedReturn heading.name.name)
    within .value (references value.names) c
  | none => .ok (if hasResult then c.report (.missingReturn heading.name.name) else c)

mutual

def declarations : Declarations → Visit
  | ⟨constants, types, vars, procs⟩ => fun c => do
    let c ← each constant constants c
    let c ← typeSection types c
    let c ← each variableDeclaration vars c
    procedures procs c

def procedure : ProcedureDeclaration → Visit
  | ⟨heading, decls, value, endName⟩ => fun c =>
    let name := heading.name.name
    let c := (c.declare name ⟨.procedure, heading.name.exported⟩).1
    let inside : Visit := fun c => do
      let c ← optionalParameters heading.parameters c
      let c ← declarations decls c
      let c ← result heading value c
      return c.closingName .procedure name endName
    inBody name (inProcedure name heading.parameterNames inside) c

def procedures : List ProcedureDeclaration → Visit
  | [] => fun c => .ok c
  | p :: ps => fun c => do
    let c ← procedure p c
    procedures ps c

end

def module (m : Module) : Visit :=
  inBody m.name fun c => do
    let c ← each imported (m.imports.getD []) c
    let c ← declarations m.declarations c
    return c.closingName .module m.name m.endName

def accept : Node → Visit
  | .root m => module m
  | .module m => module m
  | .identDef name => definingName name
  | .identDefList names => each definingName names
  | .constDeclaration d => constant d
  | .typeDeclaration d => typeDeclaration d
  | .variableDeclaration d => variableDeclaration d
  | .variableDeclarationList ds => each variableDeclaration ds
  | .procedureDeclaration p => procedure p
  | .procedureHeading h => optionalParameters h.parameters
  | .formalParameters p => parameters p
  | .parameterSectionList sections => each parameterSection sections
  | .parameterSection s => parameterSection s
  | .identifierList names => each imported names
  | .formalType t => within .type (references [t.name])
  | .type t => type t
  | .typeForm t => type t
  | .baseType q => within .type (references [q])
  | .fieldList fields => fieldList fields
  | .fieldListSequence fields => fun c => fieldLists fields (c.reportAll (fieldNameProblems fields))
  | .length e => length e
  | .lengthList lengths => each length lengths
  -- of all other nodes only the names in them matter
  | n => references n.names

def acceptAll (nodes : List Node) : Visit :=
  each accept nodes

end Checker

end Oberon
