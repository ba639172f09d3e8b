import Oberon.Check.Problem
import Oberon.Constant.Machine
import Oberon.Symbol

/-!
# What is declared at a point of a module

An environment holds the symbols, the known constants and the imported modules at a point of a
module, and the bodies around that point.  Names are resolved in it and declarations extend it.
-/

namespace Oberon

structure Environment where
  symbols : SymbolTable
  constants : Constants
  imports : List String
  /-- The enclosing module and procedures, innermost first. -/
  path : List String

/-- What a name should denote where it stands. -/
inductive Role where
  | type
  | value
  | constant
deriving DecidableEq, Repr

/-- What a name turns out to denote where it stands. -/
inductive Resolution where
  /-- What it should denote. -/
  | known
  /-- A constant whose value is unknown for a reason that was given at its declaration. -/
  | unknownValue
  /-- Something that breaks a rule. -/
  | broken (problem : Problem)
deriving DecidableEq

def Resolution.problem? : Resolution → Option Problem
  | broken problem => some problem
  | _ => none

namespace Environment

def initial : Environment :=
  ⟨.predeclared, .empty, [], []⟩

/-- The scope level of the declarations of a module; level zero holds the predeclared names. -/
def moduleLevel : Nat := 1

def report (env : Environment) (problems : List Problem) : List Finding :=
  problems.map fun problem => ⟨problem, env.path⟩

/-! ## Resolving names -/

def hasValue (env : Environment) (name : String) : Bool :=
  (env.constants.lookup name).isSome || (Predeclared.boolean? name).isSome

def resolveSymbol (env : Environment) (role : Role) (name : String) (kind : SymbolKind) :
    Resolution :=
  match role, kind with
  | .type, .type => .known
  | .type, kind => .broken (.notType kind name)
  | _, .type => .broken (.typeAsValue name)
  | _, .module => .broken (.moduleAsValue name)
  -- a constant without a value was reported where it is declared
  | .constant, .constant => if env.hasValue name then .known else .unknownValue
  | .constant, kind => .broken (.notConstant kind name)
  | .value, _ => .known

/-- Resolves a reference.  Of an imported module only the name is known. -/
def resolve (env : Environment) (role : Role) (q : Qualident) : Resolution :=
  match q.qualifier with
  | some qualifier =>
    if qualifier ∉ env.imports then .broken (.notImported q qualifier)
    else if role = .constant then .broken (.unknownImported q)
    else .known
  | none =>
    match env.symbols.find? q.name with
    | some symbol => env.resolveSymbol role q.name symbol.kind
    | none => .broken (.undeclared q.name)

def referenceProblems (env : Environment) (role : Role) (names : List Qualident) : List Problem :=
  names.filterMap fun q => (env.resolve role q).problem?

/-! ## Declaring names -/

/-- The problem of an export mark, if the innermost scope is not that of a module. -/
def exportProblems (env : Environment) (name : String) (exported : Bool) : List Problem :=
  if exported && env.symbols.level ≠ moduleLevel then [.exportMark name] else []

/-- Declares a name.  `binding` is what becomes of constants of that name: it is bound to a value,
bound to none, or left alone.  A name that cannot be declared changes nothing. -/
def declare (env : Environment) (name : String) (symbol : Symbol)
    (binding : Option (Option Value)) :
    Environment × List Finding :=
  let exportProblems := env.exportProblems name symbol.exported
  match env.symbols.insert name symbol with
  | .ok symbols =>
    let constants :=
      match binding with
      | some value => env.constants.bind name value
      | none => env.constants
    ({ env with symbols, constants }, env.report exportProblems)
  | .error (.alreadyDefined name) =>
    (env, env.report (exportProblems ++ [.alreadyDeclared name]))
  | .error error => (env, env.report (exportProblems ++ [.invalidName error]))

def declareConstant (env : Environment) (name : IdentDef) (value : Option Value) :
    Environment × List Finding :=
  env.declare name.name ⟨.constant, name.exported⟩ (some value)

def declareOther (env : Environment) (kind : SymbolKind) (name : IdentDef) :
    Environment × List Finding :=
  env.declare name.name ⟨kind, name.exported⟩ (some none)

/-- Declares a parameter.  The procedure that it belongs to hides constants of its name; the
parameters of a procedure type are out of reach of constant expressions. -/
def declareParameter (env : Environment) (name : String) : Environment × List Finding :=
  env.declare name ⟨.parameter, false⟩ none

def declareImport (env : Environment) (name : String) : Environment × List Finding :=
  let (env, findings) := env.declare name ⟨.module, false⟩ (some none)
  ({ env with imports := name :: env.imports }, findings)

def sequence {α : Type} (check : Environment → α → Environment × List Finding) (env : Environment) :
    List α → Environment × List Finding
  | [] => (env, [])
  | item :: items =>
    let (env, first) := check env item
    let (env, others) := sequence check env items
    (env, first ++ others)

/-! ## Bodies -/

def enterModule (env : Environment) (name : String) : Environment :=
  { env with symbols := env.symbols.push, path := name :: env.path }

def enterProcedure (env : Environment) (name : String) (parameters : List String) : Environment :=
  { env with
    symbols := env.symbols.push
    constants := Constants.hideAll env.constants.push parameters
    path := name :: env.path }

def enterProcedureType (env : Environment) : Environment :=
  { env with symbols := env.symbols.push }

end Environment

end Oberon
