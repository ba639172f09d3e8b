import Oberon.Check.Declarations

/-!
# What declarations leave alone

A part of the environment that no single declaration changes is the same after any number of them,
in whatever construct they stand.
-/

namespace Oberon.Environment

variable {α β : Type} {view : Environment → β}

/-- The check leaves a part of the environment as it is. -/
def Keeps (view : Environment → β) (check : Environment → α → Environment × List Finding) : Prop :=
  ∀ env x, view (check env x).1 = view env

/-- A sequence keeps what each of its items keeps. -/
theorem Keeps.sequence {check : Environment → α → Environment × List Finding}
    (h : Keeps view check) :
    Keeps view (sequence check) := by
  intro env xs
  induction xs generalizing env with
  | nil => rfl
  | cons x xs ih => exact (ih _).trans (h env x)

/-! ## Parameters -/

/-- Parameters keep what a single one keeps. -/
theorem Keeps.parameters (h : Keeps view declareParameter) : Keeps view checkParameters := by
  have hsection : Keeps view checkParameterSection := fun env s => h.sequence env s.names
  exact fun env p => hsection.sequence env p.sections

theorem Keeps.heading (h : Keeps view declareParameter) : Keeps view checkHeading :=
  fun env heading => h.parameters.sequence env heading.parameters.toList

/-- Parameters leave constants and imports alone. -/
theorem keeps_declareParameter :
    Keeps (fun env => (env.constants, env.imports)) declareParameter := by
  intro env name
  unfold declareParameter declare
  dsimp only
  split <;> rfl

/-! ## Declarations -/

section Declarations

variable (hdeclare : ∀ env name symbol binding, view (declare env name symbol binding).1 = view env)
include hdeclare

theorem keeps_checkConstant : Keeps view checkConstant :=
  fun env d => hdeclare env d.name.name ⟨.constant, d.name.exported⟩
    (some (env.constantValue d.value).2)

theorem keeps_declareOther (kind : SymbolKind) : Keeps view fun env d => env.declareOther kind d :=
  fun env d => hdeclare env d.name _ _

/-- A type section keeps what declaring a name keeps. -/
theorem keeps_checkTypeSection : Keeps view checkTypeSection := by
  intro env ds
  show view (env.checkTypes ds).1 = view env
  induction ds generalizing env with
  | nil => rfl
  | cons d ds ih => exact (ih _).trans (keeps_declareOther hdeclare .type env d.name)

theorem keeps_checkVariable : Keeps view checkVariable :=
  fun env d => (keeps_declareOther hdeclare .variable).sequence env d.names

theorem keeps_checkProcedures (ps : List ProcedureDeclaration) (env : Environment) :
    view (checkProcedures ps env).1 = view env := by
  induction ps generalizing env with
  | nil => rw [checkProcedures]
  | cons p ps ih =>
    obtain ⟨heading, declarations, result, endName⟩ := p
    rw [checkProcedures]
    refine (ih _).trans ?_
    rw [checkProcedure]
    exact keeps_declareOther hdeclare .procedure env heading.name

/-- Declarations keep what declaring a name keeps, at any depth. -/
theorem keeps_checkDeclarations (d : Declarations) (env : Environment) :
    view (checkDeclarations d env).1 = view env := by
  obtain ⟨constants, types, vars, procedures⟩ := d
  rw [checkDeclarations]
  calc view (checkProcedures procedures _).1
      _ = view (sequence checkVariable _ vars).1 := keeps_checkProcedures hdeclare procedures _
      _ = view (checkTypeSection _ types).1 := (keeps_checkVariable hdeclare).sequence _ vars
      _ = view (sequence checkConstant env constants).1 := keeps_checkTypeSection hdeclare _ types
      _ = view env := (keeps_checkConstant hdeclare).sequence env constants

end Declarations

/-- Declaring a name does not move the path. -/
theorem path_declare (env : Environment) (name : String) (symbol : Symbol)
    (binding : Option (Option Value)) : (env.declare name symbol binding).1.path = env.path := by
  unfold declare
  dsimp only
  split <;> rfl

theorem imports_declare (env : Environment) (name : String) (symbol : Symbol)
    (binding : Option (Option Value)) :
    (env.declare name symbol binding).1.imports = env.imports := by
  unfold declare
  dsimp only
  split <;> rfl

end Oberon.Environment
