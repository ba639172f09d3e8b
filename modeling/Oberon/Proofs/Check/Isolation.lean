import Oberon.Proofs.Check.Restoration
import Oberon.Proofs.Constant.Frames
import Oberon.Proofs.Constant.Lexical

/-!
# Procedures are isolated from their surroundings

A module is taken apart at one of its procedures, at any depth: what stands around it stays, and
its parameters, body, result and closing name are filled in.  Main statement: however it is
filled, the checker makes the same remarks in front of the procedure and behind it, and the
evaluator records the same constants there.
-/

namespace Oberon

/-! ## Modules with an open procedure -/

/-- All of a procedure but its name and export mark. -/
structure ProcedureDetails where
  parameters : Option FormalParameters
  declarations : Declarations
  result : Option Expression
  endName : String

def ProcedureDetails.procedure (d : ProcedureDetails) (name : IdentDef) : ProcedureDeclaration :=
  ⟨⟨name, d.parameters⟩, d.declarations, d.result, d.endName⟩

/-- What is declared in a body besides one of its procedures. -/
structure Surroundings where
  constants : List ConstDeclaration
  types : List TypeDeclaration
  vars : List VariableDeclaration
  /-- The procedures in front of it. -/
  before : List ProcedureDeclaration
  /-- The procedures behind it. -/
  behind : List ProcedureDeclaration

def Surroundings.fill (around : Surroundings) (p : ProcedureDeclaration) : Declarations :=
  ⟨around.constants, around.types, around.vars, around.before ++ p :: around.behind⟩

inductive OpenDeclarations where
  /-- It is one of the procedures of the body itself. -/
  | here (around : Surroundings)
  /-- It stands inside one of these procedures. -/
  | inside (around : Surroundings) (heading : ProcedureHeading) (body : OpenDeclarations)
    (result : Option Expression) (endName : String)

def OpenDeclarations.fill : OpenDeclarations → ProcedureDeclaration → Declarations
  | here around, p => around.fill p
  | inside around heading body result endName, p =>
    around.fill ⟨heading, body.fill p, result, endName⟩

/-- A module in which all is given but the details of one procedure. -/
structure OpenModule where
  name : String
  imports : Option (List String)
  body : OpenDeclarations
  endName : String
  /-- The name of the procedure, with its export mark. -/
  procedureName : IdentDef

namespace OpenModule

def procedure (g : OpenModule) (d : ProcedureDetails) : ProcedureDeclaration :=
  d.procedure g.procedureName

def fill (g : OpenModule) (d : ProcedureDetails) : Module :=
  ⟨g.name, g.imports, g.body.fill (g.procedure d), g.endName⟩

end OpenModule

/-! ## Runs that go on alike -/

section Repeats

variable {σ ε ω α : Type} {R : σ → σ → Prop} {log : σ → List ω}

/-- A run in two parts succeeds exactly if both parts do. -/
theorem bind_eq_ok_iff {x : Except ε σ} {f : σ → Except ε α} {b : α} :
    x >>= f = .ok b ↔ ∃ a, x = .ok a ∧ f a = .ok b := by
  cases x with
  | ok a => exact ⟨fun h => ⟨a, rfl, h⟩, fun ⟨_, ha, h⟩ => Except.ok.inj ha ▸ h⟩
  | error error => exact ⟨nofun, fun ⟨_, ha, _⟩ => nomatch ha⟩

/-- A run that ends in a state ends in a related one when it starts from a related one, and writes
the same. -/
def Repeats (R : σ → σ → Prop) (log : σ → List ω) (run : σ → Except ε σ) : Prop :=
  ∀ s s' after, R s s' → run s = .ok after →
    ∃ after' written, run s' = .ok after' ∧ R after after' ∧
      log after = log s ++ written ∧ log after' = log s' ++ written

/-- A step that writes nothing. -/
theorem Repeats.silent {f : σ → σ} (hrel : ∀ s s', R s s' → R (f s) (f s'))
    (hlog : ∀ s, log (f s) = log s) :
    Repeats R log (fun s => (.ok (f s) : Except ε σ)) := by
  rintro s s' _ h ⟨⟩
  exact ⟨f s', [], rfl, hrel s s' h, (hlog s).trans (List.append_nil _).symm,
    (hlog s').trans (List.append_nil _).symm⟩

/-- Runs that repeat one after the other repeat together. -/
theorem Repeats.bind {run next : σ → Except ε σ} (h : Repeats R log run)
    (hnext : Repeats R log next) :
    Repeats R log (fun s => run s >>= next) := by
  intro s s' after hrel hafter
  obtain ⟨middle, hmiddle, hend⟩ := bind_eq_ok_iff.mp hafter
  obtain ⟨middle', first, hmiddle', hrel, hfirst, hfirst'⟩ := h s s' middle hrel hmiddle
  obtain ⟨after', second, hend', hrel, hsecond, hsecond'⟩ := hnext middle middle' after hrel hend
  refine ⟨after', first ++ second, bind_eq_ok_iff.mpr ⟨middle', hmiddle', hend'⟩, hrel, ?_, ?_⟩
  · rw [hsecond, hfirst, List.append_assoc]
  · rw [hsecond', hfirst', List.append_assoc]

/-- A loop repeats if each of its rounds does. -/
theorem Repeats.foldlM {step : σ → α → Except ε σ} (h : ∀ x, Repeats R log (step · x))
    (xs : List α) :
    Repeats R log (xs.foldlM step) := by
  induction xs with
  | nil => exact Repeats.silent (fun _ _ h => h) fun _ => rfl
  | cons x xs ih => exact (h x).bind ih

end Repeats

/-! ## The checker -/

namespace Checker

def enterProcedure (c : Checker) (heading : ProcedureHeading) : Checker :=
  { c.enter heading.name.name with
    evaluator := (c.evaluator.enter heading.name.name).hideAll heading.parameterNames }

def leaveProcedure : Visit := fun c =>
  leave { c with evaluator := c.evaluator.leave }

def declareProcedure (c : Checker) (name : IdentDef) : Checker :=
  (c.declare name.name ⟨.procedure, name.exported⟩).1

def surroundings (around : Surroundings) : Visit := fun c => do
  let c ← each constant around.constants c
  let c ← typeSection around.types c
  let c ← each variableDeclaration around.vars c
  procedures around.before c

def front : OpenDeclarations → Visit
  | .here around => surroundings around
  | .inside around heading body _ _ => fun c => do
    let c ← surroundings around c
    let c ← optionalParameters heading.parameters
        ((c.declareProcedure heading.name).enterProcedure heading)
    front body c

def back : OpenDeclarations → Visit
  | .here around => procedures around.behind
  | .inside around heading body value endName => fun c => do
    let c ← back body c
    let c ← result heading value c
    let c ← leaveProcedure (c.closingName .procedure heading.name.name endName)
    procedures around.behind c

def moduleFront (g : OpenModule) : Visit := fun c => do
  let c ← each imported (g.imports.getD []) (c.enter g.name)
  front g.body c

def moduleBack (g : OpenModule) : Visit := fun c => do
  let c ← back g.body c
  leave (c.closingName .module g.name g.endName)

/-! ### A visit in three parts -/

/-- Procedures are visited in two parts. -/
theorem procedures_append (ps qs : List ProcedureDeclaration) (c : Checker) :
    procedures (ps ++ qs) c = procedures ps c >>= procedures qs := by
  induction ps generalizing c with
  | nil =>
    rw [List.nil_append, procedures]
    rfl
  | cons p ps ih => simp only [List.cons_append, procedures, ih, bind_assoc]

/-- A body is visited up to the procedure, at the procedure, and behind it. -/
theorem declarations_fill_around (around : Surroundings) (p : ProcedureDeclaration) (c : Checker) :
    declarations (around.fill p) c =
      surroundings around c >>= fun c => procedure p c >>= procedures around.behind := by
  simp only [Surroundings.fill, declarations, surroundings, procedures_append,
    procedures, bind_assoc]

theorem procedure_eq (heading : ProcedureHeading) (decls : Declarations) (value : Option Expression)
    (endName : String) (c : Checker) :
    procedure ⟨heading, decls, value, endName⟩ c =
      optionalParameters heading.parameters
        ((c.declareProcedure heading.name).enterProcedure heading) >>= fun c =>
        declarations decls c >>= fun c => result heading value c >>= fun c =>
          leaveProcedure (c.closingName .procedure heading.name.name endName) := by
  simp only [procedure, inBody, inProcedure, bind_assoc, pure_bind]
  rfl

/-- Declarations with a procedure filled in are visited in three parts. -/
theorem declarations_fill (g : OpenDeclarations) (p : ProcedureDeclaration) (c : Checker) :
    declarations (g.fill p) c = front g c >>= fun c => procedure p c >>= back g := by
  induction g generalizing c with
  | here around => exact declarations_fill_around around p c
  | inside around heading body value endName ih =>
    rw [OpenDeclarations.fill, declarations_fill_around]
    simp only [procedure_eq heading, ih, front, back, bind_assoc]

/-- A filled module is visited in front of the open procedure, at it, and behind it. -/
theorem module_fill (g : OpenModule) (d : ProcedureDetails) (c : Checker) :
    module (g.fill d) c = moduleFront g c >>=
      fun c => procedure (g.procedure d) c >>= moduleBack g := by
  simp only [module, inBody, OpenModule.fill, declarations_fill, moduleFront, bind_assoc, pure_bind]
  rfl

/-! ### Visits see the environment only -/

/-- Two checkers outside of type sections in one environment. -/
structure Agree (c c' : Checker) : Prop where
  environment : c.environment = c'.environment
  left : c.forwardPointers = none
  right : c'.forwardPointers = none

/-- A visit that makes the same remarks in all states with the same environment. -/
abbrev Repeatable (visit : Visit) : Prop :=
  Repeats Agree diagnostics visit

/-- A visit that does what a function of the environment says is repeatable. -/
theorem repeatable_of_visits {visit : Visit} (k : Environment → Environment × List Finding)
    (h : ∀ c : Checker, c.forwardPointers = none →
      Visits visit c (k c.environment).1 (k c.environment).2 []) :
    Repeatable visit := by
  intro c c' after hagree hafter
  obtain ⟨_, hvisit, houtcome⟩ := h c hagree.left
  obtain ⟨after', hvisit', houtcome'⟩ := h c' hagree.right
  obtain rfl := Except.ok.inj (hafter.symm.trans hvisit)
  rw [← hagree.environment] at houtcome'
  refine ⟨after', _, hvisit', ⟨?_, ?_, ?_⟩, houtcome.diagnostics, houtcome'.diagnostics⟩
  · rw [houtcome.environment, houtcome'.environment]
  · exact houtcome.resumes.forwardPointers.trans hagree.left
  · exact houtcome'.resumes.forwardPointers.trans hagree.right

theorem repeatable_procedures (ps : List ProcedureDeclaration) : Repeatable (procedures ps) :=
  repeatable_of_visits (Environment.checkProcedures ps) (visits_procedures ps)

theorem repeatable_surroundings (around : Surroundings) : Repeatable (surroundings around) := by
  have hconstants : Repeatable (each constant around.constants) :=
    repeatable_of_visits (Environment.sequence Environment.checkConstant · around.constants)
      fun c _ =>
      visits_each (fun d after _ => visits_constant d after) around.constants
  have htypes : Repeatable (typeSection around.types) :=
    repeatable_of_visits (·.checkTypeSection around.types) fun c _ =>
      visits_typeSection around.types c
  have hvars : Repeatable (each variableDeclaration around.vars) :=
    repeatable_of_visits (Environment.sequence Environment.checkVariable · around.vars)
      fun c hnone =>
      visits_each (fun d after hresumes =>
        visits_variableDeclaration d (hresumes.forwardPointers.trans hnone)) around.vars
  exact hconstants.bind (htypes.bind (hvars.bind (repeatable_procedures around.before)))

theorem repeatable_optionalParameters (p : Option FormalParameters) :
    Repeatable (optionalParameters p) :=
  repeatable_of_visits (Environment.sequence Environment.checkParameters · p.toList) fun c _ =>
    visits_optionalParameters p c

theorem repeatable_declareProcedure (name : IdentDef) :
    Repeatable (fun c => .ok (c.declareProcedure name)) :=
  repeatable_of_visits ((·.declareOther .procedure name)) fun c _ =>
    .of_outcome (f := (·.declareProcedure name))
      (outcome_declare c name.name ⟨.procedure, name.exported⟩)

theorem repeatable_closingName (body : Body) (name endName : String) :
    Repeatable (fun c => .ok (c.closingName body name endName)) :=
  repeatable_of_visits (fun env =>
    (env, env.report (Environment.endNameProblems body name endName)))
    fun c _ => .of_outcome (f := (·.closingName body name endName))
      (outcome_closingName c body name endName)

theorem repeatable_result (heading : ProcedureHeading) (value : Option Expression) :
    Repeatable (result heading value) :=
  repeatable_of_visits (fun env => (env, env.report (env.resultProblems heading value))) fun c _ =>
    visits_result heading value c

/-- Events of entering and leaving are no remarks. -/
theorem diagnostics_enter (c : Checker) (name : String) :
    (c.enter name).diagnostics = c.diagnostics := by
  rw [diagnostics, enter, remarks, List.filterMap_append]
  exact List.append_nil _

theorem repeatable_enter (name : String) : Repeatable (fun c => .ok (c.enter name)) :=
  Repeats.silent (fun _ _ h => ⟨congrArg (·.enterModule name) h.environment, h.left, h.right⟩)
    fun c => c.diagnostics_enter name

theorem repeatable_enterProcedure (heading : ProcedureHeading) :
    Repeatable (fun c => .ok (c.enterProcedure heading)) :=
  Repeats.silent
    (fun _ _ h =>
      ⟨congrArg (·.enterProcedure heading.name.name heading.parameterNames) h.environment,
        h.left, h.right⟩)
    fun c => c.diagnostics_enter heading.name.name

theorem repeatable_leave : Repeatable leave := by
  intro c c' after hagree hafter
  have hsymbols : c.symbols = c'.symbols := congrArg Environment.symbols hagree.environment
  obtain ⟨dropped, hdropped, hleft⟩ := bind_eq_ok_iff.mp hafter
  obtain ⟨outer, houter, hsome⟩ := bind_eq_ok_iff.mp hdropped
  cases hsome
  cases hleft
  have hlog : ∀ c : Checker, remarks (c.log ++ [.leave]) = c.diagnostics ++ [] := fun c =>
    List.filterMap_append
  refine ⟨{ c' with symbols := outer, path := c'.path.tail, log := c'.log ++ [.leave] }, [], ?_,
    ⟨?_, hagree.left, hagree.right⟩, hlog c, hlog c'⟩
  · rw [leave, dropScope, ← hsymbols, houter]
    rfl
  · exact congrArg (fun env : Environment => { env with symbols := outer, path := env.path.tail })
      hagree.environment

theorem repeatable_leaveProcedure : Repeatable leaveProcedure := by
  have hconstants : ∀ ev : Evaluator, ev.leave.constants = ev.constants.pop?.getD ev.constants := by
    intro ev
    unfold Evaluator.leave
    cases ev.constants.pop? <;> rfl
  have hevaluator : Repeatable (fun c => .ok { c with evaluator := c.evaluator.leave }) := by
    refine Repeats.silent (fun c c' h => ⟨?_, h.left, h.right⟩) fun _ => rfl
    show Environment.mk _ c.evaluator.leave.constants _ _ = ⟨_, c'.evaluator.leave.constants, _, _⟩
    rw [hconstants, hconstants]
    exact congrArg (fun env : Environment =>
      { env with constants := env.constants.pop?.getD env.constants })
      h.environment
  exact hevaluator.bind repeatable_leave

/-- What stands behind the open procedure is visited alike. -/
theorem repeatable_back (g : OpenDeclarations) : Repeatable (back g) := by
  induction g with
  | here around => exact repeatable_procedures around.behind
  | inside around heading body value endName ih =>
    exact ih.bind ((repeatable_result heading value).bind
      (((repeatable_closingName .procedure heading.name.name endName).bind
        repeatable_leaveProcedure).bind
        (repeatable_procedures around.behind)))

/-- What stands in front of the open procedure is visited alike. -/
theorem repeatable_front (g : OpenDeclarations) : Repeatable (front g) := by
  induction g with
  | here around => exact repeatable_surroundings around
  | inside around heading body value endName ih =>
    exact (repeatable_surroundings around).bind
      (((repeatable_declareProcedure heading.name).bind ((repeatable_enterProcedure heading).bind
        (repeatable_optionalParameters heading.parameters))).bind ih)

theorem repeatable_moduleFront (g : OpenModule) : Repeatable (moduleFront g) := by
  have himports : Repeatable (each imported (g.imports.getD [])) :=
    repeatable_of_visits (Environment.sequence Environment.declareImport · (g.imports.getD []))
      fun c _ =>
      visits_each (fun name after _ => visits_imported name after) (g.imports.getD [])
  exact ((repeatable_enter g.name).bind himports).bind (repeatable_front g.body)

theorem repeatable_moduleBack (g : OpenModule) : Repeatable (moduleBack g) :=
  (repeatable_back g.body).bind
    ((repeatable_closingName .module g.name g.endName).bind repeatable_leave)

/-- Behind a procedure nothing is known of it but its name. -/
theorem environment_procedure {c after : Checker} (d : ProcedureDetails) (name : IdentDef)
    (hnone : c.forwardPointers = none) (h : procedure (d.procedure name) c = .ok after) :
    after.environment = (c.environment.declareOther .procedure name).1 ∧
      after.forwardPointers = none ∧
      c.diagnostics <+: after.diagnostics := by
  obtain ⟨_, hvisit, houtcome⟩ := visits_procedure (d.procedure name) c hnone
  obtain rfl := Except.ok.inj (h.symm.trans hvisit)
  refine ⟨?_, houtcome.resumes.forwardPointers.trans hnone, ?_⟩
  · rw [houtcome.environment, ProcedureDetails.procedure, Environment.checkProcedure]
  · rw [houtcome.diagnostics]
    exact List.prefix_append _ _

end Checker

/-! ## The evaluator -/

namespace Evaluator

def surroundings (around : Surroundings) (ev : Evaluator) : Work Evaluator Evaluator := do
  let ev ← around.constants.foldlM constant ev
  let ev := ev.hideAll (around.types.map fun d => d.name.name)
  let ev := ev.hideAll (around.vars.flatMap VariableDeclaration.variableNames)
  procedures around.before ev

def front : OpenDeclarations → Evaluator → Work Evaluator Evaluator
  | .here around, ev => surroundings around ev
  | .inside around heading body _ _, ev => do
    let ev ← surroundings around ev
    front body (ev.enterProcedure heading)

def back : OpenDeclarations → Evaluator → Work Evaluator Evaluator
  | .here around, ev => procedures around.behind ev
  | .inside around _ body _ _, ev => do
    let ev ← back body ev
    procedures around.behind ev.leave

/-! ### An evaluation in three parts -/

theorem procedures_append (ps qs : List ProcedureDeclaration) (ev : Evaluator) :
    procedures (ps ++ qs) ev = procedures ps ev >>= procedures qs := by
  induction ps generalizing ev with
  | nil =>
    rw [List.nil_append, procedures]
    rfl
  | cons p ps ih => simp only [List.cons_append, procedures, ih, bind_assoc]

theorem declarations_fill_around (around : Surroundings) (p : ProcedureDeclaration)
    (ev : Evaluator) :
    declarations (around.fill p) ev =
      surroundings around ev >>= fun ev => procedure p ev >>= procedures around.behind := by
  simp only [Surroundings.fill, declarations, surroundings, procedures_append,
    procedures, bind_assoc]

/-- Leaving a procedure succeeds exactly if its body did. -/
theorem leaveProcedure_eq_ok_iff {work : Work Evaluator Evaluator} {after : Evaluator} :
    leaveProcedure work = .ok after ↔ ∃ ev, work = .ok ev ∧ ev.leave = after := by
  cases work with
  | ok ev =>
    exact ⟨fun h => ⟨ev, rfl, Except.ok.inj h⟩, fun ⟨_, hev, h⟩ => Except.ok.inj hev ▸ congrArg _ h⟩
  | error failure => exact ⟨nofun, fun ⟨_, hev, _⟩ => nomatch hev⟩

/-- A successful evaluation of filled declarations is one of three parts. -/
theorem declarations_fill_eq_ok (g : OpenDeclarations) (p : ProcedureDeclaration)
    {ev after : Evaluator}
    (h : declarations (g.fill p) ev = .ok after) :
    ∃ ev₀ ev₁, front g ev = .ok ev₀ ∧ procedure p ev₀ = .ok ev₁ ∧ back g ev₁ = .ok after := by
  induction g generalizing ev after with
  | here around =>
    rw [OpenDeclarations.fill, declarations_fill_around] at h
    obtain ⟨ev₀, hfront, h⟩ := bind_eq_ok_iff.mp h
    obtain ⟨ev₁, hprocedure, hback⟩ := bind_eq_ok_iff.mp h
    exact ⟨ev₀, ev₁, hfront, hprocedure, hback⟩
  | inside around heading body value endName ih =>
    rw [OpenDeclarations.fill, declarations_fill_around] at h
    obtain ⟨outer, houter, h⟩ := bind_eq_ok_iff.mp h
    obtain ⟨left, hleft, hbehind⟩ := bind_eq_ok_iff.mp h
    rw [procedure] at hleft
    obtain ⟨inner, hinner, rfl⟩ := leaveProcedure_eq_ok_iff.mp hleft
    obtain ⟨ev₀, ev₁, hfront, hprocedure, hback⟩ := ih hinner
    exact ⟨ev₀, ev₁, bind_eq_ok_iff.mpr ⟨outer, houter, hfront⟩, hprocedure,
      bind_eq_ok_iff.mpr ⟨inner, hback, hbehind⟩⟩

/-! ### Evaluations see the constants and the path only -/

/-- Two evaluators with the same constants in scope, at the same place. -/
structure Agree (ev ev' : Evaluator) : Prop where
  constants : ev.constants = ev'.constants
  path : ev.path = ev'.path

/-- An evaluation that records the same values in all states with the same constants in scope. -/
abbrev Repeatable (run : Evaluator → Work Evaluator Evaluator) : Prop :=
  Repeats Agree values run

/-- A constant has one value in scopes that agree. -/
theorem repeatable_constant (d : ConstDeclaration) : Repeatable (·.constant d) := by
  intro ev ev' after h hafter
  simp only [constant, evaluate] at hafter ⊢
  rw [← h.constants]
  cases hvalue : ev.constants.evaluate d.value with
  | error error =>
    rw [hvalue] at hafter
    cases hafter
  | ok value =>
    rw [hvalue] at hafter
    cases hafter
    refine ⟨_, [(ev.key d.name.name, value)], rfl, ⟨rfl, h.path⟩, rfl, ?_⟩
    rw [key, h.path]
    rfl

theorem repeatable_hideAll (names : List String) : Repeatable (fun ev => .ok (ev.hideAll names)) :=
  Repeats.silent (fun _ _ h => ⟨congrArg (·.hideAll names) h.constants, h.path⟩) fun _ => rfl

theorem repeatable_enterProcedure (heading : ProcedureHeading) :
    Repeatable (fun ev => .ok (ev.enterProcedure heading)) := by
  refine Repeats.silent (fun ev ev' h => ⟨?_, congrArg (heading.name.name :: ·) h.path⟩)
    fun _ => rfl
  exact congrArg (fun constants : Constants =>
    Constants.hideAll (constants.hide heading.name.name).push heading.parameterNames) h.constants

theorem repeatable_leave : Repeatable (fun ev => .ok ev.leave) := by
  refine Repeats.silent (fun ev ev' h => ?_) values_leave
  unfold leave
  rw [← h.constants]
  cases ev.constants.pop? with
  | none => exact h
  | some constants => exact ⟨rfl, congrArg List.tail h.path⟩

theorem repeatable_leaveProcedure {run : Evaluator → Work Evaluator Evaluator}
    (h : Repeatable run) :
    Repeatable (fun ev => leaveProcedure (run ev)) := by
  intro ev ev' after hagree hafter
  obtain ⟨inner, hinner, rfl⟩ := leaveProcedure_eq_ok_iff.mp hafter
  obtain ⟨after', written, hrun, hrest⟩ :=
    (h.bind repeatable_leave) ev ev' inner.leave hagree (bind_eq_ok_iff.mpr ⟨inner, hinner, rfl⟩)
  obtain ⟨inner', hinner', hleave⟩ := bind_eq_ok_iff.mp hrun
  exact ⟨after', written, leaveProcedure_eq_ok_iff.mpr ⟨inner', hinner', Except.ok.inj hleave⟩,
    hrest⟩

mutual

/-- Declarations record the same values in scopes that agree. -/
theorem repeatable_declarations (d : Declarations) : Repeatable (declarations d) := by
  match d with
  | ⟨constants, types, vars, procs⟩ =>
    have hdeclarations : Repeatable (fun ev => constants.foldlM constant ev >>= fun ev =>
        .ok (ev.hideAll (types.map fun d => d.name.name)) >>= fun ev =>
          .ok (ev.hideAll (vars.flatMap VariableDeclaration.variableNames)) >>= procedures procs) :=
      (Repeats.foldlM repeatable_constant constants).bind ((repeatable_hideAll _).bind
        ((repeatable_hideAll _).bind (repeatable_procedures procs)))
    intro ev ev' after
    rw [declarations, declarations]
    exact hdeclarations ev ev' after

theorem repeatable_procedure (p : ProcedureDeclaration) : Repeatable (procedure p) := by
  match p with
  | ⟨heading, decls, _, _⟩ =>
    intro ev ev' after
    rw [procedure, procedure]
    exact repeatable_leaveProcedure
      ((repeatable_enterProcedure heading).bind (repeatable_declarations decls))
      ev ev' after

theorem repeatable_procedures (ps : List ProcedureDeclaration) : Repeatable (procedures ps) := by
  match ps with
  | [] =>
    intro ev ev' after
    rw [procedures, procedures]
    exact Repeats.silent (fun _ _ h => h) (fun _ => rfl) ev ev' after
  | p :: ps =>
    intro ev ev' after
    rw [procedures, procedures]
    exact ((repeatable_procedure p).bind (repeatable_procedures ps)) ev ev' after

end

/-- What stands behind the open procedure is evaluated alike. -/
theorem repeatable_back (g : OpenDeclarations) : Repeatable (back g) := by
  induction g with
  | here around => exact repeatable_procedures around.behind
  | inside around _ body _ _ ih =>
    exact ih.bind (repeatable_leave.bind (repeatable_procedures around.behind))

/-- Behind a procedure nothing is known of it but its name. -/
theorem state_procedure {ev after : Evaluator} (d : ProcedureDetails) (name : IdentDef)
    (h : procedure (d.procedure name) ev = .ok after) :
    after.constants = ev.constants.hide name.name ∧ after.path = ev.path ∧
      ev.values <+: after.values := by
  have hframe := frame_procedure (d.procedure name) ev (List.mem_singleton_self _)
  rw [h] at hframe
  rw [ProcedureDetails.procedure, procedure] at h
  obtain ⟨inner, hinner, rfl⟩ := leaveProcedure_eq_ok_iff.mp h
  have hbody := frame_declarations d.declarations (ev.enterProcedure ⟨name, d.parameters⟩)
    (List.Subset.refl _)
  rw [hinner] at hbody
  exact ⟨congrArg Evaluator.constants (leave_of_frame_enterProcedure hbody), hframe.path,
    hframe.values⟩

end Evaluator

/-! ## Isolation -/

namespace OpenModule

/-- The check of a filled module makes the remarks `before` up to the visit of the procedure,
`inside` during that visit and `behind` after it. -/
def Reports (g : OpenModule) (d : ProcedureDetails)
    (before inside behind : List Diagnostic) : Prop :=
  ∃ c₀ c₁ c₂, Checker.moduleFront g .initial = .ok c₀ ∧
    Checker.procedure (g.procedure d) c₀ = .ok c₁ ∧
    Checker.moduleBack g c₁ = .ok c₂ ∧ Checker.accept (.root (g.fill d)) .initial = .ok c₂ ∧
    c₀.diagnostics = before ∧ c₁.diagnostics = before ++ inside ∧
    c₂.diagnostics = before ++ inside ++ behind

/-- The evaluation of a filled module succeeds and records the values `before` up to the
procedure, `inside` in it and `behind` after it. -/
def Records (g : OpenModule) (d : ProcedureDetails)
    (before inside behind : List (String × Value)) : Prop :=
  ∃ ev₀ ev₁ ev₂, Evaluator.front g.body .initial = .ok ev₀ ∧
    Evaluator.procedure (g.procedure d) ev₀ = .ok ev₁ ∧
    Evaluator.back g.body ev₁ = .ok ev₂ ∧
    Evaluator.initial.evaluateNode (.root (g.fill d)) = .ok ev₂ ∧
    ev₀.values = before ∧ ev₁.values = before ++ inside ∧ ev₂.values = before ++ inside ++ behind

/-- Two fillings give rise to the same remarks around the procedure. -/
theorem exists_reports (g : OpenModule) (d d' : ProcedureDetails) :
    ∃ before inside inside' behind, g.Reports d before inside behind ∧
      g.Reports d' before inside' behind := by
  obtain ⟨c₂, hmodule, -⟩ := Checker.visits_module (c := .initial) (g.fill d) rfl
  obtain ⟨c₂', hmodule', -⟩ := Checker.visits_module (c := .initial) (g.fill d') rfl
  have hrun := hmodule
  have hrun' := hmodule'
  rw [Checker.module_fill] at hrun hrun'
  obtain ⟨c₀, hfront, hrun⟩ := bind_eq_ok_iff.mp hrun
  obtain ⟨c₁, hinside, hback⟩ := bind_eq_ok_iff.mp hrun
  obtain ⟨_, hfront', hrun'⟩ := bind_eq_ok_iff.mp hrun'
  obtain ⟨c₁', hinside', hback'⟩ := bind_eq_ok_iff.mp hrun'
  obtain rfl := Except.ok.inj (hfront.symm.trans hfront')
  -- in front of the procedure there is only one run
  obtain ⟨_, _, -, hagree, -⟩ :=
    Checker.repeatable_moduleFront g .initial .initial c₀ ⟨rfl, rfl, rfl⟩ hfront
  obtain ⟨henv, hnone, inside, hprefix⟩ :=
    Checker.environment_procedure d g.procedureName hagree.left hinside
  obtain ⟨henv', hnone', inside', hprefix'⟩ :=
    Checker.environment_procedure d' g.procedureName hagree.left hinside'
  -- behind it both runs go on in the same environment
  obtain ⟨_, behind, hrepeat, -, hbehind, hbehind'⟩ :=
    Checker.repeatable_moduleBack g c₁ c₁' c₂ ⟨henv.trans henv'.symm, hnone, hnone'⟩ hback
  obtain rfl := Except.ok.inj (hback'.symm.trans hrepeat)
  refine ⟨c₀.diagnostics, inside, inside', behind,
    ⟨c₀, c₁, c₂, hfront, hinside, hback, hmodule, rfl, hprefix.symm, ?_⟩,
    ⟨c₀, c₁', c₂', hfront, hinside', hback', hmodule', rfl, hprefix'.symm, ?_⟩⟩
  · rw [hbehind, hprefix]
  · rw [hbehind', hprefix']

/-- Two fillings record the same values around the procedure. -/
theorem exists_records (g : OpenModule) (d d' : ProcedureDetails) {ev₂ ev₂' : Evaluator}
    (h : Evaluator.initial.evaluateNode (.root (g.fill d)) = .ok ev₂)
    (h' : Evaluator.initial.evaluateNode (.root (g.fill d')) = .ok ev₂') :
    ∃ before inside inside' behind, g.Records d before inside behind ∧
      g.Records d' before inside' behind := by
  obtain ⟨ev₀, ev₁, hfront, hinside, hback⟩ :=
    Evaluator.declarations_fill_eq_ok g.body (g.procedure d) h
  obtain ⟨_, ev₁', hfront', hinside', hback'⟩ :=
    Evaluator.declarations_fill_eq_ok g.body (g.procedure d') h'
  obtain rfl := Except.ok.inj (hfront.symm.trans hfront')
  obtain ⟨hconstants, hpath, inside, hprefix⟩ := Evaluator.state_procedure d g.procedureName hinside
  obtain ⟨hconstants', hpath', inside', hprefix'⟩ :=
    Evaluator.state_procedure d' g.procedureName hinside'
  obtain ⟨_, behind, hrepeat, -, hbehind, hbehind'⟩ := Evaluator.repeatable_back g.body ev₁ ev₁' ev₂
    ⟨hconstants.trans hconstants'.symm, hpath.trans hpath'.symm⟩ hback
  obtain rfl := Except.ok.inj (hback'.symm.trans hrepeat)
  refine ⟨ev₀.values, inside, inside', behind,
    ⟨ev₀, ev₁, ev₂, hfront, hinside, hback, h, rfl, hprefix.symm, ?_⟩,
    ⟨ev₀, ev₁', ev₂', hfront, hinside', hback', h', rfl, hprefix'.symm, ?_⟩⟩
  · rw [hbehind, hprefix]
  · rw [hbehind', hprefix']

/-- Outside a procedure nothing depends on its parameters, body, result and closing name.  Two
modules that differ only there get the same remarks in front of the procedure and behind it; and
if the constants of both can be evaluated, the same values are recorded there. -/
theorem isolates_procedure (g : OpenModule) (d d' : ProcedureDetails) :
    (∃ before inside inside' behind, g.Reports d before inside behind ∧
      g.Reports d' before inside' behind) ∧
    ∀ ev ev', Evaluator.initial.evaluateNode (.root (g.fill d)) = .ok ev →
      Evaluator.initial.evaluateNode (.root (g.fill d')) = .ok ev' →
      ∃ before inside inside' behind, g.Records d before inside behind ∧
        g.Records d' before inside' behind :=
  ⟨g.exists_reports d d', fun _ _ h h' => g.exists_records d d' h h'⟩

/-- A module with a constant and a procedure `P`, left open, inside another one; a procedure
behind `P` uses the constant and a name that nobody declares. -/
def sizeModule : OpenModule where
  name := "Sizes"
  imports := none
  body := .inside
    { constants := [⟨⟨"size", false⟩, ⟨none, ⟨.number (.integer 8), []⟩, []⟩⟩]
      types := []
      vars := []
      before := []
      behind := [] }
    ⟨⟨"Outer", true⟩, none⟩
    (.here
      { constants := []
        types := []
        vars := []
        before := []
        behind := [{
          heading := ⟨⟨"Q", false⟩, none⟩
          declarations := {
            constants :=
              [⟨⟨"half", false⟩,
                ⟨none, ⟨.name ⟨none, "size"⟩, [⟨.div, .number (.integer 2)⟩]⟩, []⟩⟩]
            types := []
            vars := [⟨[⟨"v", false⟩], .named ⟨none, "T"⟩⟩]
            procedures := [] }
          result := none
          endName := "Q" }] })
    none "Outer"
  endName := "Sizes"
  procedureName := ⟨"P", false⟩

def ownSize : ProcedureDetails where
  parameters := none
  declarations := {
    constants := [⟨⟨"size", false⟩, ⟨none, ⟨.number (.integer 3), []⟩, []⟩⟩]
    types := [⟨⟨"T", false⟩, .named ⟨none, "INTEGER"⟩⟩]
    vars := []
    procedures := [] }
  result := none
  endName := "P"

def sizeParameter : ProcedureDetails where
  parameters := some ⟨[⟨false, ["size"], 0, none, "INTEGER"⟩], some ⟨none, "BOOLEAN"⟩⟩
  declarations := ⟨[], [], [], []⟩
  result := none
  endName := "R"

/-- Two fillings of one module: what `P` declares or lacks changes nothing outside of it. -/
theorem isolates_procedure_sizes :
    Evaluator.evaluateModule (sizeModule.fill ownSize) =
        (none, [("size", .integer 8), ("Outer.P.size", .integer 3), ("Outer.Q.half", .integer 4)]) ∧
      Evaluator.evaluateModule (sizeModule.fill sizeParameter) =
        (none, [("size", .integer 8), ("Outer.Q.half", .integer 4)]) ∧
      (sizeModule.fill ownSize).check.length = 1 ∧
        (sizeModule.fill sizeParameter).check.length = 3 ∧
      (∃ before inside inside' behind, sizeModule.Reports ownSize before inside behind ∧
        sizeModule.Reports sizeParameter before inside' behind) ∧
      ∃ before inside inside' behind, sizeModule.Records ownSize before inside behind ∧
        sizeModule.Records sizeParameter before inside' behind := by
  refine ⟨by decide +kernel, by decide +kernel, by decide +kernel, by decide +kernel, ?_, ?_⟩
  · exact (isolates_procedure sizeModule ownSize sizeParameter).1
  · exact (isolates_procedure sizeModule ownSize sizeParameter).2 _ _ rfl rfl

end OpenModule

end Oberon
