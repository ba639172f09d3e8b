import Mathlib.Data.List.Forall2
import Oberon.Error
import Oberon.Proofs.Constant.Meaning
import Oberon.Proofs.Syntax.ConstantNodes

/-!
# Constants under lexical scoping

Where the constants of a module stand and what their expressions may refer to, read off the module
without running anything: a constant sees what was entered before it into its own scope and the
scopes around it.  The evaluator goes through the constants in that order and stops at the first
one without a value.
-/

namespace Oberon

/-! ## Scopes and what names denote in them -/

/-- What has been entered into a scope, the earliest first: a constant with its value, anything
else without one. -/
abbrev Entries :=
  List (String × Option Value)

namespace Lexical

def bare (names : List String) : Entries :=
  names.map fun name => (name, none)

/-- The latest entry of a name in the innermost scope that has one.  The innermost scope comes
first. -/
def binding? (scopes : List Entries) (name : String) : Option (Option Value) :=
  scopes.findSome? fun entries => entries.reverse.lookup name

/-- What a name denotes: its innermost binding, then the boolean constants. -/
def resolve (scopes : List Entries) (q : Qualident) : Result :=
  match q.qualifier, binding? scopes q.name with
  | some _, _ => .error (.importedName q)
  | none, some (some value) => .ok value
  | none, some none => .error (.notConstant q.name)
  | none, none =>
    match Predeclared.boolean? q.name with
    | some value => .ok (.boolean value)
    | none => .error (.undefined q.name)

/-- The rules for names, with the errors as they are reported. -/
inductive Denotes (scopes : List Entries) (q : Qualident) : Except Error Value → Prop where
  /-- Of another module no value is known. -/
  | imported (reason : String) (h : q.isQualified = true) :
    Denotes scopes q (.error (.constantEvaluation reason))
  /-- A constant has its value. -/
  | constant (value : Value) (hname : q.qualifier = none)
    (h : binding? scopes q.name = some (some value)) : Denotes scopes q (.ok value)
  /-- Something else hides constants of its name. -/
  | other (reason : String) (hname : q.qualifier = none) (h : binding? scopes q.name = some none) :
    Denotes scopes q (.error (.constantEvaluation reason))
  /-- The boolean constants are known where their names are not bound. -/
  | boolean (value : Bool) (hname : q.qualifier = none) (h : binding? scopes q.name = none)
    (htext : q.name = Predeclared.booleanText value) : Denotes scopes q (.ok (.boolean value))
  /-- There is nothing else. -/
  | undefined (hname : q.qualifier = none) (h : binding? scopes q.name = none)
    (htext : ∀ value, q.name ≠ Predeclared.booleanText value) :
    Denotes scopes q (.error (.undefinedConstant q.name))

/-- Only the two truth values are predeclared constants. -/
theorem boolean?_eq_some_iff {name : String} {value : Bool} :
    Predeclared.boolean? name = some value ↔ name = Predeclared.booleanText value := by
  unfold Predeclared.boolean? Predeclared.booleanText
  split <;> cases value <;> simp_all

/-- Looking up follows the rules of denotation. -/
theorem denotes_resolve (scopes : List Entries) (q : Qualident) :
    Denotes scopes q ((resolve scopes q).mapError EvalError.toError) := by
  obtain ⟨qualifier, name⟩ := q
  unfold resolve
  cases qualifier with
  | some qualifier => exact .imported _ rfl
  | none =>
    dsimp only
    cases hbinding : binding? scopes name with
    | some value? =>
      cases value? with
      | some value => exact .constant value rfl hbinding
      | none => exact .other _ rfl hbinding
    | none =>
      dsimp only
      cases hboolean : Predeclared.boolean? name with
      | some value => exact .boolean value rfl hbinding (boolean?_eq_some_iff.mp hboolean)
      | none =>
        refine .undefined rfl hbinding fun value htext => ?_
        rw [boolean?_eq_some_iff.mpr htext] at hboolean
        cases hboolean

end Lexical

/-! ## Places of constants -/

structure ConstantPlace where
  /-- The procedures around it, outermost first. -/
  path : List String
  /-- What has been entered before it, innermost scope first. -/
  scopes : List Entries
  declaration : ConstDeclaration

namespace ConstantPlace

def names (place : ConstantPlace) : List String :=
  place.path ++ [place.declaration.name.name]

def result (place : ConstantPlace) : Result :=
  place.declaration.value.value (Lexical.resolve place.scopes)

def entry (place : ConstantPlace) : String × Option Value :=
  (place.declaration.name.name, place.result.toOption)

/-- The constant is recorded by its names, joined by points, and its value. -/
structure Records (place : ConstantPlace) (recorded : String × Value) : Prop where
  key : recorded.1 = ".".intercalate place.names
  value : place.result = .ok recorded.2

/-- The places of the constants of a body, into whose scope `own` has been entered before. -/
def ofConstants (path : List String) (outer : List Entries) (own : Entries) :
    List ConstDeclaration → List ConstantPlace
  | [] => []
  | d :: ds =>
    let place : ConstantPlace := ⟨path, own :: outer, d⟩
    place :: ofConstants path outer (own ++ [place.entry]) ds

end ConstantPlace

open ConstantPlace Lexical

mutual

def Declarations.constantPlaces (path : List String) (outer : List Entries) (own : Entries) :
    Declarations → List ConstantPlace
  | ⟨constants, types, vars, procedures⟩ =>
    ofConstants path outer own constants ++
      ProcedureDeclaration.allConstantPlaces path outer
        (own ++ (ofConstants path outer own constants).map entry ++
          bare (types.map fun d => d.name.name) ++
          bare (vars.flatMap VariableDeclaration.variableNames)) procedures

def ProcedureDeclaration.constantPlaces (path : List String) (outer : List Entries) :
    ProcedureDeclaration → List ConstantPlace
  | ⟨heading, declarations, _, _⟩ =>
    declarations.constantPlaces (path ++ [heading.name.name]) outer (bare heading.parameterNames)

def ProcedureDeclaration.allConstantPlaces (path : List String) (outer : List Entries)
    (own : Entries) :
    List ProcedureDeclaration → List ConstantPlace
  | [] => []
  | p :: ps =>
    p.constantPlaces path ((own ++ bare [p.heading.name.name]) :: outer) ++
      ProcedureDeclaration.allConstantPlaces path outer (own ++ bare [p.heading.name.name]) ps

end

def Module.constantPlaces (m : Module) : List ConstantPlace :=
  m.declarations.constantPlaces [] [] []

/-! ### The constants of the tree -/

open Oberon.Tree (leaf constants_node plain_leaf flatMap_constants_of_plain)

/-- The places of a section are its declarations in order. -/
theorem map_declaration_ofConstants (path : List String) (outer : List Entries) (own : Entries)
    (ds : List ConstDeclaration) : (ofConstants path outer own ds).map declaration = ds := by
  induction ds generalizing own with
  | nil => rfl
  | cons d ds ih => rw [ofConstants, List.map_cons, ih]

mutual

/-- The places of the declarations are their constants in order of the text. -/
theorem Declarations.constants_trees (d : Declarations) (path : List String) (outer : List Entries)
    (own : Entries) :
    d.trees.flatMap Tree.constants = (d.constantPlaces path outer own).map declaration := by
  match d with
  | ⟨constants, types, vars, procedures⟩ =>
    have hconstants : (constants.map ConstDeclaration.tree).flatMap Tree.constants = constants := by
      rw [List.flatMap_map, List.flatMap_congr fun d _ => d.constants_tree, List.flatMap_singleton']
    have htypes : (types.map TypeDeclaration.tree).flatMap Tree.constants = [] := by
      rw [List.flatMap_map, List.flatMap_eq_nil_iff]
      exact fun d _ => d.constants_tree
    rw [Declarations.trees, Declarations.constantPlaces, List.map_append,
      map_declaration_ofConstants, List.flatMap_append, List.flatMap_append, List.flatMap_cons,
      hconstants, htypes, constants_variableDeclarationListTree, List.append_nil, List.nil_append,
      ← ProcedureDeclaration.constants_trees procedures]

/-- The places of a procedure are its constants in order of the text. -/
theorem ProcedureDeclaration.constants_tree (p : ProcedureDeclaration) (path : List String)
    (outer : List Entries) : p.tree.constants = (p.constantPlaces path outer).map declaration := by
  match p with
  | ⟨heading, declarations, result, endName⟩ =>
    have hresult : ∀ tree ∈ result.toList.map Expression.tree ++ [leaf (.identifier endName)],
        tree.Plain := by
      rw [List.forall_mem_append, List.forall_mem_map, List.forall_mem_singleton]
      exact ⟨fun e _ => e.plain_tree, plain_leaf rfl⟩
    rw [ProcedureDeclaration.tree, ProcedureDeclaration.constantPlaces, constants_node,
      List.append_assoc, List.flatMap_append, flatMap_constants_of_plain hresult, List.flatMap_cons,
      heading.plain_tree.constants, declarations.constants_trees, List.append_nil]
    rfl

theorem ProcedureDeclaration.constants_trees (ps : List ProcedureDeclaration) (path : List String)
    (outer : List Entries) (own : Entries) :
    (ProcedureDeclaration.trees ps).flatMap Tree.constants =
      (ProcedureDeclaration.allConstantPlaces path outer own ps).map declaration := by
  match ps with
  | [] => rfl
  | p :: ps =>
    rw [ProcedureDeclaration.trees, ProcedureDeclaration.allConstantPlaces, List.flatMap_cons,
      List.map_append, p.constants_tree, ProcedureDeclaration.constants_trees ps]

end

/-- The places of the constants are those of the constant declarations in the tree of the module. -/
theorem Module.map_declaration_constantPlaces (m : Module) :
    m.constantPlaces.map declaration = (Node.root m).tree.constants := by
  have himports : ∀ tree ∈ leaf (.identifier m.name) :: m.imports.toList.map identifierListTree,
      tree.Plain := by
    rw [List.forall_mem_cons, List.forall_mem_map]
    exact ⟨plain_leaf rfl, fun names _ => plain_identifierListTree names⟩
  have hend : ∀ tree ∈ [leaf (.identifier m.endName)], tree.Plain :=
    List.forall_mem_singleton.mpr (plain_leaf rfl)
  rw [Node.tree, constants_node, List.flatMap_singleton, Module.tree, constants_node,
    List.flatMap_append, List.flatMap_append, flatMap_constants_of_plain himports,
    flatMap_constants_of_plain hend, m.declarations.constants_trees, List.append_nil]
  rfl

/-! ## Scopes of the evaluator -/

namespace Constants

/-- The evaluator has the scopes that have been entered. -/
def Holds (constants : Constants) (scopes : List Entries) : Prop :=
  constants.inner ++ [constants.outermost] = scopes.map List.reverse

variable {constants : Constants} {own scope : Entries} {outer scopes : List Entries}

theorem holds_empty : Holds .empty [[]] :=
  rfl

theorem Holds.push (h : constants.Holds scopes) : Holds constants.push ([] :: scopes) :=
  congrArg ([] :: ·) h

/-- A binding is an entry at the end of the innermost scope. -/
theorem Holds.bind (h : constants.Holds (own :: outer)) (name : String) (value : Option Value) :
    Holds (constants.bind name value) ((own ++ [(name, value)]) :: outer) := by
  obtain ⟨inner, outermost⟩ := constants
  unfold Holds at h ⊢
  rw [List.map_cons] at h ⊢
  rw [List.reverse_append]
  -- the innermost scope is the outermost one, or the first of the inner ones
  cases inner with
  | nil =>
    obtain ⟨rfl, hnil⟩ := List.cons.inj h
    exact congrArg (((name, value) :: own.reverse) :: ·) hnil
  | cons first inner =>
    obtain ⟨rfl, hrest⟩ := List.cons.inj h
    exact congrArg (((name, value) :: own.reverse) :: ·) hrest

/-- Hidden names are entries without a value. -/
theorem Holds.hideAll (h : constants.Holds (own :: outer)) (names : List String) :
    (constants.hideAll names).Holds ((own ++ bare names) :: outer) := by
  induction names generalizing constants own with
  | nil =>
    rw [bare, List.map_nil, List.append_nil]
    exact h
  | cons name names ih =>
    have hrest := ih (h.bind name none)
    rw [List.append_assoc] at hrest
    exact hrest

/-- Popping a scope leaves the outer ones. -/
theorem Holds.pop? (h : constants.Holds (own :: scope :: outer)) :
    ∃ constants', constants.pop? = some constants' ∧ Holds constants' (scope :: outer) := by
  obtain ⟨inner, outermost⟩ := constants
  cases inner with
  | nil =>
    have hnil := (List.cons.inj h).2
    cases hnil
  | cons first inner => exact ⟨⟨inner, outermost⟩, rfl, (List.cons.inj h).2⟩

/-- Both sides find the innermost entry. -/
theorem Holds.find? (h : constants.Holds scopes) (name : String) :
    constants.find? name = binding? scopes name := by
  have hscopes : binding? scopes name =
      (constants.inner ++ [constants.outermost]).findSome? (List.lookup name) := by
    rw [h, List.findSome?_map]
    rfl
  rw [hscopes, List.findSome?_append, List.findSome?_singleton]
  rfl

/-- Both sides give the same value or the same error. -/
theorem Holds.valueOf (h : constants.Holds scopes) : constants.valueOf = resolve scopes := by
  funext q
  obtain ⟨qualifier, name⟩ := q
  unfold Constants.valueOf resolve
  rw [h.find?]
  cases qualifier with
  | some qualifier => rfl
  | none =>
    cases binding? scopes name with
    | none => rfl
    | some value => cases value <;> rfl

end Constants

/-! ## Runs of the evaluator -/

namespace Evaluator

/-- The evaluator is inside the procedures of `path` and has these scopes. -/
structure At (path : List String) (scopes : List Entries) (ev : Evaluator) : Prop where
  path : ev.path = path.reverse
  constants : ev.constants.Holds scopes

/-- How a run ends that comes to these places in this order, with `values` recorded before: all of
them are recorded and the evaluator is where it should be, or those in front of the first one
without a value. -/
inductive Runs (places : List ConstantPlace) (values : List (String × Value))
    (after : Evaluator → Prop) : Work Evaluator Evaluator → Prop where
  | done (ev : Evaluator) (recorded : List (String × Value))
    (hrecorded : List.Forall₂ Records places recorded) (hvalues : ev.values = values ++ recorded)
    (hafter : after ev) : Runs places values after (.ok ev)
  | stopped (ev : Evaluator) (recorded : List (String × Value)) (before later : List ConstantPlace)
    (place : ConstantPlace) (error : EvalError) (hplaces : places = before ++ place :: later)
    (herror : place.result = .error error) (hrecorded : List.Forall₂ Records before recorded)
    (hvalues : ev.values = values ++ recorded) : Runs places values after (.error (error, ev))

variable {places places' : List ConstantPlace} {values : List (String × Value)}
  {after after' : Evaluator → Prop} {work : Work Evaluator Evaluator} {ev : Evaluator}
  {path : List String} {own scope : Entries} {outer : List Entries}

theorem runs_nil (h : after ev) : Runs [] ev.values after (.ok ev) :=
  .done ev [] .nil (List.append_nil ev.values).symm h

/-- Two runs one after the other; the second one starts with what the first one has recorded. -/
theorem Runs.andThen (h : Runs places values after work)
    {next : Evaluator → Work Evaluator Evaluator}
    (hnext : ∀ ev, after ev → Runs places' ev.values after' (next ev)) :
    Runs (places ++ places') values after' (work >>= next) := by
  cases h with
  | stopped ev recorded before later place error hplaces herror hrecorded hvalues =>
    refine .stopped ev recorded before (later ++ places') place error ?_ herror hrecorded hvalues
    rw [hplaces, List.append_assoc, List.cons_append]
  | done ev recorded hrecorded hvalues hafter =>
    have hsecond := hnext ev hafter
    show Runs (places ++ places') values after' (next ev)
    generalize next ev = work at hsecond
    cases hsecond with
    | done ev' recorded' hrecorded' hvalues' hafter' =>
      refine .done ev' (recorded ++ recorded') (List.rel_append hrecorded hrecorded') ?_ hafter'
      rw [hvalues', hvalues, List.append_assoc]
    | stopped ev' recorded' before later place error hplaces herror hrecorded' hvalues' =>
      refine .stopped ev' (recorded ++ recorded') (places ++ before) later place error ?_ herror
        (List.rel_append hrecorded hrecorded') ?_
      · rw [hplaces, List.append_assoc]
      · rw [hvalues', hvalues, List.append_assoc]

/-- The state afterwards may be described more weakly. -/
theorem Runs.mono (h : Runs places values after work) (hafter : ∀ ev, after ev → after' ev) :
    Runs places values after' work := by
  cases h with
  | done ev recorded hrecorded hvalues hev =>
    exact .done ev recorded hrecorded hvalues (hafter ev hev)
  | stopped ev recorded before later place error hplaces herror hrecorded hvalues =>
    exact .stopped ev recorded before later place error hplaces herror hrecorded hvalues

/-! ### Declarations -/

theorem At.hideAll (h : ev.At path (own :: outer)) (names : List String) :
    (ev.hideAll names).At path ((own ++ bare names) :: outer) :=
  ⟨h.path, h.constants.hideAll names⟩

/-- One constant: its expression is evaluated in the scopes of its place. -/
theorem runs_constant (h : ev.At path (own :: outer)) (d : ConstDeclaration) :
    Runs [⟨path, own :: outer, d⟩] ev.values
      (At path ((own ++ [entry ⟨path, own :: outer, d⟩]) :: outer)) (ev.constant d) := by
  have hresult : ev.evaluate d.value =
      (result ⟨path, own :: outer, d⟩, { ev with stack := [] }) := by
    rw [evaluate, Constants.evaluate_eq_value, h.constants.valueOf]
    rfl
  unfold constant
  rw [hresult]
  cases hvalue : result ⟨path, own :: outer, d⟩ with
  | error error =>
    exact .stopped _ [] [] [] _ error rfl hvalue .nil (List.append_nil ev.values).symm
  | ok value =>
    refine .done _ [(ev.key d.name.name, value)] (.cons ⟨?_, hvalue⟩ .nil) rfl ⟨h.path, ?_⟩
    · rw [key, h.path, List.reverse_reverse]
      rfl
    · rw [entry, hvalue]
      exact h.constants.bind d.name.name (some value)

/-- A section records its constants in order and stops at the first failure. -/
theorem runs_constants (h : ev.At path (own :: outer)) (ds : List ConstDeclaration) :
    Runs (ofConstants path outer own ds) ev.values
      (At path ((own ++ (ofConstants path outer own ds).map entry) :: outer))
      (ds.foldlM constant ev) := by
  induction ds generalizing ev own with
  | nil =>
    refine runs_nil ?_
    rw [ofConstants, List.map_nil, List.append_nil]
    exact h
  | cons d ds ih =>
    rw [List.foldlM_cons, ofConstants]
    refine (runs_constant h d).andThen fun ev hev => (ih hev).mono fun ev hafter => ?_
    rw [List.append_assoc] at hafter
    exact hafter

/-- Leaving a procedure records nothing. -/
theorem values_leave (ev : Evaluator) : ev.leave.values = ev.values := by
  unfold leave
  split <;> rfl

/-- Leaving a procedure goes back to the path and the scopes around it. -/
theorem At.leave {name : String} (h : ev.At (path ++ [name]) (own :: scope :: outer)) :
    ev.leave.At path (scope :: outer) := by
  obtain ⟨constants, hpop, hholds⟩ := h.constants.pop?
  have hleave : ev.leave = { ev with constants, path := ev.path.tail } := by
    rw [Evaluator.leave, hpop]
  rw [hleave]
  refine ⟨?_, hholds⟩
  rw [h.path, List.reverse_append]
  rfl

/-- Whatever happens inside a procedure, its scope is left. -/
theorem Runs.leaveProcedure {name : String}
    (h : Runs places values (fun ev => ∃ own,
      ev.At (path ++ [name]) (own :: scope :: outer)) work) :
    Runs places values (At path (scope :: outer)) (leaveProcedure work) := by
  cases h with
  | done ev recorded hrecorded hvalues hafter =>
    obtain ⟨own, hev⟩ := hafter
    exact .done ev.leave recorded hrecorded ((values_leave ev).trans hvalues) hev.leave
  | stopped ev recorded before later place error hplaces herror hrecorded hvalues =>
    exact .stopped ev.leave recorded before later place error hplaces herror hrecorded
      ((values_leave ev).trans hvalues)

/-- A procedure hides its own name outside and its parameters inside. -/
theorem At.enterProcedure (h : ev.At path (own :: outer)) (heading : ProcedureHeading) :
    (ev.enterProcedure heading).At (path ++ [heading.name.name])
      (bare heading.parameterNames :: (own ++ bare [heading.name.name]) :: outer) := by
  have hname : (ev.hide heading.name.name).constants.Holds
      ((own ++ bare [heading.name.name]) :: outer) := h.constants.bind heading.name.name none
  refine ⟨?_, hname.push.hideAll heading.parameterNames⟩
  show heading.name.name :: ev.path = _
  rw [h.path, List.reverse_append]
  rfl

mutual

-- The induction follows the procedures, like the evaluator itself.
theorem runs_declarations (d : Declarations) {ev : Evaluator} {path : List String} {own : Entries}
    {outer : List Entries} (h : ev.At path (own :: outer)) :
    Runs (d.constantPlaces path outer own) ev.values (fun ev => ∃ own, ev.At path (own :: outer))
      (declarations d ev) := by
  match d with
  | ⟨constants, types, vars, procedures⟩ =>
    rw [Declarations.constantPlaces, declarations]
    refine (runs_constants h constants).andThen fun ev hev => ?_
    have hhidden := (hev.hideAll (types.map fun d => d.name.name)).hideAll
      (vars.flatMap VariableDeclaration.variableNames)
    exact runs_procedures procedures hhidden

/-- A procedure records the constants of its body behind its name. -/
theorem runs_procedure (p : ProcedureDeclaration) {ev : Evaluator} {path : List String}
    {own : Entries}
    {outer : List Entries} (h : ev.At path (own :: outer)) :
    Runs (p.constantPlaces path ((own ++ bare [p.heading.name.name]) :: outer)) ev.values
      (At path ((own ++ bare [p.heading.name.name]) :: outer)) (procedure p ev) := by
  match p with
  | ⟨heading, decls, _, _⟩ =>
    rw [ProcedureDeclaration.constantPlaces, procedure]
    exact (runs_declarations decls (h.enterProcedure heading)).leaveProcedure

/-- Procedures record their constants in order. -/
theorem runs_procedures (ps : List ProcedureDeclaration) {ev : Evaluator} {path : List String}
    {own : Entries} {outer : List Entries} (h : ev.At path (own :: outer)) :
    Runs (ProcedureDeclaration.allConstantPlaces path outer own ps) ev.values
      (fun ev => ∃ own, ev.At path (own :: outer)) (procedures ps ev) := by
  match ps with
  | [] =>
    rw [ProcedureDeclaration.allConstantPlaces, procedures]
    exact runs_nil ⟨own, h⟩
  | p :: ps =>
    rw [ProcedureDeclaration.allConstantPlaces, procedures]
    exact (runs_procedure p h).andThen fun ev hev => runs_procedures ps hev

end

/-- The run over a whole module. -/
theorem runs_module (m : Module) :
    Runs m.constantPlaces [] (fun ev => ∃ own, ev.At [] [own])
      (initial.evaluateNode (.root m)) := by
  have hinitial : initial.At [] [[]] := ⟨rfl, Constants.holds_empty⟩
  exact runs_declarations m.declarations hinitial

/-- The evaluator records the constants of a module in the order of the source, each with the
value that its expression has in the scopes around it.  It stops at the first constant without a
value, with the error of that constant.  What names denote in the scopes obeys the rules. -/
theorem evaluateModule_lexical (m : Module) :
    m.constantPlaces.map declaration = (Node.root m).tree.constants ∧
      ((∃ values, evaluateModule m = (none, values) ∧
          List.Forall₂ Records m.constantPlaces values) ∨
        ∃ before place later error values, m.constantPlaces = before ++ place :: later ∧
          place.result = .error error ∧ evaluateModule m = (some error, values) ∧
          List.Forall₂ Records before values) ∧
      ∀ scopes q, Denotes scopes q ((resolve scopes q).mapError EvalError.toError) := by
  refine ⟨m.map_declaration_constantPlaces, ?_, denotes_resolve⟩
  have hruns := runs_module m
  unfold evaluateModule
  generalize initial.evaluateNode (.root m) = work at hruns ⊢
  cases hruns with
  | done ev recorded hrecorded hvalues _ => exact .inl ⟨ev.values, rfl, hvalues ▸ hrecorded⟩
  | stopped ev recorded before later place error hplaces herror hrecorded hvalues =>
    exact .inr ⟨before, place, later, error, ev.values, hplaces, herror, rfl, hvalues ▸ hrecorded⟩

end Evaluator

end Oberon
