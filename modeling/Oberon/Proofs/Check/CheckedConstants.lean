import Oberon.Proofs.Check.ConstantKeys
import Oberon.Proofs.Check.Keeps
import Oberon.Proofs.Check.StaticRules

/-!
# The constants that the checker comes to

The checker evaluates the constants in environments of its own: imported modules are declared in
them, and a name that cannot be declared changes nothing.  Without findings it binds every
constant to the value that the constant has under lexical scoping.
-/

namespace Oberon

/-! ## Constants in the order of the checker -/

structure CheckedConstant where
  before : Environment
  declaration : ConstDeclaration

namespace CheckedConstant

/-- The names that lead to the constant, its own last.  The module is the outermost body and is
left out. -/
def names (c : CheckedConstant) : List String :=
  c.before.path.reverse.tail ++ [c.declaration.name.name]

def value? (c : CheckedConstant) : Option Value :=
  (c.before.checkConstant c.declaration).1.constants.lookup c.declaration.name.name

end CheckedConstant

namespace Environment

def checkedConstants (env : Environment) : List ConstDeclaration → List CheckedConstant
  | [] => []
  | d :: ds => ⟨env, d⟩ :: checkedConstants (env.checkConstant d).1 ds

def afterVariables (env : Environment) (constants : List ConstDeclaration)
    (types : List TypeDeclaration) (vars : List VariableDeclaration) : Environment :=
  (sequence checkVariable
    ((sequence checkConstant env constants).1.checkTypeSection types).1 vars).1

def insideProcedure (env : Environment) (heading : ProcedureHeading) : Environment :=
  (((env.declareOther .procedure heading.name).1.enterProcedure heading.name.name
    heading.parameterNames).checkHeading heading).1

end Environment

open Environment

mutual

def Declarations.checkedConstants (env : Environment) : Declarations → List CheckedConstant
  | ⟨constants, types, vars, procedures⟩ =>
    env.checkedConstants constants ++
      ProcedureDeclaration.allCheckedConstants (env.afterVariables constants types vars) procedures

def ProcedureDeclaration.checkedConstants (env : Environment) :
    ProcedureDeclaration → List CheckedConstant
  | ⟨heading, declarations, _, _⟩ => declarations.checkedConstants (env.insideProcedure heading)

def ProcedureDeclaration.allCheckedConstants (env : Environment) :
    List ProcedureDeclaration → List CheckedConstant
  | [] => []
  | p :: ps =>
    p.checkedConstants env ++ ProcedureDeclaration.allCheckedConstants (checkProcedure p env).1 ps

end

def Module.checkedConstants (m : Module) : List CheckedConstant :=
  m.declarations.checkedConstants
    (sequence declareImport (initial.enterModule m.name) (m.imports.getD [])).1

/-! ## Paths -/

namespace Environment

theorem keepsPath_checkHeading : Keeps path checkHeading :=
  Keeps.heading fun env name => env.path_declare name _ _

theorem keepsPath_declareImport : Keeps path declareImport :=
  fun env name => env.path_declare name ⟨.module, false⟩ (some none)

theorem path_insideProcedure (env : Environment) (heading : ProcedureHeading) :
    (env.insideProcedure heading).path = heading.name.name :: env.path := by
  refine (keepsPath_checkHeading _ heading).trans ?_
  exact congrArg (heading.name.name :: ·)
    (keeps_declareOther path_declare .procedure env heading.name)

end Environment

/-! ## Values -/

/-- A name that is no constant may be missing among the constants: expressions do not refer to
it. -/
theorem Constants.Agree.declareAll {constants : Constants} {ctx : Context} (h : constants.Agree ctx)
    (kind : SymbolKind) (hkind : kind ≠ .constant) (names : List String) :
    constants.Agree (ctx.declareAll kind names) := by
  induction names generalizing ctx with
  | nil => exact h
  | cons name names ih =>
    refine ih fun other m hfind hm => ?_
    rw [Context.declare, Scopes.find?_bind] at hfind
    split at hfind
    next =>
      cases hfind
      exact absurd hm hkind
    next => exact h other m hfind hm

namespace Lexical

/-- The scopes give every constant of the context its value. -/
def Settle (scopes : List Entries) (ctx : Context) : Prop :=
  ∃ constants : Constants, constants.Holds scopes ∧ constants.Agree ctx

variable {own : Entries} {outer scopes : List Entries} {ctx : Context}

/-- Where the scopes settle the context, an expression of constants has its lexical value. -/
theorem Settle.value_eq (h : Settle scopes ctx) {e : Expression} (he : ctx.AllConstant e) :
    e.value (resolve scopes) = ctx.evaluate e := by
  obtain ⟨constants, hholds, hagree⟩ := h
  rw [← hholds.valueOf, ← Constants.evaluate_eq_value, hagree.evaluate_eq he]

/-- Names that are no constants are entered without a value. -/
theorem Settle.bare (h : Settle (own :: outer) ctx) (kind : SymbolKind) (hkind : kind ≠ .constant)
    (names : List String) : Settle ((own ++ bare names) :: outer) (ctx.declareAll kind names) := by
  obtain ⟨constants, hholds, hagree⟩ := h
  exact ⟨constants.hideAll names, hholds.hideAll names, hagree.hideAll hkind names⟩

/-- A constant is entered with its value. -/
theorem Settle.constant (h : Settle (own :: outer) ctx) {name : String} {value : Value}
    {m : Meaning}
    (hm : m.value = some value) :
    Settle ((own ++ [(name, some value)]) :: outer) (ctx.bind name m) := by
  obtain ⟨constants, hholds, hagree⟩ := h
  exact ⟨constants.bind name (some value), hholds.bind name (some value),
    hagree.bind name fun _ => ⟨value, hm, rfl⟩⟩

theorem Settle.push (h : Settle scopes ctx) : Settle ([] :: scopes) ctx.push := by
  obtain ⟨constants, hholds, hagree⟩ := h
  exact ⟨constants.push, hholds.push, hagree.push⟩

end Lexical

open Lexical ConstantPlace

/-- The checker binds the constant to the value that it has at its place. -/
structure CheckedConstant.AgreesWith (c : CheckedConstant) (place : ConstantPlace) : Prop where
  declaration : c.declaration = place.declaration
  names : c.names = place.names
  value : ∃ value, place.result = .ok value ∧ c.value? = some value

namespace Environment

/-- The environment matches the context and is inside the procedures of `path`, and the scopes
around this point settle the constants of the context. -/
structure CheckedAt (imports : List String) (top : String) (path : List String)
    (scopes : List Entries)
    (env : Environment) (ctx : Context) : Prop extends Matches imports env ctx where
  path : env.path.reverse = top :: path
  settle : Settle scopes ctx

variable {imports : List String} {top : String} {path : List String} {own : Entries}
  {outer : List Entries} {env : Environment} {ctx : Context}

/-- One constant: the checker binds it to the value that it has at its place. -/
theorem CheckedAt.constant (h : CheckedAt imports top path (own :: outer) env ctx)
    {d : ConstDeclaration} (hnil : (env.checkConstant d).2 = []) :
    CheckedConstant.AgreesWith ⟨env, d⟩ ⟨path, own :: outer, d⟩ ∧
      CheckedAt imports top path ((own ++ [entry ⟨path, own :: outer, d⟩]) :: outer)
        (env.checkConstant d).1 (ctx.declareConstant d) := by
  obtain ⟨hiff, hnext⟩ := decides_checkConstant h.toMatches d
  obtain ⟨-, hconstant, v, hv⟩ := hiff.mp hnil
  have hresult : result ⟨path, own :: outer, d⟩ = .ok v := (h.settle.value_eq hconstant).trans hv
  constructor
  · refine ⟨rfl, ?_, v, hresult, ?_⟩
    · show env.path.reverse.tail ++ [d.name.name] = path ++ [d.name.name]
      rw [h.path]
      rfl
    · rw [CheckedConstant.value?, h.checkConstant_fst hnil, hv]
      show ((env.constants.bind d.name.name (some v)).find? d.name.name).join = some v
      rw [Scopes.find?_bind, if_pos rfl]
      rfl
  · refine ⟨hnext hnil,
      (congrArg List.reverse (keeps_checkConstant path_declare env d)).trans h.path, ?_⟩
    rw [entry, hresult]
    refine h.settle.constant ?_
    rw [hv]
    rfl

/-- A constant section keeps the checker and the scopes together. -/
theorem CheckedAt.afterConstants (h : CheckedAt imports top path (own :: outer) env ctx)
    {ds : List ConstDeclaration} (hnil : (sequence checkConstant env ds).2 = []) :
    List.Forall₂ CheckedConstant.AgreesWith (env.checkedConstants ds)
      (ofConstants path outer own ds) ∧
      CheckedAt imports top path ((own ++ (ofConstants path outer own ds).map entry) :: outer)
        (sequence checkConstant env ds).1 (ds.foldl Context.declareConstant ctx) := by
  induction ds generalizing env ctx own with
  | nil =>
    refine ⟨.nil, ?_⟩
    rw [ofConstants, List.map_nil, List.append_nil]
    exact h
  | cons d ds ih =>
    obtain ⟨hfirst, hothers⟩ := List.append_eq_nil_iff.mp hnil
    obtain ⟨hagrees, hnext⟩ := h.constant hfirst
    obtain ⟨hall, hlast⟩ := ih hnext hothers
    refine ⟨.cons hagrees hall, ?_⟩
    rw [List.append_assoc] at hlast
    exact hlast

/-- A type section binds no constants. -/
theorem CheckedAt.afterTypes (h : CheckedAt imports top path (own :: outer) env ctx)
    {ds : List TypeDeclaration} (hnil : (env.checkTypeSection ds).2 = []) :
    CheckedAt imports top path ((own ++ bare (ds.map fun d => d.name.name)) :: outer)
      (env.checkTypeSection ds).1 (ds.foldl Context.declareType ctx) := by
  refine ⟨(decides_checkTypeSection h.toMatches ds).next hnil,
    (congrArg List.reverse (keeps_checkTypeSection path_declare env ds)).trans h.path, ?_⟩
  rw [foldl_declareType]
  exact h.settle.bare .type nofun _

/-- A variable section binds no constants. -/
theorem CheckedAt.afterVariables (h : CheckedAt imports top path (own :: outer) env ctx)
    {ds : List VariableDeclaration} (hnil : (sequence checkVariable env ds).2 = []) :
    CheckedAt imports top path
      ((own ++ bare (ds.flatMap VariableDeclaration.variableNames)) :: outer)
      (sequence checkVariable env ds).1 (ds.foldl Context.declareVariables ctx) := by
  refine ⟨(decides_variables h.toMatches ds).next hnil,
    (congrArg List.reverse ((keeps_checkVariable path_declare).sequence env ds)).trans h.path, ?_⟩
  rw [foldl_declareVariables]
  exact h.settle.bare .variable nofun _

/-- The name of a procedure hides constants on both sides. -/
theorem CheckedAt.procedure (h : CheckedAt imports top path (own :: outer) env ctx)
    {p : ProcedureDeclaration} (hnil : (env.declareOther .procedure p.heading.name).2 = []) :
    CheckedAt imports top path ((own ++ bare [p.heading.name.name]) :: outer)
      (env.declareOther .procedure p.heading.name).1 (ctx.declareProcedure p) :=
  ⟨(decides_declareOther .procedure nofun h.toMatches p.heading.name).next hnil,
    (congrArg List.reverse (keeps_declareOther path_declare .procedure env p.heading.name)).trans
      h.path,
    h.settle.bare .procedure nofun [p.heading.name.name]⟩

/-- Behind the parameters; the constants that they hide are hidden in both. -/
theorem CheckedAt.insideProcedure {p : ProcedureDeclaration}
    (h : CheckedAt imports top path (own :: outer)
      (env.declareOther .procedure p.heading.name).1 ctx)
    (hnil : (checkHeading ((env.declareOther .procedure p.heading.name).1.enterProcedure
      p.heading.name.name p.heading.parameterNames) p.heading).2 = []) :
    CheckedAt imports top (path ++ [p.heading.name.name])
      (bare p.heading.parameterNames :: own :: outer)
      (env.insideProcedure p.heading) (Block.procedure ctx p).start := by
  refine ⟨(agrees_heading h.toMatches p).next hnil, ?_, ?_⟩
  · have houter := h.path
    rw [keeps_declareOther path_declare .procedure env p.heading.name] at houter
    rw [path_insideProcedure, List.reverse_cons, houter]
    rfl
  · exact h.settle.push.bare .parameter nofun p.heading.parameterNames

end Environment

section Blocks

variable {imports : List String} {top : String}

mutual

/-- The checker and the places go through the procedures in the same way. -/
theorem Declarations.agreesWith_constantPlaces (d : Declarations) {path : List String}
    {own : Entries}
    {outer : List Entries} {env : Environment} {ctx : Context}
    (h : CheckedAt imports top path (own :: outer) env ctx)
    (hnil : (checkDeclarations d env).2 = []) :
    List.Forall₂ CheckedConstant.AgreesWith (d.checkedConstants env)
      (d.constantPlaces path outer own) := by
  match d with
  | ⟨constants, types, vars, procedures⟩ =>
    rw [checkDeclarations] at hnil
    obtain ⟨hsections, hprocedures⟩ := List.append_eq_nil_iff.mp hnil
    obtain ⟨hsections, hvars⟩ := List.append_eq_nil_iff.mp hsections
    obtain ⟨hconstants, htypes⟩ := List.append_eq_nil_iff.mp hsections
    obtain ⟨hagree, hbehind⟩ := h.afterConstants hconstants
    have hbody := (hbehind.afterTypes htypes).afterVariables hvars
    rw [Declarations.checkedConstants, Declarations.constantPlaces]
    exact List.rel_append hagree
      (ProcedureDeclaration.agreesWith_allConstantPlaces procedures hbody hprocedures)

theorem ProcedureDeclaration.agreesWith_constantPlaces (p : ProcedureDeclaration)
    {path : List String}
    {own : Entries} {outer : List Entries} {env : Environment} {ctx : Context}
    (h : CheckedAt imports top path (own :: outer)
      (env.declareOther .procedure p.heading.name).1 ctx)
    (hnil : procedureFindings (env.declareOther .procedure p.heading.name).1 p = []) :
    List.Forall₂ CheckedConstant.AgreesWith (p.checkedConstants env)
      (p.constantPlaces path (own :: outer)) := by
  match p with
  | ⟨heading, declarations, result, endName⟩ =>
    obtain ⟨hfindings, -⟩ := List.append_eq_nil_iff.mp hnil
    obtain ⟨hheading, hbody⟩ := List.append_eq_nil_iff.mp hfindings
    rw [ProcedureDeclaration.checkedConstants, ProcedureDeclaration.constantPlaces]
    exact declarations.agreesWith_constantPlaces (h.insideProcedure hheading) hbody

theorem ProcedureDeclaration.agreesWith_allConstantPlaces (ps : List ProcedureDeclaration)
    {path : List String} {own : Entries} {outer : List Entries} {env : Environment} {ctx : Context}
    (h : CheckedAt imports top path (own :: outer) env ctx)
    (hnil : (checkProcedures ps env).2 = []) :
    List.Forall₂ CheckedConstant.AgreesWith (ProcedureDeclaration.allCheckedConstants env ps)
      (ProcedureDeclaration.allConstantPlaces path outer own ps) := by
  match ps with
  | [] =>
    rw [ProcedureDeclaration.allCheckedConstants, ProcedureDeclaration.allConstantPlaces]
    exact .nil
  | p :: ps =>
    rw [checkProcedures] at hnil
    obtain ⟨hfirst, hothers⟩ := List.append_eq_nil_iff.mp hnil
    rw [checkProcedure_eq] at hfirst hothers
    obtain ⟨hname, hinside⟩ := List.append_eq_nil_iff.mp hfirst
    have hbehind := h.procedure hname
    rw [ProcedureDeclaration.allCheckedConstants, ProcedureDeclaration.allConstantPlaces,
      checkProcedure_eq]
    exact List.rel_append (p.agreesWith_constantPlaces hbehind hinside)
      (ProcedureDeclaration.agreesWith_allConstantPlaces ps hbehind hothers)

end

end Blocks

/-- Without findings the checker binds the constants of a module to the values at their places. -/
theorem Module.agreesWith_constantPlaces (m : Module) (h : m.findings = []) :
    List.Forall₂ CheckedConstant.AgreesWith m.checkedConstants m.constantPlaces := by
  obtain ⟨hfindings, -⟩ := List.append_eq_nil_iff.mp h
  obtain ⟨himports, hbody⟩ := List.append_eq_nil_iff.mp hfindings
  have hmatches := (agrees_imports (matches_enterModule m.name) (m.imports.getD [])).next himports
  have hpath :
      (sequence declareImport (initial.enterModule m.name) (m.imports.getD [])).1.path.reverse =
      [m.name] := by
    rw [keepsPath_declareImport.sequence]
    rfl
  have hagree : Constants.Agree .empty Context.predeclared.push := Constants.agree_predeclared
  have hsettle :
      Settle [[]] (Context.declareAll .module Context.predeclared.push (m.imports.getD [])) :=
    ⟨.empty, Constants.holds_empty, hagree.declareAll .module nofun _⟩
  exact m.declarations.agreesWith_constantPlaces ⟨hmatches, hpath, hsettle⟩ hbody

/-! ## The evaluator -/

/-- A module without findings has no name twice in a block. -/
theorem Module.nodup_names_of_findings {m : Module} (hprintable : m.Printable)
    (h : m.findings = []) :
    ∀ b ∈ m.blocks, b.names.Nodup := by
  intro b hb
  have hok := m.findings_eq_nil.mp h b hb
  exact ((Block.names_iff (hprintable.proper b hb)).mp ⟨hok.ownNames, hok.declarations.names⟩).1

structure CheckedConstant.RecordedAs (c : CheckedConstant) (recorded : String × Value) : Prop where
  key : recorded.1 = ".".intercalate c.names
  value : c.value? = some recorded.2

/-- What agrees with its place is recorded with the value that the checker found. -/
theorem CheckedConstant.AgreesWith.recordedAs {c : CheckedConstant} {place : ConstantPlace}
    {recorded : String × Value} (h : c.AgreesWith place) (hrecords : place.Records recorded) :
    c.RecordedAs recorded := by
  obtain ⟨value, hresult, hvalue⟩ := h.value
  rw [hrecords.value] at hresult
  cases hresult
  exact ⟨h.names ▸ hrecords.key, hvalue⟩

section Recorded

variable {cs : List CheckedConstant} {places : List ConstantPlace} {values : List (String × Value)}

/-- Every place has a value if the checker agrees with all of them. -/
theorem results_of_agreesWith (h : List.Forall₂ CheckedConstant.AgreesWith cs places) :
    ∀ place ∈ places, ∃ value, place.result = .ok value := by
  induction h with
  | nil => exact nofun
  | cons hagrees _ ih =>
    obtain ⟨value, hresult, -⟩ := hagrees.value
    exact List.forall_mem_cons.mpr ⟨⟨value, hresult⟩, ih⟩

theorem map_declaration_of_agreesWith (h : List.Forall₂ CheckedConstant.AgreesWith cs places) :
    cs.map CheckedConstant.declaration = places.map ConstantPlace.declaration := by
  induction h with
  | nil => rfl
  | cons hagrees _ ih => rw [List.map_cons, List.map_cons, hagrees.declaration, ih]

/-- The constants in the order of the check are recorded in that order. -/
theorem forall₂_recordedAs (h : List.Forall₂ CheckedConstant.AgreesWith cs places)
    (hrecords : List.Forall₂ Records places values) :
    List.Forall₂ CheckedConstant.RecordedAs cs values := by
  induction h generalizing values with
  | nil =>
    cases hrecords
    exact .nil
  | cons hagrees _ ih =>
    cases hrecords with
    | cons hfirst hothers => exact .cons (hagrees.recordedAs hfirst) (ih hothers)

/-- The keys of the records are the names that lead to the constants. -/
theorem keys_of_records (h : List.Forall₂ Records places values) :
    values.map Prod.fst = places.map fun place => ".".intercalate place.names := by
  induction h with
  | nil => rfl
  | cons hrecords _ ih => rw [List.map_cons, List.map_cons, hrecords.key, ih]

/-- No checked constant is left out of the records. -/
theorem exists_recordedAs (h : List.Forall₂ CheckedConstant.RecordedAs cs values) :
    ∀ c ∈ cs, ∃ recorded ∈ values, c.RecordedAs recorded := by
  induction h with
  | nil => exact nofun
  | cons hfirst _ ih =>
    refine List.forall_mem_cons.mpr ⟨⟨_, List.mem_cons_self, hfirst⟩, fun c hc => ?_⟩
    obtain ⟨recorded, hmem, hrecorded⟩ := ih c hc
    exact ⟨recorded, List.mem_cons_of_mem _ hmem, hrecorded⟩

/-- With distinct keys a look-up finds every entry. -/
theorem lookup_of_nodup_keys (hkeys : (values.map Prod.fst).Nodup) {key : String} {value : Value}
    (hmem : (key, value) ∈ values) : values.lookup key = some value := by
  obtain ⟨before, behind, rfl⟩ := List.append_of_mem hmem
  rw [List.map_append, List.map_cons, List.nodup_middle, List.nodup_cons, List.mem_append] at hkeys
  refine List.lookup_eq_some_iff.mpr ⟨before, behind, rfl, fun entry hentry => bne_iff_ne.mpr ?_⟩
  rintro rfl
  exact hkeys.1 (.inl (List.mem_map.mpr ⟨entry, hentry, rfl⟩))

end Recorded

/-- The run cannot stop before a constant that has a value. -/
theorem Evaluator.evaluateNode_of_results {m : Module}
    (h : ∀ place ∈ m.constantPlaces, ∃ value, place.result = .ok value) :
    ∃ ev, initial.evaluateNode (.root m) = .ok ev ∧
      List.Forall₂ Records m.constantPlaces ev.values := by
  have hruns := runs_module m
  generalize initial.evaluateNode (.root m) = work at hruns ⊢
  cases hruns with
  | done ev recorded hrecorded hvalues _ => exact ⟨ev, rfl, hvalues ▸ hrecorded⟩
  | stopped ev recorded before later place error hplaces herror hrecorded hvalues =>
    obtain ⟨value, hvalue⟩ := h place (hplaces ▸ List.mem_append_right before List.mem_cons_self)
    rw [herror] at hvalue
    cases hvalue

/-- If the check of a parsed module gives no remark, the evaluator records each constant of its
tree once, with the value to which the checker binds it.  No two constants have the same key, so
every value is found by the key of its constant. -/
theorem Module.evaluator_agrees_with_checker (source : String) (m : Module)
    (h : Source.module source = .ok m) (hcheck : m.check = []) :
    ∃ ev, Evaluator.initial.evaluateNode (.root m) = .ok ev ∧
      m.checkedConstants.map CheckedConstant.declaration = (Node.root m).tree.constants ∧
      List.Forall₂ CheckedConstant.RecordedAs m.checkedConstants ev.values ∧
      (ev.values.map Prod.fst).Nodup ∧
      ∀ c ∈ m.checkedConstants, ev.valueOf (".".intercalate c.names) = c.value? := by
  have hprintable := Module.printable_of_source h
  have hfindings : m.findings = [] := List.map_eq_nil_iff.mp hcheck
  have hagree := m.agreesWith_constantPlaces hfindings
  obtain ⟨ev, hrun, hrecords⟩ := Evaluator.evaluateNode_of_results (results_of_agreesWith hagree)
  have hrecorded := forall₂_recordedAs hagree hrecords
  have hkeys : (ev.values.map Prod.fst).Nodup := by
    rw [keys_of_records hrecords]
    exact hprintable.nodup_keys (Module.nodup_names_of_findings hprintable hfindings)
  refine ⟨ev, hrun, ?_, hrecorded, hkeys, fun c hc => ?_⟩
  · rw [← m.map_declaration_constantPlaces]
    exact map_declaration_of_agreesWith hagree
  · obtain ⟨recorded, hmem, hvalue⟩ := exists_recordedAs hrecorded c hc
    rw [hvalue.value, ← hvalue.key]
    exact lookup_of_nodup_keys hkeys hmem

def scaleModule : Module where
  name := "Scales"
  imports := some ["N"]
  declarations := {
    constants := [⟨⟨"step", true⟩, ⟨none, ⟨.number (.integer 3), []⟩, []⟩⟩]
    types :=
      [⟨⟨"Row", false⟩, .array [⟨none, ⟨.name ⟨none, "step"⟩, []⟩, []⟩] (.named ⟨some "N", "T"⟩)⟩]
    vars := [⟨[⟨"row", false⟩], .named ⟨none, "Row"⟩⟩]
    procedures := [{
      heading := ⟨⟨"Wide", true⟩, none⟩
      declarations := {
        constants :=
          [⟨⟨"step", false⟩, ⟨none, ⟨.name ⟨none, "step"⟩, [⟨.times, .number (.integer 5)⟩]⟩, []⟩⟩,
          ⟨⟨"last", false⟩, ⟨none, ⟨.name ⟨none, "step"⟩, []⟩,
            [⟨.minus, ⟨.number (.integer 1), []⟩⟩]⟩⟩]
        types := []
        vars := []
        procedures := [] }
      result := none
      endName := "Wide" }] }
  endName := "Scales"

/-- Both passes give the inner `step` the value 15 from the outer one. -/
theorem Module.evaluator_agrees_with_checker_scales :
    Source.module (scaleModule.source 2) = .ok scaleModule ∧ scaleModule.check = [] ∧
      ∃ ev, Evaluator.initial.evaluateNode (.root scaleModule) = .ok ev ∧
        (scaleModule.checkedConstants.map fun c => ev.valueOf (".".intercalate c.names)) =
          [some (.integer 3), some (.integer 15), some (.integer 14)] := by
  have hprintable : scaleModule.Printable := by decide +kernel
  have hsource := hprintable.module_source 2
  have hcheck : scaleModule.check = [] := List.isEmpty_iff.mp (by decide +kernel)
  obtain ⟨ev, hrun, -, -, -, hvalues⟩ := Module.evaluator_agrees_with_checker _ _ hsource hcheck
  refine ⟨hsource, hcheck, ev, hrun, ?_⟩
  rw [List.map_congr_left hvalues]
  decide +kernel

end Oberon
