import Oberon.Proofs.Check.NameErrors
import Oberon.Proofs.Syntax.IdentDefs

/-!
# Reported export marks

Only the definitions of a module can be exported.  Main statement: the checker reports each export
mark inside a procedure once, and none of the module's own, but passes over the marks of record
fields.
-/

namespace Oberon

open Environment

/-! ## Wording -/

def Problem.exportMark? : Problem → Option String
  | exportMark name => some name
  | _ => none

/-- Only the complaint about an export mark has this wording. -/
theorem Problem.message_eq_exportMark_iff {problem : Problem} {name : String} :
    problem.message = "export mark on '" ++ name ++ "' is only allowed at module level" ↔
      problem.exportMark? = some name := by
  constructor
  · intro h
    obtain ⟨c, hc, hmark⟩ := exists_initial_of_message_eq (exportMark name) h
    rw [List.mem_singleton.mp hmark] at hc
    cases problem with
    | exportMark other =>
      have hname : other = name := (String.append_right_inj _).mp ((String.append_left_inj _).mp h)
      rw [hname]
      rfl
    | _ => simp [initials, otherInitials] at hc
  · intro h
    cases problem with
    | exportMark other =>
      rw [Option.some.inj h]
      rfl
    | _ => cases h

/-! ## Problems of other kinds -/

def marks (fs : List Finding) : List String :=
  fs.filterMap fun f => f.problem.exportMark?

/-- Reported marks of two lists of findings, one behind the other. -/
theorem marks_append (fs gs : List Finding) : marks (fs ++ gs) = marks fs ++ marks gs :=
  List.filterMap_append

theorem marks_report (env : Environment) (problems : List Problem) :
    marks (env.report problems) = problems.filterMap Problem.exportMark? :=
  List.filterMap_map

section Problems

variable (env : Environment)

/-- Resolving a name never complains about an export mark. -/
theorem exportMark?_of_resolve {role : Role} {q : Qualident} {problem : Problem}
    (h : (env.resolve role q).problem? = some problem) : problem.exportMark? = none := by
  unfold resolve resolveSymbol Resolution.problem? at h
  grind [Problem.exportMark?]

theorem exportMarks_referenceProblems (role : Role) (names : List Qualident) :
    (env.referenceProblems role names).filterMap Problem.exportMark? = [] := by
  refine List.filterMap_eq_nil_iff.mpr fun problem hproblem => ?_
  obtain ⟨q, -, hq⟩ := List.mem_filterMap.mp hproblem
  exact exportMark?_of_resolve env hq

/-- A constant expression gives rise to no complaint about an export mark. -/
theorem exportMarks_constantValue (e : Expression) :
    (env.constantValue e).1.filterMap Problem.exportMark? = [] := by
  unfold constantValue
  split
  next => split <;> rfl
  next => exact exportMarks_referenceProblems env .constant e.names

theorem exportMarks_lengthProblems (e : Expression) :
    (env.lengthProblems e).filterMap Problem.exportMark? = [] := by
  unfold lengthProblems
  dsimp only
  rw [List.filterMap_append, exportMarks_constantValue, List.nil_append]
  split
  next => rfl
  next => split <;> rfl
  next => rfl

/-- Field names are checked for repetition, not for their marks. -/
theorem exportMarks_fieldNameProblems (fields : List FieldList) :
    (fieldNameProblems fields).filterMap Problem.exportMark? = [] := by
  rw [fieldNameProblems, List.filterMap_map]
  exact List.filterMap_eq_nil_iff.mpr fun _ _ => rfl

theorem exportMarks_endNameProblems (body : Body) (name endName : String) :
    (endNameProblems body name endName).filterMap Problem.exportMark? = [] := by
  unfold endNameProblems
  split <;> rfl

theorem exportMarks_resultProblems (heading : ProcedureHeading) (result : Option Expression) :
    (env.resultProblems heading result).filterMap Problem.exportMark? = [] := by
  unfold resultProblems
  dsimp only
  split
  next =>
    rw [List.filterMap_append, exportMarks_referenceProblems, List.append_nil]
    split <;> rfl
  next => split <;> rfl

end Problems

/-! ## Marks of a scope -/

def exportedNames (defs : List IdentDef) : List String :=
  (defs.filter IdentDef.exported).map IdentDef.name

theorem exportedNames_append (defs others : List IdentDef) :
    exportedNames (defs ++ others) = exportedNames defs ++ exportedNames others := by
  rw [exportedNames, List.filter_append, List.map_append, exportedNames, exportedNames]

theorem exportedNames_flatMap {α : Type} (defs : α → List IdentDef) (xs : List α) :
    exportedNames (xs.flatMap defs) = xs.flatMap fun x => exportedNames (defs x) := by
  rw [exportedNames, List.filter_flatMap, List.map_flatMap]
  rfl

/-- The names whose marks are out of place in a scope of the level. -/
def misplaced (level : Nat) (defs : List IdentDef) : List String :=
  if level = moduleLevel then [] else exportedNames defs

theorem misplaced_nil (level : Nat) : misplaced level [] = [] := by
  unfold misplaced
  split <;> rfl

theorem misplaced_append (level : Nat) (defs others : List IdentDef) :
    misplaced level (defs ++ others) = misplaced level defs ++ misplaced level others := by
  unfold misplaced
  split
  next => rfl
  next => exact exportedNames_append defs others

def Environment.level (env : Environment) : Nat :=
  env.symbols.level

/-- Declaring keeps the level of the innermost scope. -/
theorem level_declare (env : Environment) (name : String) (symbol : Symbol)
    (binding : Option (Option Value)) : (env.declare name symbol binding).1.level = env.level := by
  rw [declare_fst_eq]
  split
  next => rfl
  next => exact Scopes.level_bind _ _ _

/-- Declaring a name reports its mark exactly if it is out of place. -/
theorem marks_declare (env : Environment) (name : String) (symbol : Symbol)
    (binding : Option (Option Value)) : marks (env.declare name symbol binding).2 =
      misplaced env.level [⟨name, symbol.exported⟩] := by
  have hmark : (env.exportProblems name symbol.exported).filterMap Problem.exportMark? =
      misplaced env.level [⟨name, symbol.exported⟩] := by
    unfold exportProblems misplaced exportedNames Environment.level
    cases symbol.exported <;> by_cases hlevel : env.symbols.level = moduleLevel <;>
      simp [hlevel, Problem.exportMark?]
  have hrefused (problem : Problem) (hother : problem.exportMark? = none) :
      marks (env.report (env.exportProblems name symbol.exported ++ [problem])) =
        misplaced env.level [⟨name, symbol.exported⟩] := by
    rw [marks_report, List.filterMap_append, hmark, List.filterMap_cons_none hother,
      List.filterMap_nil, List.append_nil]
  unfold declare
  dsimp only
  split
  next => exact (marks_report _ _).trans hmark
  next => exact hrefused _ rfl
  next => exact hrefused _ rfl

section Sequence

variable {α : Type} {check : Environment → α → Environment × List Finding}

theorem marks_sequence_cons (env : Environment) (x : α) (xs : List α) :
    marks (sequence check env (x :: xs)).2 =
      marks (check env x).2 ++ marks (sequence check (check env x).1 xs).2 :=
  marks_append _ _

/-- All items stand in the same scope. -/
theorem marks_sequence {defs : α → List IdentDef} (hkeeps : Keeps Environment.level check)
    (h : ∀ env x, marks (check env x).2 = misplaced env.level (defs x)) (env : Environment)
    (xs : List α) : marks (sequence check env xs).2 = misplaced env.level (xs.flatMap defs) := by
  induction xs generalizing env with
  | nil => exact (misplaced_nil _).symm
  | cons x xs ih =>
    rw [marks_sequence_cons, h, ih, hkeeps, List.flatMap_cons, misplaced_append]

/-- A sequence reports no marks if none of its items does. -/
theorem marks_sequence_eq_nil (h : ∀ env x, marks (check env x).2 = []) (env : Environment)
    (xs : List α) : marks (sequence check env xs).2 = [] := by
  induction xs generalizing env with
  | nil => rfl
  | cons x xs ih => rw [marks_sequence_cons, h, ih, List.append_nil]

end Sequence

/-! ## Parameters and types -/

/-- A name without a mark is never reported for one. -/
theorem marks_unmarked (env : Environment) (name : String) (kind : SymbolKind)
    (binding : Option (Option Value)) : marks (env.declare name ⟨kind, false⟩ binding).2 = [] := by
  rw [marks_declare]
  unfold misplaced
  split <;> rfl

/-- Parameters have no marks. -/
theorem marks_checkParameters (env : Environment) (p : FormalParameters) :
    marks (env.checkParameters p).2 = [] := by
  have hsection (env : Environment) (s : ParameterSection) :
      marks (env.checkParameterSection s).2 = [] := by
    unfold checkParameterSection
    have hname (env : Environment) (name : String) : marks (env.declareParameter name).2 = [] :=
      marks_unmarked env name .parameter none
    rw [marks_append, marks_sequence_eq_nil hname, marks_report, exportMarks_referenceProblems,
      List.append_nil]
  unfold checkParameters
  rw [marks_append, marks_sequence_eq_nil hsection, marks_report, exportMarks_referenceProblems,
    List.append_nil]

theorem marks_optionalParameters (env : Environment) (p : Option FormalParameters) :
    marks (sequence checkParameters env p.toList).2 = [] :=
  marks_sequence_eq_nil marks_checkParameters env p.toList

mutual

/-- The definitions in a type are those of fields, which are looked at for repetitions only. -/
theorem TypeExpr.marks_check (env : Environment) (forward : Bool) (t : TypeExpr) :
    marks (t.check env forward) = [] := by
  match t with
  | .named q => rw [TypeExpr.check, marks_report, exportMarks_referenceProblems]
  | .array lengths element =>
    have hlengths : (lengths.flatMap env.lengthProblems).filterMap Problem.exportMark? = [] := by
      rw [List.filterMap_flatMap]
      exact List.flatMap_eq_nil_iff.mpr fun e _ => exportMarks_lengthProblems env e
    rw [TypeExpr.check, marks_append, marks_report, hlengths, element.marks_check, List.append_nil]
  | .record base fields =>
    rw [TypeExpr.check, marks_append, marks_append, marks_report, exportMarks_referenceProblems,
      marks_report, exportMarks_fieldNameProblems, FieldList.marks_checkAll, List.append_nil,
      List.append_nil]
  | .pointer target =>
    have ih := target.marks_check env forward
    by_cases hnamed : ∃ q, target = .named q
    · obtain ⟨q, rfl⟩ := hnamed
      rw [TypeExpr.check]
      split
      next => rfl
      next => rw [marks_report, exportMarks_referenceProblems]
    · rw [(check_pointer fun q hq => hnamed ⟨q, hq⟩).1, ih]
  | .procedure parameters => rw [TypeExpr.check, marks_optionalParameters]

/-- The marks of fields are passed over. -/
theorem FieldList.marks_check (env : Environment) (forward : Bool) (fields : FieldList) :
    marks (fields.check env forward) = [] := by
  match fields with
  | ⟨names, type⟩ => rw [FieldList.check, type.marks_check]

theorem FieldList.marks_checkAll (env : Environment) (forward : Bool) (fields : List FieldList) :
    marks (FieldList.checkAll env forward fields) = [] := by
  match fields with
  | [] =>
    rw [FieldList.checkAll]
    rfl
  | first :: others =>
    rw [FieldList.checkAll, marks_append, first.marks_check, FieldList.marks_checkAll,
      List.append_nil]

end

/-! ## Declarations -/

section Declarations

variable (env : Environment)

/-- A constant section reports the marks that are out of place at its level. -/
theorem marks_constants (cs : List ConstDeclaration) :
    marks (sequence checkConstant env cs).2 =
      misplaced env.level (cs.map ConstDeclaration.name) := by
  have hone (env : Environment) (c : ConstDeclaration) :
      marks (env.checkConstant c).2 = misplaced env.level [c.name] := by
    unfold checkConstant
    rw [marks_append, marks_report, exportMarks_constantValue, List.nil_append]
    exact marks_declare env c.name.name _ _
  rw [marks_sequence (keeps_checkConstant level_declare) hone, List.map_eq_flatMap]

theorem marks_declareOther (kind : SymbolKind) (env : Environment) (d : IdentDef) :
    marks (env.declareOther kind d).2 = misplaced env.level [d] :=
  marks_declare env d.name _ _

theorem marks_checkTypes (ds : List TypeDeclaration) :
    marks (env.checkTypes ds).2.1 = misplaced env.level (ds.map TypeDeclaration.name) := by
  induction ds generalizing env with
  | nil => exact (misplaced_nil _).symm
  | cons d ds ih =>
    have hsplit : (env.checkTypes (d :: ds)).2.1 =
        d.type.check env true ++ (env.declareOther .type d.name).2 ++
      ((env.declareOther .type d.name).1.checkTypes ds).2.1 := rfl
    have hlevel := keeps_declareOther level_declare .type env d.name
    rw [hsplit, marks_append, marks_append, d.type.marks_check, List.nil_append,
      marks_declareOther, ih, hlevel, List.map_cons, ← misplaced_append, List.singleton_append]

/-- A type section reports the marks of its types, and none inside them. -/
theorem marks_checkTypeSection (ds : List TypeDeclaration) :
    marks (env.checkTypeSection ds).2 = misplaced env.level (ds.map TypeDeclaration.name) := by
  unfold checkTypeSection
  rw [marks_append, marks_checkTypes, marks_report, exportMarks_referenceProblems, List.append_nil]

/-- A variable section reports the marks that are out of place at its level. -/
theorem marks_variables (ds : List VariableDeclaration) :
    marks (sequence checkVariable env ds).2 =
      misplaced env.level (ds.flatMap VariableDeclaration.names) := by
  have hone (env : Environment) (d : VariableDeclaration) :
      marks (env.checkVariable d).2 = misplaced env.level d.names := by
    unfold checkVariable
    rw [marks_append, d.type.marks_check, List.append_nil,
      marks_sequence (keeps_declareOther level_declare .variable) (marks_declareOther .variable),
      List.flatMap_singleton']
  exact marks_sequence (keeps_checkVariable level_declare) hone env ds

end Declarations

def Declarations.misplacedMarks (level : Nat) (d : Declarations) : List String :=
  misplaced level (d.constants.map ConstDeclaration.name ++ d.types.map TypeDeclaration.name ++
    d.vars.flatMap VariableDeclaration.names) ++
    d.procedures.flatMap fun p => misplaced level [p.heading.name] ++
    exportedNames p.declarations.declared

/-- Inside a procedure every mark is out of place. -/
theorem Declarations.misplacedMarks_of_lt {level : Nat} (h : moduleLevel < level)
    (d : Declarations) :
    d.misplacedMarks level = exportedNames d.declared := by
  have hall (defs : List IdentDef) : misplaced level defs = exportedNames defs :=
    if_neg (Nat.ne_of_gt h)
  rw [misplacedMarks, d.declared_eq, exportedNames_append, exportedNames_flatMap, hall]
  congr 2
  funext p
  rw [hall, ← exportedNames_append, List.singleton_append]

theorem marks_procedureFindings {outer : Environment} (h : moduleLevel ≤ outer.level)
    (p : ProcedureDeclaration)
    (hdeclarations : ∀ env : Environment, moduleLevel < env.level →
      marks (checkDeclarations p.declarations env).2 = exportedNames p.declarations.declared) :
    marks (procedureFindings outer p) = exportedNames p.declarations.declared := by
  unfold procedureFindings
  dsimp only
  have hlevel : (checkHeading (outer.enterProcedure p.heading.name.name p.heading.parameterNames)
      p.heading).1.level = outer.level + 1 :=
    Keeps.heading (fun env name => level_declare env name _ _) _ _
  rw [marks_append, marks_append, hdeclarations _ (hlevel ▸ Nat.lt_succ_of_le h), marks_report,
    List.filterMap_append, exportMarks_resultProblems, exportMarks_endNameProblems, checkHeading,
    marks_optionalParameters, List.append_nil, List.append_nil, List.nil_append]

mutual

-- The induction follows the procedures; inside them every mark is out of place.
theorem Declarations.marks_check (d : Declarations) {env : Environment}
    (h : moduleLevel ≤ env.level) :
    marks (checkDeclarations d env).2 = d.misplacedMarks env.level := by
  match d with
  | ⟨constants, types, vars, procedures⟩ =>
    have hconstants := (keeps_checkConstant level_declare).sequence env constants
    have htypes := keeps_checkTypeSection level_declare
      (sequence checkConstant env constants).1 types
    have hvars := (keeps_checkVariable level_declare).sequence
      ((sequence checkConstant env constants).1.checkTypeSection types).1 vars
    have hlevel := hvars.trans (htypes.trans hconstants)
    rw [checkDeclarations, marks_append, marks_append, marks_append, marks_constants,
      marks_checkTypeSection, marks_variables,
      ProcedureDeclaration.marks_checkAll procedures (hlevel ▸ h), hlevel, htypes, hconstants,
      Declarations.misplacedMarks, misplaced_append, misplaced_append]

/-- The mark of a procedure counts at its own level, those inside it always. -/
theorem ProcedureDeclaration.marks_check (p : ProcedureDeclaration) {env : Environment}
    (h : moduleLevel ≤ env.level) : marks (checkProcedure p env).2 =
      misplaced env.level [p.heading.name] ++ exportedNames p.declarations.declared := by
  have hlevel := keeps_declareOther level_declare .procedure env p.heading.name
  match p with
  | ⟨heading, declarations, result, endName⟩ =>
    rw [checkProcedure_eq, marks_append, marks_declareOther, marks_procedureFindings (hlevel ▸ h)]
    intro inner hinner
    rw [declarations.marks_check (Nat.le_of_lt hinner), declarations.misplacedMarks_of_lt hinner]

theorem ProcedureDeclaration.marks_checkAll (ps : List ProcedureDeclaration) {env : Environment}
    (h : moduleLevel ≤ env.level) : marks (checkProcedures ps env).2 =
      ps.flatMap fun p => misplaced env.level [p.heading.name] ++
        exportedNames p.declarations.declared := by
  match ps with
  | [] =>
    rw [checkProcedures]
    rfl
  | p :: ps =>
    have hlevel : (checkProcedure p env).1.level = env.level := by
      rw [checkProcedure_eq]
      exact keeps_declareOther level_declare .procedure env p.heading.name
    rw [checkProcedures, marks_append, p.marks_check h,
      ProcedureDeclaration.marks_checkAll ps (hlevel ▸ h), hlevel, List.flatMap_cons]

end

/-! ## Modules -/

/-- The checker reports the marks of all names declared inside procedures. -/
theorem Module.marks_findings (m : Module) : marks m.findings =
    m.declarations.procedures.flatMap fun p => exportedNames p.declarations.declared := by
  have himports (env : Environment) (name : String) : marks (env.declareImport name).2 = [] :=
    marks_unmarked env name .module (some none)
  have hkeeps : Keeps Environment.level declareImport :=
    fun env name => level_declare env name ⟨.module, false⟩ (some none)
  have hlevel := hkeeps.sequence (initial.enterModule m.name) (m.imports.getD [])
  have hbody := m.declarations.marks_check (Nat.le_of_eq hlevel.symm)
  unfold Module.findings checkModule
  dsimp only
  rw [marks_append, marks_append, marks_sequence_eq_nil himports, hbody, hlevel, marks_report,
    exportMarks_endNameProblems, List.nil_append, List.append_nil]
  rfl

def Module.localNodes (m : Module) : List Node :=
  m.declarations.procedures.flatMap fun p => p.declarations.preorder

/-- The definitions inside procedures are the declared names and the fields. -/
theorem Module.perm_localIdentDefs (m : Module) : (m.localNodes.filterMap Node.identDef?).Perm
    ((m.declarations.procedures.flatMap fun p => p.declarations.declared) ++
      m.localNodes.flatMap Node.fieldNames) := by
  have hall := List.Perm.flatMap_left m.declarations.procedures fun p _ =>
    p.declarations.perm_identDefs
  rw [localNodes, List.filterMap_flatMap, List.flatMap_assoc]
  exact hall.trans (List.flatMap_append_perm _ _ _).symm

theorem count_exportedNames (name : String) (defs : List IdentDef) :
    (exportedNames defs).count name = defs.count ⟨name, true⟩ := by
  unfold exportedNames List.count
  rw [List.countP_map, List.countP_filter]
  refine List.countP_congr fun d _ => ?_
  obtain ⟨other, exported⟩ := d
  simp

theorem count_marks (name : String) (fs : List Finding) : (marks fs).count name =
    (fs.map fun f => f.diagnostic.message).count
      ("export mark on '" ++ name ++ "' is only allowed at module level") := by
  unfold marks List.count
  rw [List.countP_filterMap, List.countP_map]
  refine List.countP_congr fun f _ => ?_
  rw [Function.comp_apply, beq_iff_eq]
  refine Iff.trans ?_ Problem.message_eq_exportMark_iff.symm
  cases f.problem.exportMark? <;> simp

/-- Every export mark inside a procedure is reported once, apart from those of record fields, and
no other mark is reported. -/
theorem Module.export_marks_reported (m : Module) (name : String) :
    (m.check.map Diagnostic.message).count
        ("export mark on '" ++ name ++ "' is only allowed at module level") +
      (m.localNodes.flatMap Node.fieldNames).count ⟨name, true⟩ =
        (m.localNodes.filterMap Node.identDef?).count ⟨name, true⟩ := by
  have hmessages : m.check.map Diagnostic.message = m.findings.map fun f => f.diagnostic.message :=
    List.map_map
  rw [hmessages, ← count_marks, m.marks_findings, ← exportedNames_flatMap, count_exportedNames,
    ← List.count_append, m.perm_localIdentDefs.count_eq]

def localFieldModule : Module where
  name := "M"
  imports := none
  declarations := {
    constants := []
    types := []
    vars := []
    procedures := [{
      heading := ⟨⟨"P", false⟩, none⟩
      declarations :=
        ⟨[], [], [⟨[⟨"r", false⟩], .record none [⟨[⟨"x", true⟩], .named ⟨none, "INTEGER"⟩⟩]⟩], []⟩
      result := none
      endName := "P" }] }
  endName := "M"

/-- The mark stands inside a procedure, and yet nothing is reported. -/
theorem Module.localField_mark_not_reported :
    Source.module (localFieldModule.source 2) = .ok localFieldModule ∧
      (localFieldModule.localNodes.filterMap Node.identDef?).count ⟨"x", true⟩ = 1 ∧
      localFieldModule.check = [] := by
  have hprintable : localFieldModule.Printable := by decide +kernel
  exact ⟨hprintable.module_source 2, by decide +kernel, by decide +kernel⟩

end Oberon
