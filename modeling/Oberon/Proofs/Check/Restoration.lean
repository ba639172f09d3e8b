import Oberon.Proofs.Check.Visits

/-!
# A checker puts back its state

Main statement: a checker that has visited any nodes can visit any other one.  No visit fails,
each leaves the checker outside of all bodies and scopes again, remarks are only added, and each
names the bodies that are open when it is made.
-/

namespace Oberon.Checker

variable {c c' : Checker} {env : Environment} {findings : List Finding} {targets : List Qualident}
  {visit : Visit}

/-! ## Declarations -/

/-- A type declaration is visited as it is checked. -/
theorem visits_typeDeclaration (d : TypeDeclaration) (c : Checker) :
    Visits (typeDeclaration d) c (c.environment.checkType c.forwardPointers.isSome d).1
      (c.environment.checkType c.forwardPointers.isSome d).2
        (d.type.forwardTargets c.environment) := by
  have htype : Visits (within .type (type d.type)) c c.environment
      (d.type.check c.environment c.forwardPointers.isSome) (d.type.forwardTargets c.environment) :=
    Visits.within (visits_type d.type { c with role := .type })
  rw [← List.append_nil (d.type.forwardTargets c.environment)]
  refine htype.bind fun after houtcome => .of_outcome ?_
  have hdeclared := outcome_declare after d.name.name ⟨.type, d.name.exported⟩
  rw [houtcome.environment] at hdeclared
  exact hdeclared

/-- A list of type declarations is visited as it is checked, with the pointers pending. -/
theorem visits_types (ds : List TypeDeclaration) (h : c.forwardPointers.isSome = true) :
    Visits (each typeDeclaration ds) c (c.environment.checkTypes ds).1
      (c.environment.checkTypes ds).2.1
      (c.environment.checkTypes ds).2.2 := by
  induction ds generalizing c with
  | nil => exact ⟨c, rfl, .refl c⟩
  | cons d ds ih =>
    have hfirst := visits_typeDeclaration d c
    rw [h] at hfirst
    refine hfirst.bind fun after houtcome => ?_
    have hrest := ih (houtcome.isSome_forwardPointers.trans h)
    rw [houtcome.environment] at hrest
    exact hrest

/-- The pointers of a section are settled at its end, so those of the section around it are
pending again. -/
theorem visits_typeSection (ds : List TypeDeclaration) (c : Checker) :
    Visits (typeSection ds) c (c.environment.checkTypeSection ds).1
      (c.environment.checkTypeSection ds).2 [] := by
  obtain ⟨after, hvisit, houtcome⟩ :=
    visits_types (c := { c with forwardPointers := some [] }) ds rfl
  have hpending : after.forwardPointers = some (c.environment.checkTypes ds).2.2 :=
    houtcome.forwardPointers
  have hrestored : Outcome c (c.environment.checkTypes ds).1 (c.environment.checkTypes ds).2.1 []
      { after with forwardPointers := c.forwardPointers } :=
    ⟨houtcome.environment, houtcome.frame, (Outcome.refl c).forwardPointers, houtcome.log⟩
  obtain ⟨last, hlast, houtcome'⟩ := visits_references .type (c.environment.checkTypes ds).2.2
    { after with forwardPointers := c.forwardPointers }
  rw [hrestored.environment] at houtcome'
  refine ⟨last, ?_, hrestored.trans houtcome'⟩
  rw [typeSection, hvisit]
  show within .type (references (after.forwardPointers.getD [])) _ = _
  rw [hpending]
  exact hlast

/-- Outside of a type section no target is left for later. -/
theorem Visits.outside (h : Visits visit c env findings targets)
    (hnone : c.forwardPointers = none) :
    Visits visit c env findings [] := by
  obtain ⟨after, hvisit, houtcome⟩ := h
  have hpointers := houtcome.forwardPointers
  rw [hnone] at hpointers
  refine ⟨after, hvisit, houtcome.environment, houtcome.frame, ?_, houtcome.log⟩
  rw [hpointers, hnone]
  rfl

theorem visits_type_outside (t : TypeExpr) (h : c.forwardPointers = none) :
    Visits (type t) c c.environment (t.check c.environment false) [] := by
  have htype := visits_type t c
  rw [h] at htype
  exact htype.outside h

/-- A variable declaration is visited as it is checked. -/
theorem visits_variableDeclaration (d : VariableDeclaration) (h : c.forwardPointers = none) :
    Visits (variableDeclaration d) c (c.environment.checkVariable d).1
      (c.environment.checkVariable d).2 [] := by
  have hnames : Visits (declaringAs .variable (each definingName d.names)) c
      (Environment.sequence (·.declareOther .variable) c.environment d.names).1
      (Environment.sequence (·.declareOther .variable) c.environment d.names).2 [] := by
    refine Visits.declaringAs (visits_each (fun name after hresumes => ?_) d.names)
    exact visits_definingName name (congrArg Frame.declaring hresumes.frame) rfl
  refine hnames.bind fun after houtcome => Visits.within ?_
  have hnone : after.forwardPointers = none := houtcome.resumes.forwardPointers.trans h
  have htype : Visits (type d.type) { after with role := .type } after.environment
      (d.type.check after.environment false) [] := visits_type_outside d.type hnone
  rw [houtcome.environment] at htype
  exact htype

/-! ## Bodies -/

theorem outcome_closingName (c : Checker) (body : Body) (name endName : String) :
    Outcome c c.environment (c.environment.report (Environment.endNameProblems body name endName))
      []
      (c.closingName body name endName) :=
  outcome_reportAll c _

/-- A result is visited as it is checked. -/
theorem visits_result (heading : ProcedureHeading) (value : Option Expression) (c : Checker) :
    Visits (result heading value) c c.environment
      (c.environment.report (c.environment.resultProblems heading value)) [] := by
  unfold result Environment.resultProblems
  cases heading.parameters.any fun parameters => parameters.result.isSome with
  | true =>
    cases value with
    | none =>
      exact .of_outcome (f := (·.report (.missingReturn heading.name.name))) (outcome_report c _)
    | some value => exact visits_references .value value.names c
  | false =>
    cases value with
    | none => exact ⟨c, rfl, .refl c⟩
    | some value =>
      have hreport := outcome_report c (.unexpectedReturn heading.name.name)
      have hvalue := visits_references .value value.names
        (c.report (.unexpectedReturn heading.name.name))
      exact Visits.behind (f := (·.report (.unexpectedReturn heading.name.name))) hreport hvalue

/-- A body that is entered for a visit is left at its end; constants and imports stay known behind
it. -/
theorem Visits.inBody {name : String} (h : Visits visit (c.enter name) env findings []) :
    Visits (inBody name visit) c ⟨c.symbols, env.constants, env.imports, c.path⟩ findings [] := by
  obtain ⟨after, hvisit, houtcome⟩ := h
  have hpop : after.symbols.pop? = some c.symbols := congrArg Frame.symbols houtcome.frame
  have hpath : after.path = name :: c.path := houtcome.path
  refine ⟨{ after with
    symbols := c.symbols
    path := after.path.tail
    log := after.log ++ [.leave] }, ?_, ?_⟩
  · rw [Checker.inBody, hvisit]
    show leave after = _
    rw [leave, dropScope_eq hpop]
    rfl
  · -- the scope and the name of the body are taken away again, the rest is as the visit left it
    have hframe : { after.frame with path := after.path.tail, symbols := c.symbols.pop? } =
        c.frame := by
      rw [houtcome.frame, hpath]
      rfl
    have henvironment :
        Environment.mk c.symbols after.evaluator.constants after.imports after.path.tail =
        ⟨c.symbols, env.constants, env.imports, c.path⟩ := by
      rw [← houtcome.environment, hpath]
      rfl
    obtain ⟨events, hlog, hrecorded⟩ := houtcome.log
    refine ⟨henvironment, hframe, houtcome.forwardPointers, _, ?_, hrecorded.body⟩
    show after.log ++ [.leave] = _
    rw [hlog, enter, List.append_assoc, List.append_assoc, List.append_assoc]

/-- A scope of constants is left with the constants of the scope around it. -/
theorem Visits.inProcedure {name : String} {parameters : List String}
    (h : Visits visit { c with evaluator := (c.evaluator.enter name).hideAll parameters } env
      findings []) :
    Visits (inProcedure name parameters visit) c
      { env with constants := c.evaluator.constants } findings [] := by
  obtain ⟨after, hvisit, houtcome⟩ := h
  -- the visit keeps the scopes around the one that was entered for it
  have hpop : after.evaluator.constants.pop? = some c.evaluator.constants := by
    refine (congrArg Frame.constants houtcome.frame).trans ?_
    exact Constants.pop?_hideAll _ _
  have hpath : after.evaluator.path = name :: c.evaluator.path :=
    congrArg Frame.evaluatorPath houtcome.frame
  have hleave : after.evaluator.leave =
      { after.evaluator with
        constants := c.evaluator.constants
        path := after.evaluator.path.tail } := by
    rw [Evaluator.leave, hpop]
  refine ⟨{ after with evaluator := after.evaluator.leave }, ?_, ?_⟩
  · rw [Checker.inProcedure, hvisit]
    rfl
  · rw [hleave]
    have hframe : { after.frame with
        evaluatorPath := after.evaluator.path.tail
        constants := c.evaluator.constants.pop? } = c.frame := by
      rw [houtcome.frame, hpath]
      rfl
    have henvironment :
        Environment.mk after.symbols c.evaluator.constants after.imports after.path =
        { env with constants := c.evaluator.constants } := by
      rw [← houtcome.environment]
      rfl
    exact ⟨henvironment, hframe, houtcome.forwardPointers, houtcome.log⟩

section Procedure

variable {decls : Declarations}
  (hdecls : ∀ c : Checker, c.forwardPointers = none → Visits (declarations decls) c
    (Environment.checkDeclarations decls c.environment).1
    (Environment.checkDeclarations decls c.environment).2 [])
include hdecls

/-- The inside of a procedure is visited as it is checked. -/
theorem visits_insideProcedure (heading : ProcedureHeading) (value : Option Expression)
    (endName : String)
    (h : c.forwardPointers = none) :
    let start := c.environment.checkHeading heading
    let inner := Environment.checkDeclarations decls start.1
    Visits
      (fun c => do
        let c ← optionalParameters heading.parameters c
        let c ← declarations decls c
        let c ← result heading value c
        return c.closingName .procedure heading.name.name endName)
      c inner.1
      (start.2 ++ (inner.2 ++ (inner.1.report (inner.1.resultProblems heading value) ++
        inner.1.report (Environment.endNameProblems .procedure heading.name.name endName))))
          [] := by
  intro start inner
  refine (visits_optionalParameters heading.parameters c).bind fun c₁ hc₁ => ?_
  have hnone : c₁.forwardPointers = none := hc₁.resumes.forwardPointers.trans h
  have hbody := hdecls c₁ hnone
  rw [hc₁.environment] at hbody
  refine hbody.bind fun c₂ hc₂ => ?_
  have hresult := visits_result heading value c₂
  rw [hc₂.environment] at hresult
  refine hresult.bind fun c₃ hc₃ => .of_outcome ?_
  have hclosing := outcome_closingName c₃ .procedure heading.name.name endName
  rw [hc₃.environment] at hclosing
  exact hclosing

/-- A procedure is visited as it is checked if its declarations are. -/
theorem visits_procedure_of_declarations (heading : ProcedureHeading) (value : Option Expression)
    (endName : String) (h : c.forwardPointers = none) :
    Visits (procedure ⟨heading, decls, value, endName⟩) c
      (Environment.checkProcedure ⟨heading, decls, value, endName⟩ c.environment).1
      (Environment.checkProcedure ⟨heading, decls, value, endName⟩ c.environment).2 [] := by
  let name := heading.name.name
  let outer := (c.declare name ⟨.procedure, heading.name.exported⟩).1
  have hname : Outcome c (c.environment.declareOther .procedure heading.name).1
      (c.environment.declareOther .procedure heading.name).2 [] outer :=
    outcome_declare c name ⟨.procedure, heading.name.exported⟩
  have hnone : outer.forwardPointers = none := hname.resumes.forwardPointers.trans h
  -- the body is visited in the scope of the parameters
  let entered : Checker :=
    { outer.enter name with
      evaluator := (outer.evaluator.enter name).hideAll heading.parameterNames }
  have hinside := visits_insideProcedure hdecls (c := entered) heading value endName hnone
  have himports : (Environment.checkDeclarations decls
      (entered.environment.checkHeading heading).1).1.imports = outer.imports := by
    refine (Environment.keeps_checkDeclarations Environment.imports_declare decls _).trans ?_
    exact congrArg Prod.snd (Environment.keeps_declareParameter.heading entered.environment heading)
  have hbody := Visits.inBody (Visits.inProcedure hinside)
  rw [himports] at hbody
  rw [procedure, Environment.checkProcedure]
  simp only [Environment.report, List.map_append, List.append_assoc]
  rw [← hname.environment]
  exact Visits.behind (f := fun c =>
    (c.declare name ⟨.procedure, heading.name.exported⟩).1) hname hbody

end Procedure

mutual

-- The induction follows the nesting of procedures; pointers are pending in type sections only.
theorem visits_declarations (d : Declarations) (c : Checker) (h : c.forwardPointers = none) :
    Visits (declarations d) c (Environment.checkDeclarations d c.environment).1
      (Environment.checkDeclarations d c.environment).2 [] := by
  match d with
  | ⟨constants, types, vars, procs⟩ =>
    rw [declarations, Environment.checkDeclarations]
    simp only [List.append_assoc]
    refine (visits_each (fun d after _ => visits_constant d after) constants).bind fun c₁ hc₁ => ?_
    rw [← hc₁.environment]
    refine (visits_typeSection types c₁).bind fun c₂ hc₂ => ?_
    rw [← hc₂.environment]
    have hnone : c₂.forwardPointers = none :=
      (hc₂.resumes.forwardPointers.trans hc₁.resumes.forwardPointers).trans h
    have hvars := visits_each (c := c₂)
      (fun d after hresumes => visits_variableDeclaration d
        (hresumes.forwardPointers.trans hnone)) vars
    refine hvars.bind fun c₃ hc₃ => ?_
    rw [← hc₃.environment]
    exact visits_procedures procs c₃ (hc₃.resumes.forwardPointers.trans hnone)

/-- A procedure is visited as it is checked, at any depth. -/
theorem visits_procedure (p : ProcedureDeclaration) (c : Checker) (h : c.forwardPointers = none) :
    Visits (procedure p) c (Environment.checkProcedure p c.environment).1
      (Environment.checkProcedure p c.environment).2 [] := by
  match p with
  | ⟨heading, decls, value, endName⟩ =>
    exact visits_procedure_of_declarations (visits_declarations decls) heading value endName h

theorem visits_procedures (ps : List ProcedureDeclaration) (c : Checker)
    (h : c.forwardPointers = none) :
    Visits (procedures ps) c (Environment.checkProcedures ps c.environment).1
      (Environment.checkProcedures ps c.environment).2 [] := by
  match ps with
  | [] =>
    rw [procedures, Environment.checkProcedures]
    exact ⟨c, rfl, .refl c⟩
  | p :: ps =>
    rw [procedures, Environment.checkProcedures]
    refine (visits_procedure p c h).bind fun after houtcome => ?_
    have hrest := visits_procedures ps after (houtcome.resumes.forwardPointers.trans h)
    rw [houtcome.environment] at hrest
    exact hrest

end

theorem visits_imported (name : String) (c : Checker) :
    Visits (imported name) c (c.environment.declareImport name).1
      (c.environment.declareImport name).2 [] := by
  have hdeclared := outcome_declare c name ⟨.module, false⟩
  refine ⟨_, rfl, ?_, hdeclared.frame, hdeclared.forwardPointers, hdeclared.log⟩
  exact congrArg (fun env : Environment => { env with imports := name :: env.imports })
    hdeclared.environment

/-- A module is visited as it is checked. -/
theorem visits_module (m : Module) (h : c.forwardPointers = none) :
    Visits (module m) c (c.environment.checkModule m).1 (c.environment.checkModule m).2 [] := by
  rw [module, Environment.checkModule]
  simp only [List.append_assoc]
  refine Visits.inBody ?_
  refine (visits_each (fun name after _ => visits_imported name after) (m.imports.getD [])).bind
    fun c₁ hc₁ => ?_
  have hbody := visits_declarations m.declarations c₁ (hc₁.resumes.forwardPointers.trans h)
  rw [hc₁.environment] at hbody
  refine hbody.bind fun c₂ hc₂ => .of_outcome ?_
  have hclosing := outcome_closingName c₂ .module m.name m.endName
  rw [hc₂.environment] at hclosing
  exact hclosing

/-! ## Nodes -/

/-- A checker that is not inside of any visit. -/
structure AtRest (c : Checker) : Prop where
  level : c.symbols.level = 0
  path : c.path = []
  role : c.role = .value
  declaring : c.declaring = none
  forwardPointers : c.forwardPointers = none
  scope : c.evaluator.constants.level = 0

/-- A defining name by itself declares nothing. -/
theorem visits_definingName_at_rest (name : IdentDef) (h : c.declaring = none) :
    Visits (definingName name) c c.environment [] [] := by
  refine ⟨c, ?_, .refl c⟩
  rw [definingName, h]

/-- A node of any kind is visited as it is checked, outside of all bodies. -/
theorem visits_accept (n : Node) (h : c.AtRest) :
    Visits (accept n) c (c.environment.checkNode n).1 (c.environment.checkNode n).2 [] := by
  have hnone := h.forwardPointers
  cases n with
  | root m => exact visits_module m hnone
  | module m => exact visits_module m hnone
  | identDef name => exact visits_definingName_at_rest name h.declaring
  | identDefList names =>
    -- outside of declarations a defining name declares nothing
    have hnames := visits_each_still (c := c) (fun _ _ => []) (fun name after hresumes =>
      visits_definingName_at_rest name
        ((congrArg Frame.declaring hresumes.frame).trans h.declaring)) names
    rw [List.flatMap_eq_nil_iff.mpr fun _ _ => rfl] at hnames
    exact hnames
  | constDeclaration d => exact visits_constant d c
  | typeDeclaration d =>
    -- a declaration without its section: no target is postponed
    have htype := visits_typeDeclaration d c
    rw [hnone] at htype
    exact htype.outside hnone
  | variableDeclaration d => exact visits_variableDeclaration d hnone
  | variableDeclarationList ds =>
    exact visits_each (fun d after hresumes =>
      visits_variableDeclaration d (hresumes.forwardPointers.trans hnone)) ds
  | procedureDeclaration p => exact visits_procedure p c hnone
  | procedureHeading heading => exact visits_optionalParameters heading.parameters c
  | formalParameters p => exact visits_parameters p c
  | parameterSectionList sections =>
    exact visits_each (fun s after _ => visits_parameterSection s after) sections
  | parameterSection s => exact visits_parameterSection s c
  | identifierList names => exact visits_each (fun name after _ => visits_imported name after) names
  | formalType t => exact visits_references .type [t.name] c
  | type t => exact visits_type_outside t hnone
  | typeForm t => exact visits_type_outside t hnone
  | baseType q => exact visits_references .type [q] c
  | fieldList fields =>
    have hfields := visits_fieldList fields c
    rw [hnone] at hfields
    exact hfields.outside hnone
  | fieldListSequence fields =>
    have hreport := outcome_reportAll c (fieldNameProblems fields)
    have hfields := visits_fieldLists fields (c.reportAll (fieldNameProblems fields))
    rw [hreport.environment, hreport.isSome_forwardPointers, hnone] at hfields
    exact (Visits.behind (f := (·.reportAll (fieldNameProblems fields))) hreport hfields).outside
      hnone
  | length e => exact visits_length e c
  | lengthList lengths => exact visits_lengths lengths c
  | _ =>
    have hnames := outcome_references c
    rw [h.role] at hnames
    exact .of_outcome (hnames _)

theorem level_eq_zero_iff {α : Type} {s : Scopes α} : s.level = 0 ↔ s.pop? = none := by
  obtain ⟨inner, outermost⟩ := s
  cases inner with
  | nil => exact iff_of_true rfl rfl
  | cons scope inner => exact iff_of_false nofun nofun

/-- A checker that has resumed is at rest again. -/
theorem AtRest.resumes (h : c.AtRest) (hresumes : Resumes c c') : c'.AtRest where
  level := level_eq_zero_iff.mpr
    ((congrArg Frame.symbols hresumes.frame).trans (level_eq_zero_iff.mp h.level))
  path := (congrArg Frame.path hresumes.frame).trans h.path
  role := (congrArg Frame.role hresumes.frame).trans h.role
  declaring := (congrArg Frame.declaring hresumes.frame).trans h.declaring
  forwardPointers := hresumes.forwardPointers.trans h.forwardPointers
  scope := level_eq_zero_iff.mpr
    ((congrArg Frame.constants hresumes.frame).trans (level_eq_zero_iff.mp h.scope))

theorem atRest_initial : initial.AtRest :=
  ⟨rfl, rfl, rfl, rfl, rfl, rfl⟩

/-- Any nodes in turn are visited as they are checked. -/
theorem visits_acceptAll (nodes : List Node) (h : c.AtRest) :
    Visits (acceptAll nodes) c (Environment.sequence Environment.checkNode c.environment nodes).1
      (Environment.sequence Environment.checkNode c.environment nodes).2 [] :=
  visits_each (fun n _ hresumes => visits_accept n (h.resumes hresumes)) nodes

theorem sequence_concat {α : Type} (check : Environment → α → Environment × List Finding)
    (env : Environment)
    (items : List α) (item : α) :
    (Environment.sequence check env (items ++ [item])).2 =
      (Environment.sequence check env items).2 ++
      (check (Environment.sequence check env items).1 item).2 := by
  induction items generalizing env with
  | nil => exact List.append_nil _
  | cons first items ih =>
    show (check env first).2 ++
        (Environment.sequence check (check env first).1 (items ++ [item])).2 = _
    rw [ih, ← List.append_assoc]
    rfl

/-- The remarks of a visit come behind the earlier ones. -/
theorem Outcome.diagnostics (h : Outcome c env findings targets c') :
    c'.diagnostics = c.diagnostics ++ findings.map Finding.diagnostic := by
  obtain ⟨events, hlog, hrecorded⟩ := h.log
  rw [Checker.diagnostics, Checker.diagnostics, hlog, ← hrecorded.remarks]
  exact List.filterMap_append

/-- However many nodes a checker has visited, it can visit another one.  It never fails and is at
rest before and after; its remarks are those of the check in environments, added to the ones
before; and each names the bodies that are open when it is made. -/
theorem accept_restores (nodes : List Node) (n : Node) :
    ∃ c c', acceptAll nodes initial = .ok c ∧ accept n c = .ok c' ∧ c.AtRest ∧ c'.AtRest ∧
      c.diagnostics <+: c'.diagnostics ∧
      (∀ before d after, c'.log = before ++ .remark d :: after →
        d.context = some (dotted (openBodies [] before))) ∧
      c'.diagnostics = (Environment.checkNodes (nodes ++ [n])).map Finding.diagnostic := by
  obtain ⟨c, hnodes, hc⟩ := visits_acceptAll nodes atRest_initial
  have hrest := atRest_initial.resumes hc.resumes
  obtain ⟨c', hnode, hc'⟩ := visits_accept n hrest
  have hboth := hc.trans hc'
  refine ⟨c, c', hnodes, hnode, hrest, hrest.resumes hc'.resumes, ?_, ?_, ?_⟩
  · rw [hc'.diagnostics]
    exact List.prefix_append _ _
  · intro before d after hsplit
    obtain ⟨events, hlog, hrecorded⟩ := hboth.log
    have hevents : events = before ++ .remark d :: after := hlog.symm.trans hsplit
    have hlocated := hrecorded.located
    rw [hevents, located_append] at hlocated
    exact hlocated.2.1 d rfl
  · rw [hboth.diagnostics, Environment.checkNodes, sequence_concat, hc.environment]
    rfl

/-- A procedure `P` by itself, with a procedure `Q` inside it that returns a name nobody
declared. -/
theorem accept_restores_loneProcedure :
    let inner : ProcedureDeclaration := ⟨⟨⟨"Q", true⟩, none⟩, ⟨[], [], [], []⟩,
      some ⟨none, ⟨.name ⟨none, "x"⟩, []⟩, []⟩, "Q"⟩
    let lone : ProcedureDeclaration := ⟨⟨⟨"P", false⟩, none⟩, ⟨[], [], [], [inner]⟩, none, "P"⟩
    ∃ c c', acceptAll [.identifierList ["M"]] initial = .ok c ∧
      accept (.procedureDeclaration lone) c = .ok c' ∧ c'.AtRest ∧
      c'.diagnostics.map Diagnostic.context = [some "P.Q", some "P.Q"] := by
  intro inner lone
  obtain ⟨c, c', hnodes, hnode, -, hrest, -, -, hdiagnostics⟩ :=
    accept_restores [.identifierList ["M"]] (.procedureDeclaration lone)
  refine ⟨c, c', hnodes, hnode, hrest, ?_⟩
  rw [hdiagnostics]
  decide +kernel

end Oberon.Checker
