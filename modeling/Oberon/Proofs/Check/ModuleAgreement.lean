import Oberon.Proofs.Check.BlockAgreement

/-!
# Checking modules

The induction over the procedures of a block, which are blocks themselves.  A procedure is checked
in the environment behind its name; behind its parameters the environment matches the context
again, because the constants that the parameters hide were hidden before.
-/

namespace Oberon

namespace Environment

open Context

variable {imports : List String} {env outer : Environment} {ctx : Context}

/-! ## The end of a block -/

theorem endNameProblems_eq_nil {body : Body} {name endName : String} :
    endNameProblems body name endName = [] ↔ endName = name := by
  unfold endNameProblems
  split <;> simp [*]

/-- A result is in order if its names are values and it is there exactly when it has to be. -/
theorem MatchesNames.resultProblems_eq_nil (h : MatchesNames imports env ctx)
    {heading : ProcedureHeading} {result : Option Expression} :
    env.resultProblems heading result = [] ↔
      (∀ u ∈ result.toList.flatMap fun e => e.names.map (.inside ctx), ValueOk imports u) ∧
        (result.isSome ↔ ∃ p ∈ heading.parameters, p.result.isSome) := by
  have hresult : (∃ p ∈ heading.parameters, p.result.isSome) ↔
      (heading.parameters.any fun p => p.result.isSome) = true := by
    cases heading.parameters <;> simp
  rw [hresult]
  unfold resultProblems
  cases result with
  | none =>
    cases heading.parameters.any fun p => p.result.isSome <;> simp
  | some value =>
    rw [List.append_eq_nil_iff, h.values_ok]
    cases heading.parameters.any fun p => p.result.isSome <;> simp

/-! ## Procedures -/

/-- The constants that the parameters hide are hidden before the parameters are declared. -/
theorem agrees_heading (h : Matches imports outer ctx) (p : ProcedureDeclaration) :
    Agrees (Matches imports)
      (checkHeading (outer.enterProcedure p.heading.name.name p.heading.parameterNames) p.heading)
      (Block.procedure ctx p).start
      (Fresh ctx.push p.heading.parameterNames ∧
        ∀ u ∈ p.heading.parameters.toList.flatMap (FormalParameters.uses ctx.push),
          TypeOk imports u) := by
  have hinner : MatchesHeading imports
      (Constants.hideAll outer.constants.push p.heading.parameterNames)
      (outer.enterProcedure p.heading.name.name p.heading.parameterNames) ctx.push :=
    ⟨h.toMatchesNames.push rfl rfl, rfl⟩
  -- the parameters are declared in the symbols one by one, and all at once in the constants
  have hkind : SymbolKind.parameter ≠ .constant := nofun
  have hagree : (Constants.hideAll outer.constants.push p.heading.parameterNames).Agree
      (Block.procedure ctx p).start := h.constants.push.hideAll hkind p.heading.parameterNames
  obtain ⟨hclean, hnext⟩ := decides_optionalParameters hinner p.heading.parameters
  refine ⟨hclean, fun hnil => ?_⟩
  have hmatches := hnext hnil
  exact ⟨hmatches.toMatchesNames, hmatches.constants ▸ hagree⟩

/-- Behind its body a procedure is checked for its result and its closing name. -/
theorem agrees_end {p : ProcedureDeclaration}
    (h : Matches imports env (p.declarations.afterAll (Block.procedure ctx p).start)) :
    Agrees (Matches imports)
      (env, env.report (env.resultProblems p.heading p.result ++
        endNameProblems .procedure p.heading.name.name p.endName))
      (p.declarations.afterAll (Block.procedure ctx p).start)
      (((∀ u ∈ (Block.procedure ctx p).resultUses, ValueOk imports u) ∧
        (p.result.isSome ↔ ∃ q ∈ p.heading.parameters, q.result.isSome)) ∧
        p.endName = p.heading.name.name) := by
  refine ⟨?_, fun _ => h⟩
  rw [report_eq_nil, List.append_eq_nil_iff, h.toMatchesNames.resultProblems_eq_nil,
    endNameProblems_eq_nil]
  rfl

-- The findings behind the name of a procedure.
def procedureFindings (outer : Environment) (p : ProcedureDeclaration) : List Finding :=
  let head :=
    checkHeading (outer.enterProcedure p.heading.name.name p.heading.parameterNames) p.heading
  let body := checkDeclarations p.declarations head.1
  head.2 ++ body.2 ++ body.1.report (body.1.resultProblems p.heading p.result ++
    endNameProblems .procedure p.heading.name.name p.endName)

/-- A procedure is checked as its name and what stands behind the name. -/
theorem checkProcedure_eq (p : ProcedureDeclaration) (env : Environment) :
    checkProcedure p env = ((env.declareOther .procedure p.heading.name).1,
      (env.declareOther .procedure p.heading.name).2 ++
        procedureFindings (env.declareOther .procedure p.heading.name).1 p) := by
  obtain ⟨heading, declarations, result, endName⟩ := p
  rw [checkProcedure, procedureFindings, ← List.append_assoc, ← List.append_assoc]

def AgreeIn (imports : List String) (ctx : Context) (d : Declarations) : Prop :=
  ∀ env, Matches imports env ctx →
    Agrees (Matches imports) (checkDeclarations d env) (d.afterAll ctx)
    (d.Ok imports ctx ∧ ∀ b ∈ d.blocks ctx, b.Ok imports)

/-- Nothing is found behind the name of a procedure exactly if its blocks obey the rules. -/
theorem procedureFindings_eq_nil (h : Matches imports outer ctx) (p : ProcedureDeclaration)
    (hdeclarations : AgreeIn imports (Block.procedure ctx p).start p.declarations) :
    procedureFindings outer p = [] ↔ ∀ b ∈ p.allBlocks ctx, b.Ok imports := by
  have hall := ((agrees_heading h p).andThen (hdeclarations _)).andThen agrees_end
  rw [p.allBlocks_eq, List.forall_mem_cons]
  refine hall.clean.trans ?_
  constructor
  · rintro ⟨⟨⟨hown, hparameters⟩, hok, hblocks⟩, ⟨hresults, hreturns⟩, hclosing⟩
    exact ⟨⟨hown, hparameters, hok, hresults, hreturns, hclosing⟩, hblocks⟩
  · rintro ⟨⟨hown, hparameters, hok, hresults, hreturns, hclosing⟩, hblocks⟩
    exact ⟨⟨⟨hown, hparameters⟩, hok, hblocks⟩, ⟨hresults, hreturns⟩, hclosing⟩

/-- A procedure is checked by its rules if its declarations are.  Of its body nothing is left. -/
theorem agrees_procedure (h : Matches imports env ctx) (p : ProcedureDeclaration)
    (hdeclarations :
      AgreeIn imports (Block.procedure (ctx.declareProcedure p) p).start p.declarations) :
    Agrees (Matches imports) (checkProcedure p env) (ctx.declareProcedure p)
      (ctx.MayDeclare [p.heading.name] ∧
        ∀ b ∈ p.allBlocks (ctx.declareProcedure p), b.Ok imports) := by
  have hname := decides_declareOther .procedure nofun h p.heading.name
  have hbody (houter : Matches imports (env.declareOther .procedure p.heading.name).1
      (ctx.declareProcedure p)) : Agrees (Matches imports)
        ((env.declareOther .procedure p.heading.name).1,
          procedureFindings (env.declareOther .procedure p.heading.name).1 p)
        (ctx.declareProcedure p) (∀ b ∈ p.allBlocks (ctx.declareProcedure p), b.Ok imports) :=
    ⟨procedureFindings_eq_nil houter p hdeclarations, fun _ => houter⟩
  rw [checkProcedure_eq]
  exact hname.andThen hbody

end Environment

open Environment

section Blocks

variable {imports : List String}

mutual

-- The induction follows the procedures; every procedure brings the blocks inside it.
theorem Declarations.agrees_check (d : Declarations) {env : Environment} {ctx : Context}
    (h : Matches imports env ctx) :
    Agrees (Matches imports) (checkDeclarations d env) (d.afterAll ctx)
      (d.Ok imports ctx ∧ ∀ b ∈ d.blocks ctx, b.Ok imports) := by
  match d with
  | ⟨constants, types, vars, procedures⟩ =>
    have hconstants := decides_constants h constants
    have htypes := hconstants.andThen fun h => decides_checkTypeSection h types
    have hvariables := htypes.andThen fun h => decides_variables h vars
    have hall := hvariables.andThen fun h => ProcedureDeclaration.agrees_checkAll procedures h
    refine hall.congr ?_
    rw [Declarations.ok_iff, Declarations.blocks]
    constructor
    · rintro ⟨⟨⟨hc, ht⟩, hv⟩, hp, hblocks⟩
      exact ⟨⟨hc, ht, hv, hp⟩, hblocks⟩
    · rintro ⟨⟨hc, ht, hv, hp⟩, hblocks⟩
      exact ⟨⟨⟨hc, ht⟩, hv⟩, hp, hblocks⟩

/-- A procedure is without findings exactly if its name may be declared and its blocks are fine.
-/
theorem ProcedureDeclaration.agrees_check (p : ProcedureDeclaration) {env : Environment}
    {ctx : Context} (h : Matches imports env ctx) :
    Agrees (Matches imports) (checkProcedure p env) (ctx.declareProcedure p)
      (ctx.MayDeclare [p.heading.name] ∧ ∀ b ∈ p.allBlocks (ctx.declareProcedure p),
        b.Ok imports) := by
  match p with
  | ⟨heading, declarations, result, endName⟩ =>
    exact agrees_procedure h _ fun _ hinner => declarations.agrees_check hinner

theorem ProcedureDeclaration.agrees_checkAll (ps : List ProcedureDeclaration) {env : Environment}
    {ctx : Context} (h : Matches imports env ctx) :
    Agrees (Matches imports) (checkProcedures ps env) (ps.foldl Context.declareProcedure ctx)
      (ctx.MayDeclare (ps.map fun p => p.heading.name) ∧
        ∀ b ∈ ProcedureDeclaration.blocks ctx ps, b.Ok imports) := by
  match ps with
  | [] => exact ⟨⟨fun _ => ⟨⟨Context.fresh_nil ctx, nofun⟩, nofun⟩, fun _ => rfl⟩, fun _ => h⟩
  | p :: ps =>
    have hall := (p.agrees_check h).andThen fun h => ProcedureDeclaration.agrees_checkAll ps h
    refine hall.congr ?_
    rw [ProcedureDeclaration.blocks, List.forall_mem_append, and_and_and_comm,
      ← adds_declareProcedure.mayDeclare_append]
    rfl

end

end Blocks

/-! ## Modules -/

namespace Environment

open Context

variable {imports : List String} {env : Environment} {ctx : Context}

/-- An import is known as a module behind its declaration. -/
theorem agrees_declareImport (h : Matches imports env ctx) (name : String) :
    Agrees (Matches (name :: imports)) (env.declareImport name) (ctx.declare .module name)
      (ctx.Fresh [name]) := by
  have hiff : (env.declare name ⟨.module, false⟩ (some none)).2 = [] ↔ ctx.Fresh [name] :=
    h.declare_eq_nil.trans (and_iff_left nofun)
  refine ⟨hiff, fun hnil => ?_⟩
  have hbound : Matches imports (env.bound name ⟨.module, false⟩ (some none))
      (ctx.declare .module name) :=
    h.bound rfl nofun
  rw [← h.declare_fst (hiff.mp hnil)] at hbound
  exact ⟨⟨hbound.symbols, congrArg (name :: ·) hbound.imports⟩, hbound.constants⟩

/-- The imported modules are known from their declaration on, so they grow along the list. -/
theorem agrees_imports (h : Matches imports env ctx) (names : List String) :
    Agrees (Matches (names.reverse ++ imports)) (sequence declareImport env names)
      (ctx.declareAll .module names) (ctx.Fresh names) := by
  induction names generalizing imports env ctx with
  | nil => exact ⟨⟨fun _ => fresh_nil ctx, fun _ => rfl⟩, fun _ => h⟩
  | cons name names ih =>
    have hlocal (other : String) : (ctx.declare .module name).isLocal other =
        (decide (other ∈ [name]) || ctx.isLocal other) :=
          isLocal_declareAll .module ctx [name] other
    have hall := (agrees_declareImport h name).andThen ih
    rw [← fresh_append hlocal] at hall
    rw [List.reverse_cons, List.append_assoc]
    exact hall

theorem matches_enterModule (name : String) :
    Matches [] (initial.enterModule name) Context.predeclared.push :=
  ⟨⟨rfl, rfl⟩, Constants.agree_predeclared⟩

end Environment

/-- There are no findings exactly if all blocks obey the rules. -/
theorem Module.findings_eq_nil (m : Module) :
    m.findings = [] ↔ ∀ b ∈ m.blocks, b.Ok (m.imports.getD []).reverse := by
  have himports := agrees_imports (matches_enterModule m.name) (m.imports.getD [])
  rw [List.append_nil] at himports
  have hall := himports.andThen fun h => m.declarations.agrees_check h
  have hsplit : m.findings = [] ↔ _ := List.append_eq_nil_iff
  rw [hsplit, hall.clean, report_eq_nil, endNameProblems_eq_nil, Module.blocks,
    List.forall_mem_cons]
  constructor
  · rintro ⟨⟨hown, hok, hblocks⟩, hclosing⟩
    exact ⟨⟨hown, nofun, hok, nofun, ⟨nofun, nofun⟩, hclosing⟩, hblocks⟩
  · rintro ⟨hmodule, hblocks⟩
    exact ⟨⟨hmodule.ownNames, hmodule.declarations, hblocks⟩, hmodule.closingName⟩

end Oberon
