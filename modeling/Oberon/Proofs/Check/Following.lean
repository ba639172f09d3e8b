import Oberon.Proofs.Check.Inspections
import Oberon.Proofs.Check.ModuleAgreement

/-!
# Following the checker

One lemma for each form of declaration: what the checker finds in it are the findings of its
inspections, and it leads from point to point.  Main statement: the findings in a module are those
of its inspections, whatever errors it has, and at every inspection the environment of the checker
says what the context says.
-/

namespace Oberon

open Environment

/-- The check finds what the inspections find and leads to the next point, and all inspections are
tracked. -/
structure Follows (related : Point → Prop) (outcome : Environment × List Finding) (next : Point)
    (inspections : List Inspection) : Prop where
  env : outcome.1 = next.env
  findings : outcome.2.Perm (inspections.flatMap Inspection.findings)
  tracked : ∀ i ∈ inspections, i.Tracked
  next : related next

section Follows

variable {related related' : Point → Prop} {first second : Environment × List Finding} {p q : Point}
  {inspections others : List Inspection}

/-- Two checks one after the other, each followed by its own inspections. -/
theorem Follows.andThen (h : Follows related first p inspections)
    (hsecond : Follows related' second q others) :
    Follows related' (second.1, first.2 ++ second.2) q (inspections ++ others) := by
  refine ⟨hsecond.env, ?_, List.forall_mem_append.mpr ⟨h.tracked, hsecond.tracked⟩, hsecond.next⟩
  rw [List.flatMap_append]
  exact h.findings.append hsecond.findings

/-- Each item is checked in the environment that the one before leaves. -/
theorem follows_sequence {α : Type} {check : Environment → α → Environment × List Finding}
    {step : Point → α → Point} {inspect : Point → α → List Inspection}
    (h : ∀ ⦃p⦄, related p → ∀ x, Follows related (check p.env x) (step p x) (inspect p x))
    (hp : related p) (xs : List α) :
    Follows related (sequence check p.env xs) (xs.foldl step p) (p.along step inspect xs) := by
  induction xs generalizing p with
  | nil => exact ⟨rfl, .nil, List.forall_mem_nil _, hp⟩
  | cons x xs ih =>
    have hfirst := h hp x
    have hothers := ih hfirst.next
    rw [← hfirst.env] at hothers
    exact hfirst.andThen hothers

/-- Of the environment nothing changes. -/
theorem follows_here {findings : List Finding} (hp : related p)
    (hfindings : findings.Perm (inspections.flatMap Inspection.findings))
    (htracked : ∀ i ∈ inspections, i.Tracked) : Follows related (p.env, findings) p inspections :=
  ⟨rfl, hfindings, htracked, hp⟩

end Follows

/-! ### Names -/

section Names

variable {p : Point}

theorem Point.Named.tracked_inside (h : p.Named) {item : Item}
    (hitem : (Inspection.inside p item).expression? = none) : (Inspection.inside p item).Tracked :=
  ⟨h, h, fun e he => by rw [hitem] at he; cases he⟩

/-- Where the constants are tracked, every inspection is. -/
theorem Point.Tracks.tracked_inside (h : p.Tracks) (item : Item) :
    (Inspection.inside p item).Tracked :=
  ⟨h.named, h.named, fun _ _ => h⟩

/-- What is found does not depend on the binding. -/
theorem Environment.declare_snd (env : Environment) (name : String) (symbol : Symbol)
    (binding : Option (Option Value)) :
    (env.declare name symbol binding).2 = (env.declare name symbol none).2 := by
  unfold declare
  cases env.symbols.insert name symbol with
  | ok symbols => rfl
  | error error => cases error <;> rfl

/-- A declaration finds what the inspection of its name finds. -/
theorem perm_declared (p : Point) (name : String) (symbol : Symbol)
    (binding : Option (Option Value)) :
    (p.env.declare name symbol binding).2.Perm
      ([Inspection.inside p (.declared name symbol)].flatMap Inspection.findings) := by
  rw [declare_snd, List.flatMap_singleton]
  exact .rfl

/-- A parameter leads to the point behind it. -/
theorem follows_parameter ⦃p : Point⦄ (h : p.Named) (name : String) :
    Follows Point.Named (p.env.declareParameter name) (p.parameter name)
      (p.inspectParameter name) :=
  ⟨rfl, perm_declared p name _ _, List.forall_mem_singleton.mpr (h.tracked_inside rfl),
    h.parameter name⟩

theorem follows_imported ⦃p : Point⦄ (h : p.Tracks) (name : String) :
    Follows Point.Tracks (p.env.declareImport name) (p.imported name) (p.inspectImported name) :=
  ⟨rfl, perm_declared p name _ (some none), List.forall_mem_singleton.mpr (h.tracked_inside _),
    h.imported name⟩

/-- A type, variable or procedure leads to the point behind its name. -/
theorem follows_other (kind : SymbolKind) (hkind : kind ≠ .constant) ⦃p : Point⦄ (h : p.Tracks)
    (d : IdentDef) :
    Follows Point.Tracks (p.env.declareOther kind d) (p.other kind d) (p.inspectOther kind d) :=
  ⟨rfl, perm_declared p d.name _ _, List.forall_mem_singleton.mpr (h.tracked_inside _),
    h.other kind hkind d⟩

/-- A constant is bound at its point to what the checker knows of it. -/
theorem follows_constant ⦃p : Point⦄ (h : p.Tracks) (d : ConstDeclaration) :
    Follows Point.Tracks (p.env.checkConstant d) (p.constant d) (p.inspectConstant d) := by
  refine ⟨rfl, ?_, List.forall_mem_cons.mpr ⟨h.tracked_inside _, ?_⟩, h.constant d⟩
  · have hdeclared := perm_declared p d.name.name ⟨.constant, d.name.exported⟩
      (some (p.env.constantValue d.value).2)
    exact hdeclared.append_left (p.env.report (p.env.constantValue d.value).1)
  · exact List.forall_mem_singleton.mpr (h.tracked_inside _)

end Names

/-! ### Parameters -/

section Parameters

theorem report_referenceProblems (env : Environment) (role : Role) (names : List Qualident) :
    env.report (env.referenceProblems role names) =
      names.flatMap fun q => env.report (env.referenceProblems role [q]) := by
  induction names with
  | nil => rfl
  | cons q names ih =>
    have hsplit : env.referenceProblems role (q :: names) =
        env.referenceProblems role [q] ++ env.referenceProblems role names :=
      List.filterMap_append (l := [q])
    rw [hsplit, report, List.map_append, List.flatMap_cons, ← ih]
    rfl

/-- References to types find what they find one by one. -/
theorem perm_typeNames (p : Point) (names : List Qualident) :
    (p.env.report (p.env.referenceProblems .type names)).Perm
      ((names.map fun q => Inspection.inside p (.typeName q)).flatMap Inspection.findings) := by
  rw [report_referenceProblems, List.flatMap_map]
  exact .rfl

theorem follows_typeNames {p : Point} (h : p.Named) (names : List Qualident) :
    Follows Point.Named (p.env, p.env.report (p.env.referenceProblems .type names)) p
      (names.map fun q => .inside p (.typeName q)) :=
  follows_here h (perm_typeNames p names) (List.forall_mem_map.mpr fun _ _ => h.tracked_inside rfl)

/-- A parameter section is followed name by name and then by its type. -/
theorem follows_section ⦃p : Point⦄ (h : p.Named) (s : ParameterSection) :
    Follows Point.Named (p.env.checkParameterSection s) (p.parameterSection s)
      (p.inspectSection s) := by
  have hnames := follows_sequence follows_parameter h s.names
  have htype := follows_typeNames hnames.next [s.type.name]
  rw [← hnames.env] at htype
  exact hnames.andThen htype

theorem follows_parameters ⦃p : Point⦄ (h : p.Named) (f : FormalParameters) :
    Follows Point.Named (p.env.checkParameters f) (p.parameters f) (p.inspectParameters f) := by
  have hsections := follows_sequence follows_section h f.sections
  have hresult := follows_typeNames hsections.next f.result.toList
  rw [← hsections.env] at hresult
  exact hsections.andThen hresult

end Parameters

/-! ### Types -/

section Types

variable {here later : Point} {forward : Bool} {findings findings' : List Finding}
  {targets targets' : List Qualident} {inspections inspections' : List Inspection}

theorem perm_append_swap {α : Type} (a b c d : List α) :
    ((a ++ b) ++ (c ++ d)).Perm ((a ++ c) ++ (b ++ d)) := by
  rw [List.append_assoc, List.append_assoc]
  exact (List.perm_append_comm_assoc b c d).append_left a

/-- The inspections find what is found here, and where pointers may refer forward, what is found
later about the targets that are left. -/
def Finds (forward : Bool) (later : Point) (findings : List Finding) (targets : List Qualident)
    (inspections : List Inspection) : Prop :=
  (findings ++ if forward then later.env.report (later.env.referenceProblems .type targets)
    else []).Perm
    (inspections.flatMap Inspection.findings)

theorem finds_of_perm (h : findings.Perm (inspections.flatMap Inspection.findings)) :
    Finds forward later findings [] inspections := by
  have hnone : later.env.report (later.env.referenceProblems .type []) = [] := rfl
  rw [Finds, hnone, ite_self, List.append_nil]
  exact h

/-- Findings of two parts, with the targets that each leaves for later. -/
theorem Finds.append (h : Finds forward later findings targets inspections)
    (h' : Finds forward later findings' targets' inspections') :
    Finds forward later (findings ++ findings') (targets ++ targets')
      (inspections ++ inspections') := by
  unfold Finds at h h' ⊢
  rw [List.flatMap_append]
  refine List.Perm.trans ?_ (h.append h')
  cases forward with
  | false =>
    rw [if_neg nofun, List.append_nil]
    simp
  | true =>
    rw [if_pos rfl, if_pos rfl, if_pos rfl, report_referenceProblems, List.flatMap_append,
      ← report_referenceProblems, ← report_referenceProblems]
    exact perm_append_swap _ _ _ _

theorem perm_lengths (p : Point) (lengths : List Expression) :
    (p.env.report (lengths.flatMap p.env.lengthProblems)).Perm
      ((lengths.map fun e => Inspection.inside p (.length e)).flatMap Inspection.findings) := by
  rw [report, List.map_flatMap, List.flatMap_map]
  exact .rfl

/-- A pointer to a name finds its problem here or leaves the name for later. -/
theorem finds_pointer_named (hlater : forward = false → later = here) (q : Qualident) :
    Finds forward later ((TypeExpr.pointer (.named q)).check here.env forward)
      ((TypeExpr.pointer (.named q)).forwardTargets here.env) [⟨.target q, here, later⟩] := by
  have hfindings : [(⟨.target q, here, later⟩ : Inspection)].flatMap Inspection.findings =
      let env := if here.env.isForward q then later.env else here.env
      env.report (env.referenceProblems .type [q]) := List.flatMap_singleton _ _
  unfold Finds
  rw [hfindings, TypeExpr.check, TypeExpr.forwardTargets]
  cases hforward : here.env.isForward q with
  | false => cases forward <;> simp [report, referenceProblems]
  | true =>
    cases forward with
    | true => simp
    | false => simp [hlater rfl]

mutual

-- The induction follows the type; a name behind `POINTER TO` belongs to the pointer.
theorem TypeExpr.finds (h : here.Named) (hlater : forward = false → later = here) (t : TypeExpr) :
    Finds forward later (t.check here.env forward) (t.forwardTargets here.env)
      (here.inspectTypes later t) := by
  unfold Point.inspectTypes
  match t with
  | .named q =>
    rw [TypeExpr.check, TypeExpr.forwardTargets, TypeExpr.subtypes, List.flatMap_singleton]
    exact finds_of_perm (perm_typeNames here [q])
  | .array lengths element =>
    rw [TypeExpr.check, TypeExpr.forwardTargets, TypeExpr.subtypes, List.flatMap_cons]
    exact (finds_of_perm (perm_lengths here lengths)).append (element.finds h hlater)
  | .record base fields =>
    rw [TypeExpr.check, TypeExpr.forwardTargets, TypeExpr.subtypes, List.flatMap_cons]
    have hfields : (here.env.report (fieldNameProblems fields)).Perm
        ([Inspection.inside here (.fields fields)].flatMap Inspection.findings) := by
      rw [List.flatMap_singleton]
      exact .rfl
    have hbase : Finds forward later _ [] _ := finds_of_perm (perm_typeNames here base.toList)
    exact (hbase.append (finds_of_perm hfields)).append (FieldList.finds h hlater fields)
  | .pointer target =>
    have ih := target.finds h hlater
    by_cases hnamed : ∃ q, target = .named q
    · obtain ⟨q, rfl⟩ := hnamed
      rw [TypeExpr.subtypes, List.flatMap_singleton]
      exact finds_pointer_named hlater q
    · -- a target that is written out is looked at in its place
      have htarget : ∀ q, target ≠ .named q := fun q hq => hnamed ⟨q, hq⟩
      obtain ⟨hcheck, htargets, hsubtypes⟩ := @check_pointer here.env forward target htarget
      have hown : here.inspectType later (.pointer target) = [] := by
        rw [Point.inspectType]
        exact htarget
      rw [hcheck, htargets, hsubtypes, List.flatMap_cons, hown, List.nil_append]
      exact ih
  | .procedure parameters =>
    have hscope : here.enterProcedureType.Named := MatchesNames.push h rfl rfl
    rw [TypeExpr.check, TypeExpr.forwardTargets, TypeExpr.subtypes, List.flatMap_singleton]
    exact finds_of_perm (follows_sequence follows_parameters hscope parameters.toList).findings

theorem FieldList.finds_type (h : here.Named) (hlater : forward = false → later = here)
    (fields : FieldList) :
    Finds forward later (fields.check here.env forward) (fields.forwardTargets here.env)
      (fields.typeSubtypes.flatMap (here.inspectType later)) := by
  match fields with
  | ⟨names, type⟩ =>
    rw [FieldList.check, FieldList.forwardTargets, FieldList.typeSubtypes]
    exact type.finds h hlater

theorem FieldList.finds (h : here.Named) (hlater : forward = false → later = here)
    (fields : List FieldList) :
    Finds forward later (FieldList.checkAll here.env forward fields)
      (FieldList.allForwardTargets here.env fields)
      ((FieldList.subtypes fields).flatMap (here.inspectType later)) := by
  match fields with
  | [] =>
    rw [FieldList.checkAll, FieldList.allForwardTargets, FieldList.subtypes]
    exact finds_of_perm .nil
  | field :: others =>
    rw [FieldList.checkAll, FieldList.allForwardTargets, FieldList.subtypes, List.flatMap_append]
    exact (field.finds_type h hlater).append (FieldList.finds h hlater others)

end

theorem tracked_inspectType (h : here.Tracks) (hlater : later.Named) (t : TypeExpr) :
    ∀ i ∈ here.inspectType later t, i.Tracked := by
  match t with
  | .named q => exact List.forall_mem_singleton.mpr (h.tracked_inside _)
  | .array lengths _ => exact List.forall_mem_map.mpr fun _ _ => h.tracked_inside _
  | .record base fields =>
    refine List.forall_mem_append.mpr ⟨?_, List.forall_mem_singleton.mpr (h.tracked_inside _)⟩
    exact List.forall_mem_map.mpr fun _ _ => h.tracked_inside _
  | .pointer target =>
    cases target with
    | named q => exact List.forall_mem_singleton.mpr ⟨h.named, hlater, nofun⟩
    | _ => exact List.forall_mem_nil _
  | .procedure parameters =>
    have hscope : here.enterProcedureType.Named := MatchesNames.push h.named rfl rfl
    exact (follows_sequence follows_parameters hscope parameters.toList).tracked

theorem tracked_inspectTypes (h : here.Tracks) (hlater : later.Named) (t : TypeExpr) :
    ∀ i ∈ here.inspectTypes later t, i.Tracked :=
  List.forall_mem_flatMap.mpr fun s _ => tracked_inspectType h hlater s

end Types

/-! ### Sections -/

section Sections

/-- A type section finds what its inspections find once the targets are looked up. -/
theorem finds_checkTypes {later : Point} {p : Point} (h : p.Tracks) (ds : List TypeDeclaration) :
    Finds true later (p.env.checkTypes ds).2.1 (p.env.checkTypes ds).2.2
      (p.along Point.type (Point.inspectDeclaredType later) ds) := by
  induction ds generalizing p with
  | nil => exact finds_of_perm .nil
  | cons d ds ih =>
    have htype : Finds true later (d.type.check p.env true) (d.type.forwardTargets p.env) _ :=
      d.type.finds h.named (by nofun)
    have hname : Finds true later _ [] _ := finds_of_perm (perm_declared p d.name.name
      ⟨.type, d.name.exported⟩ (some none))
    have hfirst := htype.append hname
    rw [List.append_nil] at hfirst
    exact hfirst.append (ih (h.other .type (by decide) d.name))

/-- Behind a type section the constants are still tracked. -/
theorem Point.Tracks.types {p : Point} (h : p.Tracks) (ds : List TypeDeclaration) :
    (ds.foldl Point.type p).Tracks := by
  induction ds generalizing p with
  | nil => exact h
  | cons d ds ih => exact ih (h.other .type (by decide) d.name)

theorem tracked_types {later : Point} (hlater : later.Named) {p : Point} (h : p.Tracks)
    (ds : List TypeDeclaration) :
    ∀ i ∈ p.along Point.type (Point.inspectDeclaredType later) ds, i.Tracked := by
  induction ds generalizing p with
  | nil => exact List.forall_mem_nil _
  | cons d ds ih =>
    refine List.forall_mem_append.mpr ⟨?_, ih (h.other .type (by decide) d.name)⟩
    refine List.forall_mem_append.mpr ⟨tracked_inspectTypes h hlater d.type, ?_⟩
    exact List.forall_mem_singleton.mpr (h.tracked_inside _)

/-- A type section leads to the environment of its last point. -/
theorem env_types (p : Point) (ds : List TypeDeclaration) :
    (p.env.checkTypes ds).1 = (ds.foldl Point.type p).env := by
  induction ds generalizing p with
  | nil => rfl
  | cons d ds ih => exact ih (p.type d)

/-- A type section is followed to its end, where the targets are resolved. -/
theorem follows_typeSection {p : Point} (h : p.Tracks) (ds : List TypeDeclaration) :
    Follows Point.Tracks (p.env.checkTypeSection ds) (ds.foldl Point.type p)
      (p.inspectTypeSection ds) := by
  have hlater := h.types ds
  refine ⟨env_types p ds, ?_, tracked_types hlater.named h ds, hlater⟩
  have hfinds : Finds true (ds.foldl Point.type p) _ _ _ := finds_checkTypes h ds
  rw [Finds, if_pos rfl, ← env_types] at hfinds
  exact hfinds

/-- Variables are followed with their names first and their type behind them. -/
theorem follows_variables ⦃p : Point⦄ (h : p.Tracks) (d : VariableDeclaration) :
    Follows Point.Tracks (p.env.checkVariable d) (p.vars d) (p.inspectVariables d) := by
  have hnames : Follows Point.Tracks
      (sequence (fun env d => env.declareOther .variable d) p.env d.names) (p.vars d)
      (p.along (Point.other .variable) (Point.inspectOther .variable) d.names) :=
    follows_sequence (follows_other .variable (by decide)) h d.names
  have hbehind := hnames.next
  have hfinds : Finds false (p.vars d) _ _ _ := d.type.finds hbehind.named fun _ => rfl
  rw [Finds, if_neg nofun, List.append_nil] at hfinds
  have htype := follows_here hbehind hfinds (tracked_inspectTypes hbehind hbehind.named d.type)
  rw [← hnames.env] at htype
  exact hnames.andThen htype

end Sections

/-! ### Bodies -/

section Bodies

theorem Follows.of_perm {related : Point → Prop} {outcome : Environment × List Finding} {p : Point}
    {inspections others : List Inspection} (h : Follows related outcome p inspections)
    (hperm : inspections.Perm others) : Follows related outcome p others :=
  ⟨h.env, h.findings.trans (hperm.flatMap_right _),
    fun i hi => h.tracked i (hperm.mem_iff.mpr hi), h.next⟩

/-- Behind the heading the parameters are in the scope of the procedure. -/
theorem ctx_heading (p : Point) (h : ProcedureHeading) :
    (p.heading h).ctx = Context.enterAll .parameter p.ctx.push h.parameterNames := by
  have hnames (p : Point) (names : List String) :
      (names.foldl Point.parameter p).ctx = p.ctx.enterAll .parameter names := by
    induction names generalizing p with
    | nil => rfl
    | cons name names ih => exact ih (p.parameter name)
  have hsections (p : Point) (sections : List ParameterSection) :
      (sections.foldl Point.parameterSection p).ctx =
        p.ctx.enterAll .parameter (parameterNames sections) := by
    induction sections generalizing p with
    | nil => rfl
    | cons s sections ih =>
      have hsplit : parameterNames (s :: sections) = s.names ++ parameterNames sections :=
        List.flatMap_cons
      rw [List.foldl_cons, ih, hsplit, Context.enterAll_append, ← hnames p s.names]
      rfl
  unfold Point.heading ProcedureHeading.parameterNames
  cases h.parameters with
  | none => rfl
  | some f =>
    rw [Option.toList_some, List.flatMap_singleton]
    exact hsections (p.enterProcedure h) f.sections

/-- The parameters of a heading are followed in the scope of the procedure. -/
theorem follows_heading {outer : Point} (h : outer.Tracks) (p : ProcedureDeclaration) :
    Follows Point.Tracks
      (checkHeading (outer.env.enterProcedure p.heading.name.name p.heading.parameterNames)
        p.heading)
      (outer.heading p.heading) (Site.procedure outer p).inspectOpening := by
  have hscope : (outer.enterProcedure p.heading).Named := MatchesNames.push h.named rfl rfl
  have hall := follows_sequence follows_parameters hscope p.heading.parameters.toList
  refine ⟨hall.env, hall.findings, hall.tracked, hall.next, ?_⟩
  -- the constants were hidden before the parameters were declared
  have hkeeps := Keeps.heading keeps_declareParameter
    (outer.env.enterProcedure p.heading.name.name p.heading.parameterNames) p.heading
  have hconstants : (outer.heading p.heading).env.constants =
      Constants.hideAll outer.env.constants.push p.heading.parameterNames := by
    rw [Point.heading, ← hall.env]
    exact congrArg Prod.fst hkeeps
  rw [hconstants, ctx_heading]
  exact h.constants.parameters p.heading.parameterNames

theorem follows_single {p : Point} (h : p.Tracks) (item : Item) :
    Follows Point.Tracks (p.env, (Inspection.inside p item).findings) p [.inside p item] := by
  refine follows_here h ?_ (List.forall_mem_singleton.mpr (h.tracked_inside item))
  rw [List.flatMap_singleton]

theorem follows_closing {p : Point} (h : p.Tracks) (body : Body) (name endName : String) :
    Follows Point.Tracks (p.env, p.env.report (endNameProblems body name endName)) p
      [.inside p (.closing body name endName)] :=
  follows_single h (.closing body name endName)

/-- The result and the closing name of a procedure are inspected behind its body. -/
theorem follows_end {p : Point} (h : p.Tracks) (d : ProcedureDeclaration) :
    Follows Point.Tracks
      (p.env, p.env.report (p.env.resultProblems d.heading d.result ++
        endNameProblems .procedure d.heading.name.name d.endName)) p
      [.inside p (.result d.heading d.result),
        .inside p (.closing .procedure d.heading.name.name d.endName)] := by
  rw [report, List.map_append]
  exact (follows_single h (.result d.heading d.result)).andThen (follows_closing h _ _ _)

/-- A procedure is a site, and the others lie behind its heading. -/
theorem ProcedureDeclaration.sites_eq (outer : Point) (p : ProcedureDeclaration) :
    p.sites outer = .procedure outer p :: p.declarations.sites (outer.heading p.heading) := by
  obtain ⟨heading, declarations, result, endName⟩ := p
  rw [ProcedureDeclaration.sites]

/-- A procedure is followed if its declarations are. -/
theorem follows_procedureFindings {outer : Point} (h : outer.Tracks) (p : ProcedureDeclaration)
    (hdeclarations : ∀ ⦃q : Point⦄, q.Tracks →
      Follows Point.Tracks (checkDeclarations p.declarations q.env) (q.afterAll p.declarations)
        (q.inspectDeclarations p.declarations ++
          (p.declarations.sites q).flatMap Site.inspections)) :
    Follows Point.Tracks (outer.env, procedureFindings outer.env p) outer
      ((p.sites outer).flatMap Site.inspections) := by
  have hheading := follows_heading h p
  have hbody := hdeclarations hheading.next
  have hend := follows_end hbody.next p
  rw [← hbody.env] at hend
  rw [← hheading.env] at hbody hend
  have hall := (hheading.andThen hbody).andThen hend
  refine (follows_here h hall.findings hall.tracked).of_perm ?_
  rw [p.sites_eq, List.flatMap_cons, Site.inspections]
  simp only [List.append_assoc]
  exact (List.perm_append_comm.append_left _).append_left _

mutual

/-- The check of declarations is followed site by site. -/
theorem Declarations.follows (d : Declarations) {p : Point} (h : p.Tracks) :
    Follows Point.Tracks (checkDeclarations d p.env) (p.afterAll d)
      (p.inspectDeclarations d ++ (d.sites p).flatMap Site.inspections) := by
  match d with
  | ⟨constants, types, vars, procedures⟩ =>
    have hconstants := follows_sequence follows_constant h constants
    have htypes := follows_typeSection hconstants.next types
    have hvariables := follows_sequence follows_variables htypes.next vars
    have hprocedures := ProcedureDeclaration.follows_all procedures hvariables.next
    rw [← hvariables.env] at hprocedures
    rw [← htypes.env] at hvariables hprocedures
    rw [← hconstants.env] at htypes hvariables hprocedures
    have hall := ((hconstants.andThen htypes).andThen hvariables).andThen hprocedures
    rw [← List.append_assoc] at hall
    rw [checkDeclarations, Declarations.sites]
    exact hall

/-- The check of a procedure is followed through its body. -/
theorem ProcedureDeclaration.follows (d : ProcedureDeclaration) {p : Point} (h : p.Tracks) :
    Follows Point.Tracks (checkProcedure d p.env) (p.procedure d)
      (p.inspectProcedure d ++ (d.sites (p.procedure d)).flatMap Site.inspections) := by
  match d with
  | ⟨heading, declarations, result, endName⟩ =>
    have hname := follows_other .procedure (by decide) h heading.name
    have hinside := follows_procedureFindings hname.next ⟨heading, declarations, result, endName⟩
      fun _ hq => declarations.follows hq
    rw [checkProcedure_eq]
    rw [← hname.env] at hinside
    exact hname.andThen hinside

theorem ProcedureDeclaration.follows_all (ds : List ProcedureDeclaration) {p : Point}
    (h : p.Tracks) :
    Follows Point.Tracks (checkProcedures ds p.env) (ds.foldl Point.procedure p)
      (p.along Point.procedure Point.inspectProcedure ds ++
        (ProcedureDeclaration.allSites p ds).flatMap Site.inspections) := by
  match ds with
  | [] =>
    rw [checkProcedures, ProcedureDeclaration.allSites]
    exact ⟨rfl, .nil, List.forall_mem_nil _, h⟩
  | d :: ds =>
    have hfirst := d.follows h
    have hothers := ProcedureDeclaration.follows_all ds hfirst.next
    rw [← hfirst.env] at hothers
    rw [checkProcedures, ProcedureDeclaration.allSites, List.flatMap_append]
    exact (hfirst.andThen hothers).of_perm (perm_append_swap _ _ _ _)

end

end Bodies

/-- The findings in a module are those of its inspections, all of which are tracked. -/
theorem Module.follows (m : Module) :
    m.findings.Perm (m.inspections.flatMap Inspection.findings) ∧
      ∀ i ∈ m.inspections, i.Tracked := by
  have hopening : (Site.module m).opening.Tracks := ⟨⟨rfl, rfl⟩, Constants.tracks_predeclared⟩
  have himports := follows_sequence follows_imported hopening (m.imports.getD [])
  have hbody := m.declarations.follows himports.next
  have hclosing := follows_closing hbody.next .module m.name m.endName
  rw [← hbody.env] at hclosing
  rw [← himports.env] at hbody hclosing
  have hfollows : Follows Point.Tracks _ _ m.inspections :=
    ((himports.andThen hbody).andThen hclosing).of_perm (by
      rw [Module.inspections, Module.sites, List.flatMap_cons, Site.inspections]
      simp only [List.append_assoc]
      exact (List.perm_append_comm.append_left _).append_left _)
  exact ⟨hfollows.findings, hfollows.tracked⟩

end Oberon
