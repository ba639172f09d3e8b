import Oberon.Proofs.Check.TypeAgreement

/-!
# Checking blocks

The sections of a block and the block itself.  The rules of a section say which names it may
declare and what it may refer to; those of a block are the rules of its sections, and those of its
head and its end.  The induction over the procedures collects the rules of all blocks.
-/

namespace Oberon

def IdentDef.MayExport (level : Nat) (d : IdentDef) : Prop :=
  d.exported = true → level = Environment.moduleLevel

def Context.IsConstant (ctx : Context) (e : Expression) : Prop :=
  ctx.AllConstant e ∧ ∃ v, ctx.evaluate e = .ok v

/-- The names can be declared one after the other, with their export marks. -/
def Context.MayDeclare (ctx : Context) (defs : List IdentDef) : Prop :=
  ctx.Fresh (defs.map IdentDef.name) ∧ ∀ d ∈ defs, d.MayExport ctx.level

namespace Environment

open Context

variable {imports : List String} {env final : Environment} {ctx later : Context}

/-! ## Declared names -/

/-- Declaring adds the names to the innermost scope. -/
structure Adds {α : Type} (declare : Context → α → Context)
    (defsOf : α → List IdentDef) : Prop where
  isLocal : ∀ ctx x name, (declare ctx x).isLocal name =
    (decide (name ∈ (defsOf x).map IdentDef.name) || ctx.isLocal name)
  level : ∀ ctx x, (declare ctx x).level = ctx.level

section Adds

variable {α : Type} {declare : Context → α → Context} {defsOf : α → List IdentDef}

/-- Declaring items one by one adds the names of all of them. -/
theorem Adds.foldl (h : Adds declare defsOf) :
    Adds (fun ctx (xs : List α) => xs.foldl declare ctx) fun xs => xs.flatMap defsOf := by
  constructor
  · intro ctx xs name
    rw [List.map_flatMap]
    exact isLocal_foldl h.isLocal ctx xs name
  · intro ctx xs
    induction xs generalizing ctx with
    | nil => rfl
    | cons x xs ih => exact (ih (declare ctx x)).trans (h.level ctx x)

/-- More names can be declared behind an item exactly if they can be declared in its context. -/
theorem Adds.mayDeclare_append (h : Adds declare defsOf) (ctx : Context) (x : α)
    (others : List IdentDef) :
    ctx.MayDeclare (defsOf x ++ others) ↔
      ctx.MayDeclare (defsOf x) ∧ (declare ctx x).MayDeclare others := by
  unfold MayDeclare
  rw [List.map_append, fresh_append (h.isLocal ctx x), List.forall_mem_append, h.level,
    and_and_and_comm]

/-- Names that can be declared item by item can be declared in one go. -/
theorem Adds.mayDeclare_places (h : Adds declare defsOf) (ctx : Context) (xs : List α) :
    (∀ place ∈ ctx.places declare xs, place.1.MayDeclare (defsOf place.2)) ↔
      ctx.MayDeclare (xs.flatMap defsOf) := by
  induction xs generalizing ctx with
  | nil => exact ⟨fun _ => ⟨fresh_nil ctx, nofun⟩, nofun⟩
  | cons x xs ih =>
    rw [places, List.forall_mem_cons, ih, List.flatMap_cons, h.mayDeclare_append]

end Adds

theorem adds_declare (kind : SymbolKind) :
    Adds (fun ctx d => Context.declare kind ctx (IdentDef.name d)) fun d => [d] := by
  constructor
  · intro ctx d name
    simp [Context.declare]
  · intro ctx d
    exact Scopes.level_bind ctx d.name _

theorem foldl_declare (kind : SymbolKind) (ctx : Context) (names : List IdentDef) :
    names.foldl (fun ctx d => ctx.declare kind d.name) ctx =
      ctx.declareAll kind (names.map IdentDef.name) := by
  rw [declareAll, List.foldl_map]

/-- A type, variable or procedure is declared without findings exactly if its name may be
declared. -/
theorem decides_declareOther (kind : SymbolKind) (hkind : kind ≠ .constant) :
    Decides (Matches imports) (fun env d => env.declareOther kind d)
      (fun ctx d => ctx.declare kind d.name) fun ctx d => ctx.MayDeclare [d] := by
  intro env ctx h d
  have hiff : (env.declareOther kind d).2 = [] ↔ ctx.MayDeclare [d] := by
    unfold MayDeclare
    rw [List.forall_mem_singleton]
    exact h.declare_eq_nil
  refine ⟨hiff, fun hnil => ?_⟩
  show Matches imports (env.declare d.name ⟨kind, d.exported⟩ (some none)).1 _
  rw [h.declare_fst (hiff.mp hnil).1]
  exact h.bound rfl fun hconstant => absurd hconstant hkind

/-- Several names of one kind are declared without findings exactly if all may be declared. -/
theorem decides_declareOthers (kind : SymbolKind) (hkind : kind ≠ .constant) :
    Decides (Matches imports) (sequence fun env d => env.declareOther kind d)
      (fun ctx names => ctx.declareAll kind (names.map IdentDef.name)) MayDeclare := by
  intro env ctx h names
  obtain ⟨hiff, hnext⟩ := (decides_declareOther kind hkind).sequence h names
  dsimp only at hnext
  rw [foldl_declare] at hnext
  refine ⟨hiff.trans ?_, hnext⟩
  dsimp only
  rw [(adds_declare kind).mayDeclare_places, List.flatMap_singleton']

/-! ## Sections -/

theorem adds_declareConstant : Adds Context.declareConstant fun d => [d.name] := by
  constructor
  · intro ctx d name
    simp [Context.declareConstant]
  · intro ctx d
    exact Scopes.level_bind ctx d.name.name _

/-- A constant is fine if its expression has no problems and its name may be declared. -/
theorem Matches.checkConstant_eq_nil (h : Matches imports env ctx) {d : ConstDeclaration} :
    (env.checkConstant d).2 = [] ↔ (env.constantValue d.value).1 = [] ∧
      ctx.MayDeclare [d.name] := by
  -- the declaration is reported in the same way whatever value has been found
  have hdeclare : (env.declareConstant d.name (env.constantValue d.value).2).2 = [] ↔
      ctx.MayDeclare [d.name] := by
    unfold MayDeclare
    rw [List.forall_mem_singleton]
    exact h.declare_eq_nil
  rw [← env.report_eq_nil, ← hdeclare, ← List.append_eq_nil_iff]
  rfl

/-- A constant that is fine is bound to the value of its expression. -/
theorem Matches.checkConstant_fst (h : Matches imports env ctx) {d : ConstDeclaration}
    (hnil : (env.checkConstant d).2 = []) : (env.checkConstant d).1 =
      env.bound d.name.name ⟨.constant, d.name.exported⟩
        (some (ctx.evaluate d.value).toOption) := by
  obtain ⟨hvalue, hfresh, -⟩ := h.checkConstant_eq_nil.mp hnil
  show (env.declare d.name.name ⟨.constant, d.name.exported⟩
    (some (env.constantValue d.value).2)).1 = _
  rw [h.declare_fst hfresh, h.constantValue_snd hvalue]

/-- A constant is fine exactly if its name may be declared and its expression is constant. -/
theorem decides_checkConstant : Decides (Matches imports) checkConstant Context.declareConstant
    fun ctx d => ctx.MayDeclare [d.name] ∧ ctx.IsConstant d.value := by
  intro env ctx h d
  have hiff : (env.checkConstant d).2 = [] ↔ ctx.MayDeclare [d.name] ∧ ctx.IsConstant d.value := by
    rw [h.checkConstant_eq_nil, h.constantValue_eq_nil, and_comm]
    rfl
  refine ⟨hiff, fun hnil => ?_⟩
  obtain ⟨-, -, v, hv⟩ := hiff.mp hnil
  rw [h.checkConstant_fst hnil]
  refine h.bound rfl fun _ => ⟨v, ?_⟩
  rw [hv]
  exact ⟨rfl, rfl⟩

/-- A constant section, where each expression sees the constants in front of it. -/
theorem decides_constants : Decides (Matches imports) (sequence checkConstant)
    (fun ctx ds => ds.foldl Context.declareConstant ctx) fun ctx ds =>
      ctx.MayDeclare (ds.map ConstDeclaration.name) ∧
        ∀ place ∈ ctx.places Context.declareConstant ds, place.1.IsConstant place.2.value := by
  refine decides_checkConstant.sequence.congr fun ctx ds => ?_
  rw [forall₂_and, adds_declareConstant.mayDeclare_places, ← List.map_eq_flatMap]

theorem foldl_declareType (ctx : Context) (ds : List TypeDeclaration) :
    ds.foldl declareType ctx = ctx.declareAll .type (ds.map fun d => d.name.name) := by
  rw [declareAll, List.foldl_map]
  rfl

theorem adds_declareType : Adds declareType fun d => [d.name] :=
  ⟨fun ctx d => (adds_declare .type).isLocal ctx d.name,
    fun ctx d => (adds_declare .type).level ctx d.name⟩

/-- The names of a type section are declared whatever its types are. -/
theorem checkTypes_fst (env : Environment) (ds : List TypeDeclaration) :
    (env.checkTypes ds).1 =
      (sequence (fun env d => env.declareOther .type d) env (ds.map TypeDeclaration.name)).1 := by
  induction ds generalizing env with
  | nil => rfl
  | cons d ds ih => exact ih _

/-- A type section without findings can declare its names. -/
theorem declareOthers_eq_nil_of_checkTypes {env : Environment} {ds : List TypeDeclaration}
    (h : (env.checkTypes ds).2.1 = []) :
    (sequence (fun env d => env.declareOther .type d) env (ds.map TypeDeclaration.name)).2 =
      [] := by
  induction ds generalizing env with
  | nil => rfl
  | cons d ds ih =>
    have hsplit : (env.checkType true d).2 = [] ∧
        ((env.checkType true d).1.checkTypes ds).2.1 = [] :=
      List.append_eq_nil_iff.mp h
    have hname : d.type.check env true = [] ∧ (env.declareOther .type d.name).2 = [] :=
      List.append_eq_nil_iff.mp hsplit.1
    exact List.append_eq_nil_iff.mpr ⟨hname.2, ih hsplit.2⟩

/-- A type section, whose pointer targets are looked up in the final context. -/
theorem clear_checkTypes (h : Matches imports env ctx) (hfinal : MatchesNames imports final later)
    {ds : List TypeDeclaration} (hnames : ctx.MayDeclare (ds.map TypeDeclaration.name)) :
    Clear final true (env.checkTypes ds).2.1 (env.checkTypes ds).2.2 ↔
      ∀ place ∈ ctx.places declareType ds, ∀ s ∈ place.2.type.subtypes,
        (TypePlace.mk s place.1 later).Ok imports := by
  induction ds generalizing env ctx with
  | nil => exact ⟨fun _ => nofun, fun _ => clear_nil.mpr rfl⟩
  | cons d ds ih =>
    obtain ⟨hdeclare, hnext⟩ := decides_declareOther .type nofun h d.name
    obtain ⟨hname, hothers⟩ := (adds_declareType.mayDeclare_append ctx d _).mp hnames
    have hnil := hdeclare.mpr hname
    have hsplit : Clear final true (env.checkTypes (d :: ds)).2.1 (env.checkTypes (d :: ds)).2.2 ↔
        Clear final true (d.type.check env true ++ (env.declareOther .type d.name).2)
            (d.type.forwardTargets env) ∧
          Clear final true ((env.declareOther .type d.name).1.checkTypes ds).2.1
            ((env.declareOther .type d.name).1.checkTypes ds).2.2 := clear_append
    have hlater : Later imports final ctx later true := hfinal
    rw [hsplit, places, List.forall_mem_cons, hnil, List.append_nil, d.type.clear_iff h hlater,
      ih (hnext hnil) hothers]
    rfl

/-- The rules of a type section; pointer targets are looked up again at its end. -/
theorem decides_checkTypeSection : Decides (Matches imports) checkTypeSection
    (fun ctx ds => ds.foldl declareType ctx) fun ctx ds =>
      ctx.MayDeclare (ds.map TypeDeclaration.name) ∧
        ∀ place ∈ ctx.places declareType ds, ∀ s ∈ place.2.type.subtypes,
          (TypePlace.mk s place.1 (ds.foldl declareType ctx)).Ok imports := by
  intro env ctx h ds
  have hfold : ds.foldl declareType ctx =
      ctx.declareAll .type ((ds.map TypeDeclaration.name).map IdentDef.name) := by
    rw [foldl_declareType, List.map_map]
    rfl
  obtain ⟨hdeclare, hmatches⟩ := decides_declareOthers .type nofun h (ds.map TypeDeclaration.name)
  dsimp only at hmatches
  rw [← checkTypes_fst, ← hfold] at hmatches
  have hclear : (env.checkTypeSection ds).2 = [] ↔
      Clear (env.checkTypes ds).1 true (env.checkTypes ds).2.1 (env.checkTypes ds).2.2 := by
    rw [Clear, imp_iff_right rfl]
    exact List.append_eq_nil_iff
  -- the section has to be free of findings before its last environment is known to match
  have hnames (hnil : (env.checkTypes ds).2.1 = []) :
      ctx.MayDeclare (ds.map TypeDeclaration.name) :=
    hdeclare.mp (declareOthers_eq_nil_of_checkTypes hnil)
  constructor
  · rw [hclear]
    constructor
    · intro hall
      have hmay := hnames hall.1
      exact ⟨hmay, (clear_checkTypes h (hmatches (hdeclare.mpr hmay)).toMatchesNames hmay).mp hall⟩
    · rintro ⟨hmay, hall⟩
      exact (clear_checkTypes h (hmatches (hdeclare.mpr hmay)).toMatchesNames hmay).mpr hall
  · intro hnil
    exact hmatches (hdeclare.mpr (hnames (hclear.mp hnil).1))

/-! ## Variables -/

theorem foldl_declareVariables (ctx : Context) (ds : List VariableDeclaration) :
    ds.foldl declareVariables ctx =
      ctx.declareAll .variable (ds.flatMap VariableDeclaration.variableNames) := by
  rw [declareAll, List.foldl_flatMap]
  rfl

theorem adds_declareVariables : Adds declareVariables VariableDeclaration.names :=
  ⟨fun ctx d => isLocal_declareAll .variable ctx d.variableNames,
    fun ctx d => level_declareAll .variable ctx d.variableNames⟩

/-- Variables are declared before their type is resolved. -/
theorem decides_checkVariable : Decides (Matches imports) checkVariable declareVariables
    fun ctx d => ctx.MayDeclare d.names ∧ ∀ s ∈ d.type.subtypes,
      (TypePlace.mk s (ctx.declareVariables d) (ctx.declareVariables d)).Ok imports := by
  have hnames : Decides (Matches imports)
      (fun env d => sequence (fun env d => env.declareOther .variable d)
      env (VariableDeclaration.names d)) declareVariables fun ctx d => ctx.MayDeclare d.names :=
    fun env ctx h d => decides_declareOthers .variable nofun h d.names
  have htype (env : Environment) (ctx : Context) (d : VariableDeclaration)
      (h : Matches imports env (ctx.declareVariables d)) : d.type.check env false = [] ↔
        ∀ s ∈ d.type.subtypes,
          (TypePlace.mk s (ctx.declareVariables d) (ctx.declareVariables d)).Ok imports := by
    have hlater : Later imports env (ctx.declareVariables d) (ctx.declareVariables d) false := rfl
    rw [← d.type.clear_iff h hlater, Clear]
    simp
  exact hnames.andThen htype

/-- A variable section, one declaration after the other. -/
theorem decides_variables : Decides (Matches imports) (sequence checkVariable)
    (fun ctx ds => ds.foldl declareVariables ctx) fun ctx ds =>
      ctx.MayDeclare (ds.flatMap VariableDeclaration.names) ∧
        ∀ place ∈ ctx.places declareVariables ds, ∀ s ∈ place.2.type.subtypes,
          (TypePlace.mk s (place.1.declareVariables place.2)
            (place.1.declareVariables place.2)).Ok imports := by
  refine decides_checkVariable.sequence.congr fun ctx ds => ?_
  rw [forall₂_and, adds_declareVariables.mayDeclare_places]

end Environment

/-! ## Blocks -/

/-- The declarations of a block obey the rules, apart from the inside of its procedures. -/
structure Declarations.Ok (imports : List String) (ctx : Context) (d : Declarations) : Prop where
  names : ctx.MayDeclare d.identDefs
  constants : ∀ c ∈ d.constantValues ctx, c.1.IsConstant c.2
  types : ∀ place ∈ d.typePlaces ctx, place.Ok imports

/-- The block obeys the rules, apart from the inside of its procedures. -/
structure Block.Ok (imports : List String) (b : Block) : Prop where
  ownNames : b.opening.Fresh b.ownNames
  parameters : ∀ u ∈ b.parameters.toList.flatMap (FormalParameters.uses b.opening),
    Environment.TypeOk imports u
  declarations : b.declarations.Ok imports b.start
  results : ∀ u ∈ b.resultUses, Environment.ValueOk imports u
  returns : b.result.isSome ↔ ∃ p ∈ b.parameters, p.result.isSome
  closingName : b.endName = b.name

namespace Environment

open Context

variable {imports : List String} {env : Environment} {ctx : Context}

theorem adds_declareProcedure : Adds declareProcedure fun p => [p.heading.name] :=
  ⟨fun ctx p => (adds_declare .procedure).isLocal ctx p.heading.name,
    fun ctx p => (adds_declare .procedure).level ctx p.heading.name⟩

/-- The names of the sections come one after the other into one scope. -/
theorem mayDeclare_identDefs (ctx : Context) (d : Declarations) :
    ctx.MayDeclare d.identDefs ↔ ctx.MayDeclare (d.constants.map ConstDeclaration.name) ∧
      (d.afterConstants ctx).MayDeclare (d.types.map TypeDeclaration.name) ∧
      (d.afterTypes ctx).MayDeclare (d.vars.flatMap VariableDeclaration.names) ∧
      (d.afterVariables ctx).MayDeclare (d.procedures.map fun p => p.heading.name) := by
  rw [Declarations.identDefs, List.append_assoc, List.append_assoc, List.map_eq_flatMap,
    adds_declareConstant.foldl.mayDeclare_append, List.map_eq_flatMap (f := TypeDeclaration.name),
    adds_declareType.foldl.mayDeclare_append, adds_declareVariables.foldl.mayDeclare_append]
  rfl

end Environment

open Environment Context

variable {imports : List String}

/-- The rules of a block, section by section. -/
theorem Declarations.ok_iff (ctx : Context) (d : Declarations) : d.Ok imports ctx ↔
    (ctx.MayDeclare (d.constants.map ConstDeclaration.name) ∧
      ∀ place ∈ ctx.places Context.declareConstant d.constants, place.1.IsConstant place.2.value) ∧
    ((d.afterConstants ctx).MayDeclare (d.types.map TypeDeclaration.name) ∧
      ∀ place ∈ (d.afterConstants ctx).places declareType d.types, ∀ s ∈ place.2.type.subtypes,
        (TypePlace.mk s place.1 (d.afterTypes ctx)).Ok imports) ∧
    ((d.afterTypes ctx).MayDeclare (d.vars.flatMap VariableDeclaration.names) ∧
      ∀ place ∈ (d.afterTypes ctx).places declareVariables d.vars, ∀ s ∈ place.2.type.subtypes,
        (TypePlace.mk s (place.1.declareVariables place.2)
          (place.1.declareVariables place.2)).Ok imports) ∧
    (d.afterVariables ctx).MayDeclare (d.procedures.map fun p => p.heading.name) := by
  have hconstants : (∀ c ∈ d.constantValues ctx, c.1.IsConstant c.2) ↔
      ∀ place ∈ ctx.places Context.declareConstant d.constants, place.1.IsConstant place.2.value :=
    List.forall_mem_map
  have htypes : (∀ place ∈ d.typePlaces ctx, place.Ok imports) ↔
      (∀ place ∈ (d.afterConstants ctx).places declareType d.types, ∀ s ∈ place.2.type.subtypes,
        (TypePlace.mk s place.1 (d.afterTypes ctx)).Ok imports) ∧
      ∀ place ∈ (d.afterTypes ctx).places declareVariables d.vars, ∀ s ∈ place.2.type.subtypes,
        (TypePlace.mk s (place.1.declareVariables place.2)
          (place.1.declareVariables place.2)).Ok imports := by
    unfold Declarations.typePlaces TypeExpr.places
    simp only [List.forall_mem_append, List.forall_mem_flatMap, List.forall_mem_map]
  -- names, constants and types are regrouped by the sections they stand in
  constructor
  · intro h
    obtain ⟨hc, ht, hv, hp⟩ := (mayDeclare_identDefs ctx d).mp h.names
    obtain ⟨hdeclared, hvariables⟩ := htypes.mp h.types
    exact ⟨⟨hc, hconstants.mp h.constants⟩, ⟨ht, hdeclared⟩, ⟨hv, hvariables⟩, hp⟩
  · rintro ⟨⟨hc, hvalues⟩, ⟨ht, hdeclared⟩, ⟨hv, hvariables⟩, hp⟩
    exact ⟨(mayDeclare_identDefs ctx d).mpr ⟨hc, ht, hv, hp⟩, hconstants.mpr hvalues,
      htypes.mpr ⟨hdeclared, hvariables⟩⟩

end Oberon
