import Mathlib.Logic.Basic
import Oberon.Proofs.Check.Matching

/-!
# The checker reports nothing exactly if the rules hold

One lemma for each form of declaration: checked in an environment that matches its context, it
gives rise to no finding exactly if it obeys the rules there, and then the environment behind it
matches the context behind it.  A list of declarations is checked one by one, which is done once
for all forms.
-/

namespace Oberon

namespace Environment

open Context

/-- A check decides a rule, and the environment that it leaves without findings is related to the
context. -/
structure Agrees (related : Environment → Context → Prop) (outcome : Environment × List Finding)
    (ctx : Context) (rule : Prop) : Prop where
  clean : outcome.2 = [] ↔ rule
  next : outcome.2 = [] → related outcome.1 ctx

section Agrees

variable {related related' : Environment → Context → Prop}
    {first second : Environment × List Finding}
  {ctx ctx' : Context} {rule rule' : Prop}

theorem Agrees.congr (h : Agrees related first ctx rule) (hrule : rule ↔ rule') :
    Agrees related first ctx rule' :=
  ⟨h.clean.trans hrule, h.next⟩

/-- Two checks one after the other.  The second has to be considered only if the first finds
nothing. -/
theorem Agrees.andThen (h : Agrees related first ctx rule)
    (hsecond : related first.1 ctx → Agrees related' second ctx' rule') :
    Agrees related' (second.1, first.2 ++ second.2) ctx' (rule ∧ rule') := by
  constructor
  · rw [List.append_eq_nil_iff, h.clean]
    exact and_congr_right fun hrule => (hsecond (h.next (h.clean.mpr hrule))).clean
  · intro hnil
    obtain ⟨hfirst, hrest⟩ := List.append_eq_nil_iff.mp hnil
    exact (hsecond (h.next hfirst)).next hrest

end Agrees

def Decides {α : Type} (related : Environment → Context → Prop)
    (check : Environment → α → Environment × List Finding) (declare : Context → α → Context)
    (rule : Context → α → Prop) : Prop :=
  ∀ ⦃env ctx⦄, related env ctx → ∀ x, Agrees related (check env x) (declare ctx x) (rule ctx x)

section Decides

variable {α : Type} {related : Environment → Context → Prop}
  {check : Environment → α → Environment × List Finding} {declare : Context → α → Context}
  {rule rule' : Context → α → Prop}

theorem Decides.congr (h : Decides related check declare rule)
    (hrule : ∀ ctx x, rule ctx x ↔ rule' ctx x) : Decides related check declare rule' := by
  intro env ctx hrelated x
  exact (h hrelated x).congr (hrule ctx x)

/-- Items that are checked one after the other obey the rule each in the context in front of it.
-/
theorem Decides.sequence (h : Decides related check declare rule) :
    Decides related (sequence check) (fun ctx xs => xs.foldl declare ctx)
      fun ctx xs => ∀ place ∈ ctx.places declare xs, rule place.1 place.2 := by
  intro env ctx hrelated xs
  induction xs generalizing env ctx with
  | nil => exact ⟨⟨fun _ => nofun, fun _ => rfl⟩, fun _ => hrelated⟩
  | cons x xs ih =>
    have hall := (h hrelated x).andThen fun hnext => ih hnext
    refine hall.congr ?_
    dsimp only
    rw [places, List.forall_mem_cons]

/-- A check that goes on in the environment it leaves. -/
theorem Decides.andThen {problems : Environment → α → List Finding} {more : Context → α → Prop}
    (h : Decides related check declare rule)
    (hmore : ∀ env ctx x, related env (declare ctx x) → (problems env x = [] ↔ more ctx x)) :
    Decides related (fun env x => ((check env x).1, (check env x).2 ++ problems (check env x).1 x))
      declare fun ctx x => rule ctx x ∧ more ctx x := by
  intro env ctx hrelated x
  have hproblems (hnext : related (check env x).1 (declare ctx x)) :
      Agrees related ((check env x).1, problems (check env x).1 x) (declare ctx x) (more ctx x) :=
    ⟨hmore _ ctx x hnext, fun _ => hnext⟩
  exact (h hrelated x).andThen hproblems

end Decides

variable {imports : List String} {constants : Constants} {env : Environment} {ctx : Context}

/-! ## Names -/

/-- A parameter is declared without findings exactly if its name is new in the innermost scope. -/
theorem decides_declareParameter : Decides (MatchesHeading imports constants) declareParameter
    (Context.declare .parameter) fun ctx name => ctx.Fresh [name] := by
  intro env ctx h name
  have hiff : (env.declareParameter name).2 = [] ↔ ctx.Fresh [name] :=
    h.declare_eq_nil.trans (and_iff_left nofun)
  refine ⟨hiff, fun hnil => ?_⟩
  rw [declareParameter, h.declare_fst (hiff.mp hnil)]
  exact ⟨h.toMatchesNames.bound rfl, h.constants⟩

/-- New names one by one are new names all at once. -/
theorem fresh_places_singleton (kind : SymbolKind) (ctx : Context) (names : List String) :
    (∀ place ∈ ctx.places (Context.declare kind) names, place.1.Fresh [place.2]) ↔
      ctx.Fresh names := by
  have hdeclare (ctx : Context) (x name : String) : (ctx.declare kind x).isLocal name =
      (decide (name ∈ [x]) || ctx.isLocal name) := by
    simp [Context.declare]
  rw [fresh_places hdeclare, List.flatMap_singleton']

def TypeOk (imports : List String) (u : Use) : Prop :=
  (u.name.qualifier = none → u.kind? = some .type) ∧ Imported imports u.name

/-- References to types are without problems exactly if every name is that of a type. -/
theorem MatchesNames.types_ok (h : MatchesNames imports env ctx) {names : List Qualident} :
    env.report (env.referenceProblems .type names) = [] ↔
      ∀ q ∈ names, TypeOk imports (.inside ctx q) := by
  rw [report_eq_nil, referenceProblems_eq_nil]
  exact forall₂_congr fun q _ => h.type_ok q

def ValueOk (imports : List String) (u : Use) : Prop :=
  (u.name.qualifier = none → ∃ kind, u.kind? = some kind ∧ kind ≠ .type ∧ kind ≠ .module) ∧
    Imported imports u.name

/-- References to values are without problems exactly if every name is that of a value. -/
theorem MatchesNames.values_ok (h : MatchesNames imports env ctx) {names : List Qualident} :
    env.referenceProblems .value names = [] ↔ ∀ q ∈ names, ValueOk imports (.inside ctx q) := by
  rw [referenceProblems_eq_nil]
  exact forall₂_congr fun q _ => h.value_ok q

/-! ## Parameters -/

/-- The type of a section is resolved behind the names of the section. -/
theorem decides_checkParameterSection :
    Decides (MatchesHeading imports constants) checkParameterSection
    declareSection fun ctx s => ctx.Fresh s.names ∧
      TypeOk imports (.inside (ctx.declareSection s) s.type.name) := by
  have hnames : Decides (MatchesHeading imports constants)
      (fun env s => sequence declareParameter env (ParameterSection.names s)) declareSection
      fun ctx s => ctx.Fresh s.names := by
    intro env ctx h s
    obtain ⟨hiff, hnext⟩ := decides_declareParameter.sequence h s.names
    exact ⟨hiff.trans (fresh_places_singleton .parameter ctx s.names), hnext⟩
  have htype (env : Environment) (ctx : Context) (s : ParameterSection)
      (h : MatchesHeading imports constants env (ctx.declareSection s)) :
      env.report (env.referenceProblems .type [s.type.name]) = [] ↔
        TypeOk imports (.inside (ctx.declareSection s) s.type.name) := by
    rw [h.types_ok, List.forall_mem_singleton]
  exact hnames.andThen htype

theorem isLocal_declareSection (ctx : Context) (s : ParameterSection) (name : String) :
    (ctx.declareSection s).isLocal name = (decide (name ∈ s.names) || ctx.isLocal name) :=
  isLocal_declareAll .parameter ctx s.names name

/-- Formal parameters are fine exactly if their names differ and their types are known. -/
theorem decides_checkParameters : Decides (MatchesHeading imports constants) checkParameters
    (fun ctx p => p.sections.foldl declareSection ctx) fun ctx p =>
      ctx.Fresh (parameterNames p.sections) ∧ ∀ u ∈ p.uses ctx, TypeOk imports u := by
  have hsections : Decides (MatchesHeading imports constants)
      (fun env p => sequence checkParameterSection env (FormalParameters.sections p))
      (fun ctx p => p.sections.foldl declareSection ctx) fun ctx p =>
        ∀ place ∈ ctx.places declareSection p.sections, place.1.Fresh place.2.names ∧
          TypeOk imports (.inside (place.1.declareSection place.2) place.2.type.name) := by
    intro env ctx h p
    exact decides_checkParameterSection.sequence h p.sections
  have hresult (env : Environment) (ctx : Context) (p : FormalParameters)
      (h : MatchesHeading imports constants env (p.sections.foldl declareSection ctx)) :
      env.report (env.referenceProblems .type p.result.toList) = [] ↔
        ∀ q ∈ p.result.toList, TypeOk imports (.inside (p.sections.foldl declareSection ctx) q) :=
    h.types_ok
  refine (hsections.andThen hresult).congr fun ctx p => ?_
  rw [FormalParameters.uses, List.forall_mem_append, List.forall_mem_map, List.forall_mem_map,
    forall₂_and, fresh_places isLocal_declareSection, and_assoc]
  rfl

/-- Sections declare their names in one row. -/
theorem foldl_declareSection (ctx : Context) (sections : List ParameterSection) :
    sections.foldl declareSection ctx = ctx.declareAll .parameter (parameterNames sections) := by
  induction sections generalizing ctx with
  | nil => rfl
  | cons s sections ih =>
    have hnames : parameterNames (s :: sections) = s.names ++ parameterNames sections :=
      List.flatMap_cons
    rw [List.foldl_cons, ih, hnames, declareAll, declareAll, List.foldl_append]
    rfl

def optionalNames (parameters : Option FormalParameters) : List String :=
  parameters.toList.flatMap fun p => parameterNames p.sections

theorem decides_optionalParameters : Decides (MatchesHeading imports constants)
    (fun env parameters => sequence checkParameters env (Option.toList parameters))
    (fun ctx parameters => ctx.declareAll .parameter (optionalNames parameters))
    fun ctx parameters => ctx.Fresh (optionalNames parameters) ∧
      ∀ u ∈ parameters.toList.flatMap (FormalParameters.uses ctx), TypeOk imports u := by
  intro env ctx h parameters
  cases parameters with
  | none => exact ⟨⟨fun _ => ⟨fresh_nil ctx, nofun⟩, fun _ => rfl⟩, fun _ => h⟩
  | some p =>
    obtain ⟨hiff, hnext⟩ := decides_checkParameters h p
    have hone : sequence checkParameters env [p] = ((env.checkParameters p).1,
        (env.checkParameters p).2 ++ []) := rfl
    have hnames : optionalNames (some p) = parameterNames p.sections := List.flatMap_singleton _ _
    dsimp only [Option.toList_some]
    rw [hone, hnames, List.flatMap_singleton, List.append_nil, ← foldl_declareSection]
    exact ⟨hiff, hnext⟩

end Environment

end Oberon
