import Oberon.Proofs.Check.Agreement

/-!
# Checking types

A type obeys the rules exactly if each of the types inside it does, with the names, lengths,
fields and parameters that it has itself.  In a type section the targets of pointers that mean
nothing at their place are left out of the check and referred to in the environment at the end of
the section.
-/

namespace Oberon

def TypePlace.parameterNames (place : TypePlace) : List String :=
  match place.type with
  | .procedure parameters => Environment.optionalNames parameters
  | _ => []

def Context.IsLength (ctx : Context) (e : Expression) : Prop :=
  ctx.AllConstant e ∧ ∃ n : Int64, ctx.evaluate e = .ok (.integer n) ∧ 0 < n.toInt

structure TypePlace.Ok (imports : List String) (place : TypePlace) : Prop where
  uses : ∀ u ∈ place.uses, Environment.TypeOk imports u
  lengths : ∀ c ∈ place.lengths, c.1.IsLength c.2
  names : place.names.Nodup
  nonempty : ∀ name ∈ place.parameterNames, name ≠ ""

section Ok

variable {imports : List String} {here later : Context}

/-- A place whose only demand is on the use of one name. -/
theorem ok_use {place : TypePlace} {use : Use} (huses : place.uses = [use])
    (hlengths : place.lengths = []) (hnames : place.names = [])
    (hparameters : place.parameterNames = []) :
    place.Ok imports ↔ Environment.TypeOk imports use := by
  constructor
  · intro h
    exact h.uses use (huses ▸ List.mem_cons_self)
  · intro h
    exact ⟨huses ▸ List.forall_mem_singleton.mpr h, hlengths ▸ nofun, hnames ▸ .nil,
      hparameters ▸ nofun⟩

/-- A named type uses its name. -/
theorem ok_named {q : Qualident} : (TypePlace.mk (.named q) here later).Ok imports ↔
    Environment.TypeOk imports (.inside here q) :=
  ok_use rfl rfl rfl rfl

/-- An array type has to have proper lengths. -/
theorem ok_array {lengths : List Expression} {element : TypeExpr} :
    (TypePlace.mk (.array lengths element) here later).Ok imports ↔
      ∀ e ∈ lengths, here.IsLength e := by
  constructor
  · intro h e he
    exact h.lengths (here, e) (List.mem_map_of_mem he)
  · intro h
    exact ⟨nofun, List.forall_mem_map.mpr h, .nil, nofun⟩

/-- A record type uses the name of its base, and its fields differ. -/
theorem ok_record {base : Option Qualident} {fields : List FieldList} :
    (TypePlace.mk (.record base fields) here later).Ok imports ↔
      (∀ q ∈ base.toList, Environment.TypeOk imports (.inside here q)) ∧
        (fields.flatMap fun f => f.names.map IdentDef.name).Nodup := by
  constructor
  · intro h
    exact ⟨List.forall_mem_map.mp h.uses, h.names⟩
  · rintro ⟨hbase, hfields⟩
    exact ⟨List.forall_mem_map.mpr hbase, nofun, hfields, nofun⟩

/-- A pointer to a name uses the name, perhaps later. -/
theorem ok_pointer_named {q : Qualident} :
    (TypePlace.mk (.pointer (.named q)) here later).Ok imports ↔
      Environment.TypeOk imports ⟨q, here, later⟩ :=
  ok_use rfl rfl rfl rfl

/-- A pointer to a type that is written out asks for nothing itself. -/
theorem ok_pointer {target : TypeExpr} (h : ∀ q, target ≠ .named q) :
    (TypePlace.mk (.pointer target) here later).Ok imports := by
  cases target with
  | named q => exact absurd rfl (h q)
  | _ => exact ⟨nofun, nofun, .nil, nofun⟩

/-- A procedure type declares its parameters in a scope of their own. -/
theorem ok_procedure {parameters : Option FormalParameters} :
    (TypePlace.mk (.procedure parameters) here later).Ok imports ↔
      Context.Fresh here.push (Environment.optionalNames parameters) ∧
        ∀ u ∈ parameters.toList.flatMap (FormalParameters.uses here.push),
          Environment.TypeOk imports u := by
  constructor
  · intro h
    exact ⟨⟨fun _ _ => rfl, h.names, h.nonempty⟩, h.uses⟩
  · rintro ⟨hfresh, huses⟩
    exact ⟨huses, nofun, hfresh.nodup, hfresh.nonempty⟩

end Ok

/-- Nothing is repeated exactly if the names differ from each other and from those seen. -/
theorem repetitions_eq_nil {seen names : List String} :
    repetitions seen names = [] ↔ names.Nodup ∧ ∀ name ∈ names, name ∉ seen := by
  induction names generalizing seen with
  | nil => simp [repetitions]
  | cons name names ih =>
    unfold repetitions
    by_cases hmem : name ∈ seen
    · simp [hmem]
    · rw [if_neg hmem, ih, List.nodup_cons, List.forall_mem_cons]
      simp only [List.mem_cons, not_or]
      constructor
      · rintro ⟨hnodup, hnew⟩
        exact ⟨⟨fun hname => (hnew name hname).1 rfl, hnodup⟩, hmem, fun n hn => (hnew n hn).2⟩
      · rintro ⟨⟨hname, hnodup⟩, -, hnew⟩
        refine ⟨hnodup, fun n hn => ⟨?_, hnew n hn⟩⟩
        rintro rfl
        exact hname hn

theorem fieldNameProblems_eq_nil {fields : List FieldList} :
    fieldNameProblems fields = [] ↔ (fields.flatMap fun f => f.names.map IdentDef.name).Nodup := by
  rw [fieldNameProblems, List.map_eq_nil_iff, repetitions_eq_nil]
  simp

namespace Environment

variable {imports : List String} {env final : Environment} {ctx later : Context} {forward : Bool}

/-- There are no findings, and no problems of the pointer targets that are left to the final
environment. -/
def Clear (final : Environment) (forward : Bool) (findings : List Finding)
    (targets : List Qualident) :
    Prop :=
  findings = [] ∧ (forward = true → final.report (final.referenceProblems .type targets) = [])

/-- Two parts of a type are clear exactly if each of them is. -/
theorem clear_append {findings others : List Finding} {targets more : List Qualident} :
    Clear final forward (findings ++ others) (targets ++ more) ↔
      Clear final forward findings targets ∧ Clear final forward others more := by
  simp only [Clear, List.append_eq_nil_iff, report_eq_nil, referenceProblems_eq_nil,
    List.forall_mem_append]
  constructor
  · rintro ⟨⟨h, h'⟩, htargets⟩
    exact ⟨⟨h, fun hf => (htargets hf).1⟩, h', fun hf => (htargets hf).2⟩
  · rintro ⟨⟨h, ht⟩, h', ht'⟩
    exact ⟨⟨h, h'⟩, fun hf => ⟨ht hf, ht' hf⟩⟩

theorem clear_nil {findings : List Finding} : Clear final forward findings [] ↔ findings = [] :=
  and_iff_left fun _ => rfl

/-- Where pointer targets are looked up again: in the final environment, or not at all. -/
def Later (imports : List String) (final : Environment) (ctx later : Context)
    (forward : Bool) : Prop :=
  if forward then MatchesNames imports final later else later = ctx

/-- A target that is undeclared here is the only one that is left for later. -/
theorem MatchesNames.isForward_iff (h : MatchesNames imports env ctx) (q : Qualident) :
    env.isForward q = true ↔ q.qualifier = none ∧ ctx.find? q.name = none := by
  have hkind := h.kind q.name
  have hnone : (env.symbols.find? q.name).isNone = true ↔ ctx.find? q.name = none := by
    rw [Option.isNone_iff_eq_none, ← Option.map_eq_none_iff, hkind, Option.map_eq_none_iff]
  unfold isForward Qualident.isQualified
  rw [Bool.and_eq_true, hnone, Bool.not_eq_true', Option.isSome_eq_false_iff,
    Option.isNone_iff_eq_none]

/-- A name that means something here is judged here. -/
theorem typeOk_here {q : Qualident} (h : ¬ (q.qualifier = none ∧ ctx.find? q.name = none)) :
    TypeOk imports ⟨q, ctx, later⟩ ↔ TypeOk imports (.inside ctx q) := by
  refine and_congr_left' (imp_congr_right fun hqualifier => ?_)
  have hfind : ctx.find? q.name ≠ none := fun hnone => h ⟨hqualifier, hnone⟩
  obtain ⟨m, hm⟩ := Option.ne_none_iff_exists'.mp hfind
  simp [Use.kind?, Use.inside, hm]

/-- A name that means nothing here is judged later. -/
theorem typeOk_later {q : Qualident} (h : ctx.find? q.name = none) :
    TypeOk imports ⟨q, ctx, later⟩ ↔ TypeOk imports (.inside later q) := by
  simp [TypeOk, Use.kind?, Use.inside, h]

/-- A pointer to a name is checked here, or its name is left for later. -/
theorem clear_pointer_named (h : Matches imports env ctx)
    (hlater : Later imports final ctx later forward)
    (q : Qualident) :
    Clear final forward ((TypeExpr.pointer (.named q)).check env forward)
        ((TypeExpr.pointer (.named q)).forwardTargets env) ↔
      TypeOk imports ⟨q, ctx, later⟩ := by
  rw [TypeExpr.check, TypeExpr.forwardTargets]
  by_cases hforward : env.isForward q = true
  · have hnone := ((h.toMatchesNames.isForward_iff q).mp hforward).2
    rw [typeOk_later hnone, if_pos hforward]
    cases forward with
    | true =>
      have hfinal : MatchesNames imports final later := hlater
      rw [hforward, Bool.and_self, if_pos rfl, Clear, hfinal.types_ok, List.forall_mem_singleton]
      simp
    | false =>
      have hsame : later = ctx := hlater
      rw [if_neg nofun, Clear, h.types_ok, List.forall_mem_singleton, hsame]
      simp
  -- a target that is declared here is checked here, and never again
  · have hdeclared := mt (h.toMatchesNames.isForward_iff q).mpr hforward
    rw [typeOk_here hdeclared, if_neg hforward, clear_nil]
    rw [Bool.not_eq_true] at hforward
    rw [hforward, Bool.and_false, if_neg nofun, h.types_ok, List.forall_mem_singleton]

/-- Lengths are without findings exactly if each is a positive integer. -/
theorem lengths_eq_nil (h : Matches imports env ctx) {lengths : List Expression} :
    env.report (lengths.flatMap env.lengthProblems) = [] ↔ ∀ e ∈ lengths, ctx.IsLength e := by
  rw [report_eq_nil, List.flatMap_eq_nil_iff]
  exact forall₂_congr fun e _ => h.lengthProblems_eq_nil

/-- A pointer to a type that is written out is checked like that type. -/
theorem check_pointer {target : TypeExpr} (h : ∀ q, target ≠ .named q) :
    (TypeExpr.pointer target).check env forward = target.check env forward ∧
      (TypeExpr.pointer target).forwardTargets env = target.forwardTargets env ∧
      (TypeExpr.pointer target).subtypes = .pointer target :: target.subtypes := by
  refine ⟨?_, ?_, ?_⟩
  · rw [TypeExpr.check]
    exact h
  · rw [TypeExpr.forwardTargets]
    exact h
  · rw [TypeExpr.subtypes]
    exact h

end Environment

open Environment

section Check

variable {imports : List String} {env final : Environment} {ctx later : Context} {forward : Bool}

mutual

-- The induction follows the type; the target of a pointer is checked in its place.
theorem TypeExpr.clear_iff (h : Matches imports env ctx)
    (hlater : Later imports final ctx later forward) (t : TypeExpr) :
    Clear final forward (t.check env forward) (t.forwardTargets env) ↔
      ∀ s ∈ t.subtypes, (TypePlace.mk s ctx later).Ok imports := by
  match t with
  | .named q =>
    rw [TypeExpr.check, TypeExpr.forwardTargets, TypeExpr.subtypes, clear_nil, h.types_ok,
      List.forall_mem_singleton, List.forall_mem_singleton, ok_named]
  | .array lengths element =>
    rw [TypeExpr.check, TypeExpr.forwardTargets, TypeExpr.subtypes, List.forall_mem_cons, ok_array,
      ← element.clear_iff h hlater, ← lengths_eq_nil h, ← clear_nil, ← clear_append,
      List.nil_append]
  | .record base fields =>
    rw [TypeExpr.check, TypeExpr.forwardTargets, TypeExpr.subtypes, List.forall_mem_cons, ok_record,
      ← FieldList.clear_iff h hlater fields, ← h.types_ok, ← fieldNameProblems_eq_nil,
      ← report_eq_nil, ← List.append_eq_nil_iff, ← clear_nil, ← clear_append, List.nil_append]
  | .pointer target =>
    have ih := target.clear_iff h hlater
    by_cases hnamed : ∃ q, target = .named q
    · obtain ⟨q, rfl⟩ := hnamed
      rw [clear_pointer_named h hlater, TypeExpr.subtypes, List.forall_mem_singleton,
        ok_pointer_named]
    · have htarget : ∀ q, target ≠ .named q := fun q hq => hnamed ⟨q, hq⟩
      obtain ⟨hcheck, htargets, hsubtypes⟩ := check_pointer htarget
      rw [hcheck, htargets, hsubtypes, List.forall_mem_cons, ih, and_iff_right (ok_pointer htarget)]
  | .procedure parameters =>
    -- the parameters have a scope of their own
    have hscope : MatchesHeading imports env.constants env.enterProcedureType ctx.push :=
      ⟨h.toMatchesNames.push rfl rfl, rfl⟩
    rw [TypeExpr.check, TypeExpr.forwardTargets, TypeExpr.subtypes, clear_nil,
      List.forall_mem_singleton, ok_procedure]
    exact (decides_optionalParameters hscope parameters).1

theorem FieldList.type_clear_iff (h : Matches imports env ctx)
    (hlater : Later imports final ctx later forward) (fields : FieldList) :
    Clear final forward (fields.check env forward) (fields.forwardTargets env) ↔
      ∀ s ∈ fields.typeSubtypes, (TypePlace.mk s ctx later).Ok imports := by
  match fields with
  | ⟨names, type⟩ =>
    rw [FieldList.check, FieldList.forwardTargets, FieldList.typeSubtypes, type.clear_iff h hlater]

/-- Field lists are clear exactly if the types inside them obey the rules. -/
theorem FieldList.clear_iff (h : Matches imports env ctx)
    (hlater : Later imports final ctx later forward) (fields : List FieldList) :
    Clear final forward (FieldList.checkAll env forward fields)
        (FieldList.allForwardTargets env fields) ↔
      ∀ s ∈ FieldList.subtypes fields, (TypePlace.mk s ctx later).Ok imports := by
  match fields with
  | [] => simp [FieldList.checkAll, FieldList.allForwardTargets, FieldList.subtypes, clear_nil]
  | field :: others =>
    rw [FieldList.checkAll, FieldList.allForwardTargets, FieldList.subtypes, clear_append,
      List.forall_mem_append, field.type_clear_iff h hlater, FieldList.clear_iff h hlater others]

end

end Check

end Oberon
