import Oberon.Proofs.Check.NameProblems

/-!
# What the checker finds about names

One lemma for each form of declaration: checked in an environment that sees the names of its
context, it gives rise to as many problems with names as its uses and scopes have, whatever else
is wrong, and the environment behind it sees the names of the context behind it.  The induction
over the procedures collects all blocks.
-/

namespace Oberon

open Environment

/-! ## Outcomes -/

/-- The check declares the names and finds as many selected problems as the repeated ones among
them and those that are due otherwise. -/
structure Reports (sel : Selection) (imports seen : List String)
    (outcome : Environment × List Finding)
    (names : List String) (ctx : Context) (due : Nat) : Prop where
  next : Sees imports (names ++ seen) outcome.1 ctx
  count : sel.findings outcome.2 = sel.repeated seen names + due

section Reports

variable {sel : Selection} {imports imports' seen : List String}
  {first second : Environment × List Finding} {names others : List String} {env : Environment}
  {ctx ctx' : Context} {due due' : Nat}

/-- Two checks one after the other; the second sees the names of the first. -/
theorem Reports.andThen (h : Reports sel imports seen first names ctx due)
    (hsecond : Sees imports (names ++ seen) first.1 ctx →
      Reports sel imports' (names ++ seen) second others ctx' due') :
    Reports sel imports' seen (second.1, first.2 ++ second.2) (names ++ others) ctx'
      (due + due') := by
  have hnext := hsecond h.next
  constructor
  · refine hnext.next.congr fun name => ?_
    simp only [List.mem_append]
    grind
  · rw [sel.findings_append, h.count, hnext.count, sel.repeated_append]
    omega

/-- A check that goes on in the environment it leaves. -/
theorem Reports.andFindings {findings : List Finding}
    (h : Reports sel imports seen first names ctx due)
    (hmore : Sees imports (names ++ seen) first.1 ctx → sel.findings findings = due') :
    Reports sel imports seen (first.1, first.2 ++ findings) names ctx (due + due') := by
  refine ⟨h.next, ?_⟩
  rw [sel.findings_append, h.count, hmore h.next, Nat.add_assoc]

/-- What is due for items of one form, and what has to be known of each. -/
theorem reports_sequence {α : Type} {check : Environment → α → Environment × List Finding}
    {declare : Context → α → Context} {namesOf : α → List String} {proper : Context → α → Prop}
    {dueOf : Context → α → Nat}
    (h : ∀ ⦃seen env ctx⦄, Sees imports seen env ctx → ∀ x, proper ctx x →
      Reports sel imports seen (check env x) (namesOf x) (declare ctx x) (dueOf ctx x))
    (hsees : Sees imports seen env ctx) (xs : List α)
    (hproper : ∀ place ∈ ctx.places declare xs, proper place.1 place.2) :
    Reports sel imports seen (sequence check env xs) (xs.flatMap namesOf) (xs.foldl declare ctx)
      ((ctx.places declare xs).map fun place => dueOf place.1 place.2).sum := by
  induction xs generalizing seen env ctx with
  | nil => exact ⟨hsees, rfl⟩
  | cons x xs ih =>
    obtain ⟨hfirst, hothers⟩ := List.forall_mem_cons.mp hproper
    have hall := (h hsees x hfirst).andThen fun hnext => ih hnext hothers
    rw [Context.places, List.map_cons, List.sum_cons]
    exact hall

end Reports

/-! ## Declarations of names -/

section Names

variable (sel : Selection) {imports seen : List String} {env : Environment} {ctx : Context}

/-- A declared name is reported once if it was declared before, and is seen from then on. -/
theorem reports_declare (h : Sees imports seen env ctx) {name : String} (hname : name ≠ "")
    (symbol : Symbol) (binding : Option (Option Value)) (m : Meaning) :
    Reports sel imports seen (env.declare name symbol binding) [name] (ctx.bind name m) 0 := by
  refine ⟨h.declare hname symbol binding m, ?_⟩
  have hexport : (env.exportProblems name symbol.exported).countP sel.test = 0 := by
    unfold exportProblems
    split
    next => exact sel.countP_singleton rfl
    next => rfl
  unfold Selection.repeated repetitions repetitions declare SymbolTable.insert
  rw [if_neg hname]
  by_cases hmem : name ∈ seen
  · rw [if_pos hmem, if_pos ((h.isLocal name).mpr hmem)]
    dsimp only
    rw [sel.findings_report, List.countP_append, hexport, Nat.zero_add]
    rfl
  · rw [if_neg hmem, if_neg (mt (h.isLocal name).mp hmem)]
    dsimp only
    rw [sel.findings_report, hexport]
    rfl

theorem reports_declareOther
    (kind : SymbolKind) ⦃seen : List String⦄ ⦃env : Environment⦄ ⦃ctx : Context⦄
    (h : Sees imports seen env ctx) (d : IdentDef) (hname : d.name ≠ "") :
    Reports sel imports seen (env.declareOther kind d) [d.name] (ctx.declare kind d.name) 0 :=
  reports_declare sel h hname _ _ _

theorem reports_declareParameter ⦃seen : List String⦄ ⦃env : Environment⦄ ⦃ctx : Context⦄
    (h : Sees imports seen env ctx) (name : String) (hname : name ≠ "") :
    Reports sel imports seen (env.declareParameter name) [name] (ctx.declare .parameter name) 0 :=
  reports_declare sel h hname _ _ _

variable {sel}

/-- Names that are declared one after the other. -/
theorem reports_declareNames {α : Type} {check : Environment → α → Environment × List Finding}
    {declare : Context → α → Context} {nameOf : α → String}
    (h : ∀ ⦃seen env ctx⦄, Sees imports seen env ctx → ∀ x, nameOf x ≠ "" →
      Reports sel imports seen (check env x) [nameOf x] (declare ctx x) 0)
    (hsees : Sees imports seen env ctx) (xs : List α) (hnames : ∀ name ∈ xs.map nameOf, name ≠ "") :
    Reports sel imports seen (sequence check env xs) (xs.map nameOf) (xs.foldl declare ctx) 0 := by
  have hall := reports_sequence h hsees xs fun place hplace =>
    hnames _ (List.mem_map_of_mem (Context.mem_of_mem_places place hplace))
  rw [← List.map_eq_flatMap, List.map_const', List.sum_replicate, nsmul_zero] at hall
  exact hall

end Names

/-! ## Parameters -/

section Parameters

variable (sel : Selection) {imports seen : List String} {env : Environment} {ctx : Context}

/-- A parameter section is due the problem of its type. -/
theorem reports_checkParameterSection ⦃seen : List String⦄ ⦃env : Environment⦄ ⦃ctx : Context⦄
    (h : Sees imports seen env ctx) (s : ParameterSection) (hnames : ∀ name ∈ s.names, name ≠ "") :
    Reports sel imports seen (env.checkParameterSection s) s.names (ctx.declareSection s)
      (sel.uses imports [.inside (ctx.declareSection s) s.type.name]) := by
  rw [← List.map_id' s.names] at hnames
  have hdeclared := reports_declareNames (reports_declareParameter sel) h s.names hnames
  rw [List.map_id'] at hdeclared
  have hall := hdeclared.andFindings fun hnext => hnext.findings_references sel .type [s.type.name]
  rw [Nat.zero_add] at hall
  exact hall

/-- Parameters are due the problems of their types. -/
theorem reports_checkParameters ⦃seen : List String⦄ ⦃env : Environment⦄ ⦃ctx : Context⦄
    (h : Sees imports seen env ctx) (p : FormalParameters)
    (hnames : ∀ name ∈ parameterNames p.sections, name ≠ "") :
    Reports sel imports seen (env.checkParameters p) (parameterNames p.sections)
      (p.sections.foldl Context.declareSection ctx) (sel.uses imports (p.uses ctx)) := by
  have hsections := reports_sequence (reports_checkParameterSection sel) h p.sections
    fun place hplace => (List.forall_mem_flatMap.mp hnames)
      _ (Context.mem_of_mem_places place hplace)
  rw [FormalParameters.uses, sel.uses_append, List.map_eq_flatMap, sel.uses_flatMap]
  exact hsections.andFindings fun hnext => hnext.findings_references sel .type p.result.toList

theorem reports_optionalParameters (h : Sees imports seen env ctx) (p : Option FormalParameters)
    (hnames : ∀ name ∈ optionalNames p, name ≠ "") :
    Reports sel imports seen (sequence checkParameters env p.toList) (optionalNames p)
      (ctx.declareAll .parameter (optionalNames p))
      (sel.uses imports (p.toList.flatMap (FormalParameters.uses ctx))) := by
  cases p with
  | none => exact ⟨h, rfl⟩
  | some p =>
    have hone : sequence checkParameters env [p] = ((env.checkParameters p).1,
        (env.checkParameters p).2 ++ []) := rfl
    have hsections : optionalNames (some p) = parameterNames p.sections :=
      List.flatMap_singleton _ _
    rw [hsections] at hnames ⊢
    rw [Option.toList_some, hone, List.flatMap_singleton, List.append_nil, ← foldl_declareSection]
    exact reports_checkParameters sel h p hnames

end Parameters

/-! ## Types -/

section Types

variable (sel : Selection) {imports seen : List String} {env : Environment} {ctx later : Context}
  {forward : Bool}

def TypePlace.Proper (place : TypePlace) : Prop :=
  ∀ name ∈ place.parameterNames, name ≠ ""

/-- The selected problems of pointer targets that are left for later. -/
def Selection.postponed (imports : List String) (later : Context) (forward : Bool)
    (targets : List Qualident) : Nat :=
  if forward then sel.uses imports (targets.map (.inside later)) else 0

theorem Selection.postponed_nil : sel.postponed imports later forward [] = 0 := by
  cases forward <;> rfl

theorem Selection.postponed_append (targets more : List Qualident) :
    sel.postponed imports later forward (targets ++ more) =
      sel.postponed imports later forward targets + sel.postponed imports later forward more := by
  cases forward with
  | false => rfl
  | true =>
    simp only [postponed, if_true]
    rw [List.map_append, sel.uses_append]

/-- A name that means nothing here has the problem that it has later. -/
theorem Use.problem?_later {q : Qualident} (h : ctx.find? q.name = none) :
    Use.problem? imports ⟨q, ctx, later⟩ = (Use.inside later q).problem? imports := by
  have hkind : Use.kind? ⟨q, ctx, later⟩ = (Use.inside later q).kind? := by
    rw [inside_kind?, Use.kind?, h, Option.none_or]
  unfold Use.problem?
  rw [hkind]
  rfl

/-- A name that means something here has its problem here. -/
theorem Use.problem?_here {q : Qualident} (h : ¬ (q.qualifier = none ∧ ctx.find? q.name = none)) :
    Use.problem? imports ⟨q, ctx, later⟩ = (Use.inside ctx q).problem? imports := by
  unfold Use.problem? Use.inside
  dsimp only
  cases hqualifier : q.qualifier with
  | some qualifier => rfl
  | none =>
    obtain ⟨m, hm⟩ := Option.ne_none_iff_exists'.mp fun hnone => h ⟨hqualifier, hnone⟩
    simp only [Use.kind?, hm, Option.some_or]

theorem Sees.isForward_iff (h : Sees imports seen env ctx) (q : Qualident) :
    env.isForward q = true ↔ q.qualifier = none ∧ ctx.find? q.name = none := by
  have hfind := h.find? q.name
  unfold isForward Qualident.isQualified
  rw [Bool.and_eq_true, Bool.not_eq_true', Option.isSome_eq_false_iff, Option.isNone_iff_eq_none,
    ← Option.isSome_eq_false_iff, hfind, Option.isSome_eq_false_iff, Option.isNone_iff_eq_none]

/-- A pointer to a type that is written out uses no name itself. -/
theorem Selection.place_pointer {target : TypeExpr} (h : ∀ q, target ≠ .named q) :
    sel.place imports ⟨.pointer target, ctx, later⟩ = 0 := by
  cases target with
  | named q => exact absurd rfl (h q)
  | _ => rfl

/-- A pointer target is referred to once: at its place, or at the end of the section. -/
theorem Sees.pointer_named (h : Sees imports seen env ctx) (hlater : forward = false → later = ctx)
    (q : Qualident) : sel.findings ((TypeExpr.pointer (.named q)).check env forward) +
      sel.postponed imports later forward ((TypeExpr.pointer (.named q)).forwardTargets env) =
        sel.uses imports [⟨q, ctx, later⟩] := by
  rw [TypeExpr.check, TypeExpr.forwardTargets]
  by_cases hforward : env.isForward q = true
  · -- a forward target counts once: where it is looked up again
    have hnone := ((h.isForward_iff q).mp hforward).2
    have huse : sel.uses imports [⟨q, ctx, later⟩] = sel.uses imports [.inside later q] := by
      unfold Selection.uses
      rw [List.countP_singleton, List.countP_singleton, Use.problem?_later hnone]
    rw [huse, if_pos hforward]
    cases forward with
    | true =>
      rw [hforward, Bool.and_self, if_pos rfl]
      exact Nat.zero_add _
    | false =>
      rw [if_neg nofun, h.findings_references sel .type, hlater rfl]
      rfl
  · have huse : sel.uses imports [⟨q, ctx, later⟩] = sel.uses imports [.inside ctx q] := by
      unfold Selection.uses
      rw [List.countP_singleton, List.countP_singleton,
        Use.problem?_here (mt (h.isForward_iff q).mpr hforward)]
    rw [Bool.not_eq_true] at hforward
    rw [huse, hforward, Bool.and_false, if_neg nofun, if_neg nofun, sel.postponed_nil,
      h.findings_references sel .type]
    rfl

end Types

section Check

variable (sel : Selection) {imports seen : List String} {env : Environment} {ctx later : Context}
  {forward : Bool}

mutual

-- The induction follows the type; the target of a pointer is checked in its place.
theorem TypeExpr.findings_check (h : Sees imports seen env ctx)
    (hlater : forward = false → later = ctx)
    (t : TypeExpr) (hproper : ∀ s ∈ t.subtypes, (TypePlace.mk s ctx later).Proper) :
    sel.findings (t.check env forward) +
        sel.postponed imports later forward (t.forwardTargets env) =
      sel.places imports (t.places ctx later) := by
  match t with
  | .named q =>
    rw [TypeExpr.check, TypeExpr.forwardTargets, TypeExpr.places, TypeExpr.subtypes,
      sel.postponed_nil, h.findings_references sel .type]
    rfl
  | .array lengths element =>
    rw [TypeExpr.subtypes] at hproper
    have ih := element.findings_check h hlater (List.forall_mem_cons.mp hproper).2
    have hhere : sel.place imports ⟨.array lengths element, ctx, later⟩ =
        sel.uses imports ((lengths.map fun e => (ctx, e)).flatMap Use.among) := Nat.zero_add _
    rw [TypeExpr.check, TypeExpr.forwardTargets, TypeExpr.places, TypeExpr.subtypes, List.map_cons,
      sel.places_cons, hhere, sel.findings_append, sel.findings_report, h.lengths sel,
      Nat.add_assoc, ih]
    rfl
  | .record base fields =>
    rw [TypeExpr.subtypes] at hproper
    have ih := FieldList.findings_checkAll h hlater fields (List.forall_mem_cons.mp hproper).2
    have hhere : sel.place imports ⟨.record base fields, ctx, later⟩ =
        sel.uses imports (base.toList.map (.inside ctx)) := rfl
    have hfields : (fieldNameProblems fields).countP sel.test = 0 := by
      rw [fieldNameProblems, List.countP_map, List.countP_eq_zero]
      intro name _
      exact Bool.eq_false_iff.mp (sel.test_eq_false rfl)
    rw [TypeExpr.check, TypeExpr.forwardTargets, TypeExpr.places, TypeExpr.subtypes, List.map_cons,
      sel.places_cons, hhere, sel.findings_append, sel.findings_append,
      h.findings_references sel .type, sel.findings_report, hfields, Nat.add_zero,
      Nat.add_assoc, ih]
  | .pointer target =>
    have ih := target.findings_check h hlater
    by_cases hnamed : ∃ q, target = .named q
    · obtain ⟨q, rfl⟩ := hnamed
      rw [h.pointer_named sel hlater, TypeExpr.places, TypeExpr.subtypes]
      rfl
    · have htarget : ∀ q, target ≠ .named q := fun q hq => hnamed ⟨q, hq⟩
      obtain ⟨hcheck, htargets, hsubtypes⟩ := check_pointer htarget
      rw [hsubtypes] at hproper
      rw [hcheck, htargets, ih (List.forall_mem_cons.mp hproper).2, TypeExpr.places,
        TypeExpr.places, hsubtypes, List.map_cons, sel.places_cons, sel.place_pointer htarget,
        Nat.zero_add]
  | .procedure parameters =>
    rw [TypeExpr.subtypes] at hproper
    -- the parameters have a scope of their own
    have hinner : Sees imports [] env.enterProcedureType ctx.push := h.push rfl rfl
    have hscope := reports_optionalParameters sel hinner parameters
      (List.forall_mem_singleton.mp hproper)
    rw [TypeExpr.check, TypeExpr.forwardTargets, TypeExpr.places, TypeExpr.subtypes,
      sel.postponed_nil, hscope.count, Nat.add_comm (sel.repeated _ _)]
    rfl

theorem FieldList.findings_check (h : Sees imports seen env ctx)
    (hlater : forward = false → later = ctx) (fields : FieldList)
    (hproper : ∀ s ∈ fields.typeSubtypes, (TypePlace.mk s ctx later).Proper) :
    sel.findings (fields.check env forward) +
        sel.postponed imports later forward (fields.forwardTargets env) =
      sel.places imports (fields.typeSubtypes.map fun s => ⟨s, ctx, later⟩) := by
  match fields with
  | ⟨names, type⟩ =>
    rw [FieldList.typeSubtypes] at hproper ⊢
    rw [FieldList.check, FieldList.forwardTargets]
    exact type.findings_check h hlater hproper

theorem FieldList.findings_checkAll (h : Sees imports seen env ctx)
    (hlater : forward = false → later = ctx) (fields : List FieldList)
    (hproper : ∀ s ∈ FieldList.subtypes fields, (TypePlace.mk s ctx later).Proper) :
    sel.findings (FieldList.checkAll env forward fields) +
        sel.postponed imports later forward (FieldList.allForwardTargets env fields) =
      sel.places imports ((FieldList.subtypes fields).map fun s => ⟨s, ctx, later⟩) := by
  match fields with
  | [] =>
    rw [FieldList.checkAll, FieldList.allForwardTargets, FieldList.subtypes, sel.postponed_nil]
    rfl
  | field :: others =>
    rw [FieldList.subtypes] at hproper ⊢
    rw [List.forall_mem_append] at hproper
    have hfield := field.findings_check h hlater hproper.1
    have hothers := FieldList.findings_checkAll h hlater others hproper.2
    rw [FieldList.checkAll, FieldList.allForwardTargets, sel.findings_append, sel.postponed_append,
      List.map_append, sel.places_append]
    omega

end

/-- In a type section the targets that are left count where they are looked up again. -/
theorem TypeExpr.findings_check_forward (h : Sees imports seen env ctx) (t : TypeExpr)
    (hproper : ∀ s ∈ t.subtypes, (TypePlace.mk s ctx later).Proper) :
    sel.findings (t.check env true) +
      sel.uses imports ((t.forwardTargets env).map (.inside later)) =
      sel.places imports (t.places ctx later) :=
  have hlater : true = false → later = ctx := nofun
  t.findings_check sel h hlater hproper

/-- Outside of type sections nothing is left for later. -/
theorem TypeExpr.findings_check_here (h : Sees imports seen env ctx) (t : TypeExpr)
    (hproper : ∀ s ∈ t.subtypes, (TypePlace.mk s ctx ctx).Proper) :
    sel.findings (t.check env false) = sel.places imports (t.places ctx ctx) :=
  have hlater : false = false → ctx = ctx := fun _ => rfl
  t.findings_check sel h hlater hproper

end Check

/-! ## Sections -/

section Sections

variable (sel : Selection) {imports seen : List String} {env : Environment} {ctx later : Context}

/-- A constant is due the problems of the names in its expression. -/
theorem reports_checkConstant ⦃seen : List String⦄ ⦃env : Environment⦄ ⦃ctx : Context⦄
    (h : Sees imports seen env ctx) (d : ConstDeclaration) (hname : d.name.name ≠ "") :
    Reports sel imports seen (env.checkConstant d) [d.name.name] (ctx.declareConstant d)
      (sel.uses imports (Use.among (ctx, d.value))) := by
  have hdeclare := reports_declare sel h hname ⟨.constant, d.name.exported⟩
    (some (env.constantValue d.value).2) ⟨.constant, (ctx.evaluate d.value).toOption⟩
  refine ⟨hdeclare.next, ?_⟩
  rw [← h.constantValue sel d.value, ← sel.findings_report env, Nat.add_comm]
  exact (sel.findings_append _ _).trans (congrArg (_ + ·) hdeclare.count)

/-- A constant section is due the problems of all its expressions. -/
theorem reports_constants (h : Sees imports seen env ctx) (ds : List ConstDeclaration)
    (hnames : ∀ d ∈ ds, d.name.name ≠ "") :
    Reports sel imports seen (sequence checkConstant env ds) (ds.map fun d => d.name.name)
      (ds.foldl Context.declareConstant ctx)
      (sel.uses imports (((ctx.places Context.declareConstant ds).map fun place =>
        (place.1, place.2.value)).flatMap Use.among)) := by
  have hall := reports_sequence (reports_checkConstant sel) h ds fun place hplace =>
    hnames _ (Context.mem_of_mem_places place hplace)
  rw [List.flatMap_map, sel.uses_flatMap, List.map_eq_flatMap]
  exact hall

/-- The targets that are not declared at their place are left to the end of the section. -/
theorem Sees.findings_checkTypes (h : Sees imports seen env ctx) (ds : List TypeDeclaration)
    (hnames : ∀ d ∈ ds, d.name.name ≠ "")
    (hproper : ∀ place ∈ ctx.places Context.declareType ds, ∀ s ∈ place.2.type.subtypes,
      (TypePlace.mk s place.1 later).Proper) :
    sel.findings (env.checkTypes ds).2.1 +
      sel.uses imports ((env.checkTypes ds).2.2.map (.inside later)) =
      sel.repeated seen (ds.map fun d => d.name.name) +
        ((ctx.places Context.declareType ds).map fun place =>
          sel.places imports (place.2.type.places place.1 later)).sum := by
  induction ds generalizing seen env ctx with
  | nil => rfl
  | cons d ds ih =>
    rw [List.forall_mem_cons] at hnames
    obtain ⟨hfirst, hothers⟩ := List.forall_mem_cons.mp hproper
    have hdeclare : Reports sel imports seen (env.declareOther .type d.name) [d.name.name]
        (ctx.declareType d) 0 := reports_declareOther sel .type h d.name hnames.1
    -- the type is checked in front of the declaration of its name
    have htype := d.type.findings_check_forward sel h hfirst
    have hrest := ih hdeclare.next hnames.2 hothers
    have hsplit : sel.findings (env.checkTypes (d :: ds)).2.1 =
        sel.findings (d.type.check env true) + sel.findings (env.declareOther .type d.name).2 +
          sel.findings ((env.declareOther .type d.name).1.checkTypes ds).2.1 := by
      rw [← sel.findings_append, ← sel.findings_append]
      rfl
    have htargets : (env.checkTypes (d :: ds)).2.2 =
        d.type.forwardTargets env ++ ((env.declareOther .type d.name).1.checkTypes ds).2.2 := rfl
    have hrepeated : sel.repeated seen ((d :: ds).map fun d => d.name.name) =
        sel.repeated seen [d.name.name] +
          sel.repeated ([d.name.name] ++ seen) (ds.map fun d => d.name.name) :=
      sel.repeated_append seen [d.name.name] _
    rw [hsplit, htargets, hrepeated, List.map_append, sel.uses_append, hdeclare.count,
      Context.places, List.map_cons, List.sum_cons]
    dsimp only
    omega

/-- A type section is due the problems of its types, targets included. -/
theorem reports_checkTypeSection (h : Sees imports seen env ctx) (ds : List TypeDeclaration)
    (hnames : ∀ d ∈ ds, d.name.name ≠ "")
    (hproper : ∀ place ∈ ctx.places Context.declareType ds, ∀ s ∈ place.2.type.subtypes,
      (TypePlace.mk s place.1 (ds.foldl Context.declareType ctx)).Proper) :
    Reports sel imports seen (env.checkTypeSection ds) (ds.map fun d => d.name.name)
      (ds.foldl Context.declareType ctx)
      (sel.places imports ((ctx.places Context.declareType ds).flatMap fun place =>
        place.2.type.places place.1 (ds.foldl Context.declareType ctx))) := by
  have hdeclared := (reports_declareNames (reports_declareOther sel .type) h
    (ds.map TypeDeclaration.name) (by simpa using hnames)).next
  rw [List.map_map, List.foldl_map] at hdeclared
  have hnext : Sees imports (ds.map (fun d => d.name.name) ++ seen) (env.checkTypes ds).1
      (ds.foldl Context.declareType ctx) := by
    rw [checkTypes_fst]
    exact hdeclared
  refine ⟨hnext, ?_⟩
  have hsection : sel.findings (env.checkTypeSection ds).2 = sel.findings (env.checkTypes ds).2.1 +
      sel.findings ((env.checkTypes ds).1.report
        ((env.checkTypes ds).1.referenceProblems .type (env.checkTypes ds).2.2)) :=
    sel.findings_append _ _
  rw [hsection, hnext.findings_references sel .type, sel.places_flatMap]
  exact h.findings_checkTypes sel ds hnames hproper

/-- Variables are due the problems of their type. -/
theorem reports_checkVariable ⦃seen : List String⦄ ⦃env : Environment⦄ ⦃ctx : Context⦄
    (h : Sees imports seen env ctx) (d : VariableDeclaration)
    (hproper : (∀ name ∈ d.variableNames, name ≠ "") ∧ ∀ s ∈ d.type.subtypes,
      (TypePlace.mk s (ctx.declareVariables d) (ctx.declareVariables d)).Proper) :
    Reports sel imports seen (env.checkVariable d) d.variableNames (ctx.declareVariables d)
      (sel.places imports (d.type.places (ctx.declareVariables d) (ctx.declareVariables d))) := by
  have hdeclared := reports_declareNames (reports_declareOther sel .variable) h d.names hproper.1
  rw [foldl_declare] at hdeclared
  have hall := hdeclared.andFindings fun hnext => d.type.findings_check_here sel hnext hproper.2
  rw [Nat.zero_add] at hall
  exact hall

/-- A variable section is due the problems of all its types. -/
theorem reports_variables (h : Sees imports seen env ctx) (ds : List VariableDeclaration)
    (hnames : ∀ d ∈ ds, ∀ name ∈ d.variableNames, name ≠ "")
    (hproper : ∀ place ∈ ctx.places Context.declareVariables ds, ∀ s ∈ place.2.type.subtypes,
      (TypePlace.mk s (place.1.declareVariables place.2)
        (place.1.declareVariables place.2)).Proper) :
    Reports sel imports seen (sequence checkVariable env ds)
      (ds.flatMap VariableDeclaration.variableNames) (ds.foldl Context.declareVariables ctx)
      (sel.places imports ((ctx.places Context.declareVariables ds).flatMap fun place =>
        place.2.type.places (place.1.declareVariables place.2)
          (place.1.declareVariables place.2))) := by
  have hall := reports_sequence (reports_checkVariable sel) h ds fun place hplace =>
    ⟨hnames _ (Context.mem_of_mem_places place hplace), hproper place hplace⟩
  rw [sel.places_flatMap]
  exact hall

/-! ## The end of a block -/

theorem Selection.endNameProblems (body : Body) (name endName : String) :
    (endNameProblems body name endName).countP sel.test = 0 := by
  unfold Environment.endNameProblems
  split
  next => rfl
  next => exact sel.countP_singleton rfl

/-- A result has as many selected problems as the names in it. -/
theorem Sees.resultProblems (h : Sees imports seen env ctx) (heading : ProcedureHeading)
    (result : Option Expression) : (env.resultProblems heading result).countP sel.test =
      sel.uses imports (result.toList.flatMap fun e => e.names.map (.inside ctx)) := by
  unfold Environment.resultProblems
  cases result with
  | none =>
    dsimp only
    split
    next => exact sel.countP_singleton rfl
    next => rfl
  | some value =>
    dsimp only
    rw [List.countP_append, h.references sel .value, Option.toList_some, List.flatMap_singleton]
    split
    next => exact Nat.zero_add _
    next => rw [sel.countP_singleton rfl, Nat.zero_add]

theorem Sees.findings_end (h : Sees imports seen env ctx) (p : ProcedureDeclaration) :
    sel.findings (env.report (env.resultProblems p.heading p.result ++
        endNameProblems .procedure p.heading.name.name p.endName)) =
      sel.uses imports (p.result.toList.flatMap fun e => e.names.map (.inside ctx)) := by
  rw [sel.findings_report, List.countP_append, h.resultProblems sel, sel.endNameProblems,
    Nat.add_zero]

end Sections

/-! ## Blocks -/

def Selection.declarations (sel : Selection) (imports : List String) (ctx : Context)
    (d : Declarations) :
    Nat :=
  sel.uses imports ((d.constantValues ctx).flatMap Use.among) +
    sel.places imports (d.typePlaces ctx)

/-- The problems of a block: those of its names, its head, its declarations and its result. -/
theorem Selection.block_eq (sel : Selection) (imports : List String) (b : Block) :
    sel.block imports b = sel.repeated [] b.names +
      (sel.uses imports (b.parameters.toList.flatMap (FormalParameters.uses b.opening)) +
        sel.declarations imports b.start b.declarations + sel.uses imports b.resultUses) := by
  rw [block, Block.uses, Block.scopes, Block.typeUses, declarations, places_eq, List.flatMap_append,
    List.map_cons, List.sum_cons, Block.lengths, Block.constantValues, Block.typePlaces]
  simp only [uses_append]
  omega

structure Declarations.Proper (ctx : Context) (d : Declarations) : Prop where
  names : ∀ name ∈ d.identDefs.map IdentDef.name, name ≠ ""
  types : ∀ place ∈ d.typePlaces ctx, place.Proper

theorem Block.Proper.declarations {b : Block} (h : b.Proper) : b.declarations.Proper b.start :=
  ⟨(List.forall_mem_append.mp h.names).2, h.parameterNames⟩

section Blocks

def ReportsIn (sel : Selection) (imports : List String) (ctx : Context) (d : Declarations) : Prop :=
  ∀ seen env, Sees imports seen env ctx → Reports sel imports seen (checkDeclarations d env)
    (d.identDefs.map IdentDef.name) (d.afterAll ctx)
    (sel.declarations imports ctx d + sel.blocks imports (d.blocks ctx))

variable (sel : Selection) {imports seen : List String} {env outer : Environment} {ctx : Context}

/-- The findings inside a procedure are those of its block and of the blocks inside it. -/
theorem Sees.findings_procedure (h : Sees imports seen outer ctx) (p : ProcedureDeclaration)
    (hproper : (Block.procedure ctx p).Proper)
    (hdeclarations : ReportsIn sel imports (Block.procedure ctx p).start p.declarations) :
    sel.findings (procedureFindings outer p) = sel.blocks imports (p.allBlocks ctx) := by
  have hinner : Sees imports [] (outer.enterProcedure p.heading.name.name p.heading.parameterNames)
      ctx.push := h.push rfl rfl
  have hheading := reports_optionalParameters sel hinner p.heading.parameters
    (List.forall_mem_append.mp hproper.names).1
  have hall := (hheading.andThen (hdeclarations _ _)).andFindings fun hnext =>
    hnext.findings_end sel p
  have hcount : sel.findings (procedureFindings outer p) =
      sel.repeated [] (Block.procedure ctx p).names + _ := hall.count
  have hblock : sel.block imports (.procedure ctx p) =
      sel.repeated [] (Block.procedure ctx p).names +
      (sel.uses imports (p.heading.parameters.toList.flatMap (FormalParameters.uses ctx.push)) +
        sel.declarations imports (Block.procedure ctx p).start p.declarations +
        sel.uses imports (p.result.toList.flatMap fun e =>
          e.names.map (.inside (p.declarations.afterAll (Block.procedure ctx p).start)))) :=
    sel.block_eq imports (.procedure ctx p)
  rw [hcount, p.allBlocks_eq, sel.blocks_cons, hblock]
  omega

/-- A procedure is due the problems of its block and of the blocks inside it. -/
theorem reports_procedure (h : Sees imports seen env ctx) (p : ProcedureDeclaration)
    (hname : p.heading.name.name ≠ "")
    (hproper : (Block.procedure (ctx.declareProcedure p) p).Proper)
    (hdeclarations :
      ReportsIn sel imports (Block.procedure (ctx.declareProcedure p) p).start p.declarations) :
    Reports sel imports seen (checkProcedure p env) [p.heading.name.name] (ctx.declareProcedure p)
      (sel.blocks imports (p.allBlocks (ctx.declareProcedure p))) := by
  have hdeclare : Reports sel imports seen (env.declareOther .procedure p.heading.name)
      [p.heading.name.name] (ctx.declareProcedure p) 0 :=
    reports_declareOther sel .procedure h p.heading.name hname
  have hall := hdeclare.andFindings fun hnext =>
    hnext.findings_procedure sel p hproper hdeclarations
  rw [Nat.zero_add] at hall
  rw [checkProcedure_eq]
  exact hall

end Blocks

section Checked

variable (sel : Selection) {imports : List String}

mutual

-- The induction follows the procedures; every procedure brings the blocks inside it.
theorem Declarations.reports_check (d : Declarations) {ctx : Context} (hproper : d.Proper ctx)
    (hblocks : ∀ b ∈ d.blocks ctx, b.Proper) : ReportsIn sel imports ctx d := by
  match d with
  | ⟨constants, types, vars, procedures⟩ =>
    intro seen env h
    have hnames := hproper.names
    rw [Declarations.map_name_identDefs, List.forall_mem_append, List.forall_mem_append,
      List.forall_mem_append, List.forall_mem_map, List.forall_mem_map, List.forall_mem_map,
      List.forall_mem_flatMap] at hnames
    obtain ⟨⟨⟨hc, ht⟩, hv⟩, hp⟩ := hnames
    have hplaces := hproper.types
    simp only [Declarations.typePlaces, TypeExpr.places, List.forall_mem_append,
      List.forall_mem_flatMap, List.forall_mem_map] at hplaces
    rw [Declarations.blocks] at hblocks
    have hconstants := reports_constants sel h constants hc
    have htypes := hconstants.andThen fun h => reports_checkTypeSection sel h types ht hplaces.1
    have hvariables := htypes.andThen fun h => reports_variables sel h vars hv hplaces.2
    have hall := hvariables.andThen fun h =>
      ProcedureDeclaration.reports_checkAll procedures h hp hblocks
    rw [Declarations.map_name_identDefs, Selection.declarations, Declarations.blocks,
      Declarations.typePlaces, sel.places_append, ← Nat.add_assoc (sel.uses _ _), checkDeclarations]
    exact hall

theorem ProcedureDeclaration.reports_check (p : ProcedureDeclaration) {seen : List String}
    {env : Environment} {ctx : Context} (h : Sees imports seen env ctx)
    (hname : p.heading.name.name ≠ "")
    (hblocks : ∀ b ∈ p.allBlocks (ctx.declareProcedure p), b.Proper) :
    Reports sel imports seen (checkProcedure p env) [p.heading.name.name] (ctx.declareProcedure p)
      (sel.blocks imports (p.allBlocks (ctx.declareProcedure p))) := by
  match p with
  | ⟨heading, declarations, result, endName⟩ =>
    rw [ProcedureDeclaration.allBlocks, List.forall_mem_cons] at hblocks
    exact reports_procedure sel h _ hname hblocks.1
      (declarations.reports_check hblocks.1.declarations hblocks.2)

theorem ProcedureDeclaration.reports_checkAll (ps : List ProcedureDeclaration) {seen : List String}
    {env : Environment} {ctx : Context} (h : Sees imports seen env ctx)
    (hnames : ∀ p ∈ ps, p.heading.name.name ≠ "")
    (hblocks : ∀ b ∈ ProcedureDeclaration.blocks ctx ps, b.Proper) :
    Reports sel imports seen (checkProcedures ps env) (ps.map fun p => p.heading.name.name)
      (ps.foldl Context.declareProcedure ctx)
      (sel.blocks imports (ProcedureDeclaration.blocks ctx ps)) := by
  match ps with
  | [] => 
    rw [checkProcedures, ProcedureDeclaration.blocks]
    exact ⟨h, rfl⟩
  | p :: ps =>
    rw [ProcedureDeclaration.blocks, List.forall_mem_append] at hblocks
    rw [List.forall_mem_cons] at hnames
    have hall := (p.reports_check h hnames.1 hblocks.1).andThen fun hnext =>
      ProcedureDeclaration.reports_checkAll ps hnext hnames.2 hblocks.2
    rw [ProcedureDeclaration.blocks, sel.blocks_append, checkProcedures]
    exact hall

end

end Checked

/-! ## Modules -/

section Modules

variable (sel : Selection) {imports seen : List String} {env : Environment} {ctx : Context}

/-- An import is a module from its declaration on. -/
theorem reports_declareImport (h : Sees imports seen env ctx) {name : String} (hname : name ≠ "") :
    Reports sel (name :: imports) seen (env.declareImport name) [name]
      (ctx.declare .module name) 0 := by
  have hdeclare : Reports sel imports seen (env.declare name ⟨.module, false⟩ (some none)) [name]
      (ctx.declare .module name) 0 := reports_declare sel h hname _ _ _
  exact ⟨⟨hdeclare.next.isLocal, hdeclare.next.find?, congrArg (name :: ·) hdeclare.next.imports⟩,
    hdeclare.count⟩

/-- An import that cannot be declared is an import nevertheless. -/
theorem reports_imports (h : Sees imports seen env ctx) (names : List String)
    (hnames : ∀ name ∈ names, name ≠ "") :
    Reports sel (names.reverse ++ imports) seen (sequence declareImport env names) names
      (ctx.declareAll .module names) 0 := by
  induction names generalizing imports seen env ctx with
  | nil => exact ⟨h, rfl⟩
  | cons name names ih =>
    rw [List.forall_mem_cons] at hnames
    have hall := (reports_declareImport sel h hnames.1).andThen fun hnext => ih hnext hnames.2
    rw [List.reverse_cons, List.append_assoc]
    exact hall

theorem sees_enterModule (name : String) :
    Sees [] [] (initial.enterModule name) Context.predeclared.push := by
  have hmatches := (matches_enterModule name).toMatchesNames
  refine ⟨fun other => ?_, fun other => ?_, hmatches.imports⟩
  · exact ⟨fun hlocal => Bool.noConfusion hlocal, fun hmem => nomatch hmem⟩
  · rw [← Option.isSome_map (f := Symbol.kind), hmatches.kind, Option.isSome_map]

/-- The problems with names that are found in a module are those of its uses and scopes. -/
theorem Module.findings_eq_blocks (m : Module) (h : ∀ b ∈ m.blocks, b.Proper) :
    sel.findings m.findings = sel.blocks (m.imports.getD []).reverse m.blocks := by
  rw [Module.blocks, List.forall_mem_cons] at h
  have himports := reports_imports sel (sees_enterModule m.name) (m.imports.getD [])
    (List.forall_mem_append.mp h.1.names).1
  rw [List.append_nil] at himports
  have hall := (himports.andThen (m.declarations.reports_check sel h.1.declarations h.2 _ _)).count
  have hsplit : sel.findings m.findings = _ := sel.findings_append _ _
  have hblock : sel.block (m.imports.getD []).reverse (.module m) =
      sel.repeated [] (Block.module m).names + (0 +
        sel.declarations (m.imports.getD []).reverse (Block.module m).start m.declarations + 0) :=
    sel.block_eq _ (.module m)
  rw [hsplit, hall, sel.findings_report, sel.endNameProblems, Module.blocks,
    sel.blocks_cons, hblock, Block.names, Block.ownNames, Block.declarations]
  omega

end Modules

end Oberon
