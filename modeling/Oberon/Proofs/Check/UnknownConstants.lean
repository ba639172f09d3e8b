import Oberon.Proofs.Check.Following
import Oberon.Proofs.RoundTrip

/-!
# Constants without a value

A constant whose expression fails is declared without a value.  Main statement: an expression that
refers to such constants gives rise to no finding of its own, in whatever module, at whatever
depth and along chains of any length, with one exception.  Where all of them are called `TRUE` or
`FALSE`, the name is taken for that of the boolean constant, and the evaluation fails once more.
-/

namespace Oberon

open Environment

/-! ## One expression -/

namespace Point

variable {p : Point} {e : Expression}

/-- An expression with an unknown constant has no value. -/
theorem Tracks.evaluate_ne_ok (h : p.Tracks) {q : Qualident} (hq : q ∈ e.names)
    (hunknown : p.ctx.Unknown q.name) (v : Value) : p.ctx.evaluate e ≠ .ok v := by
  intro hv
  obtain ⟨-, w, hfind⟩ := h.known_of_evaluate hv q hq
  rw [Context.Unknown, hfind] at hunknown
  cases hunknown

/-- The names are no problem, so all depends on whether the expression is evaluated. -/
theorem Tracks.constantValue_of_unknown (h : p.Tracks) (hall : p.ctx.AllConstant e)
    (hunknown : ∃ q ∈ e.names, p.ctx.Unknown q.name) :
    (p.env.constantValue e).1 = [] ↔
      ∃ q ∈ e.names, p.ctx.Unknown q.name ∧ Predeclared.boolean? q.name = none := by
  unfold constantValue
  split
  next hknown =>
    -- it was evaluated, so every constant without a value is called like a boolean constant
    have hboolean := (h.all_known_iff.mp hknown).2
    obtain ⟨q, hq, hvalue⟩ := hunknown
    rw [h.evaluate_eq hall]
    cases hv : p.ctx.evaluate e with
    | ok v => exact absurd hv (h.evaluate_ne_ok hq hvalue v)
    | error error =>
      refine ⟨nofun, ?_⟩
      rintro ⟨q, hq, hvalue, hnone⟩
      have hsome := hboolean q hq hvalue
      rw [hnone] at hsome
      cases hsome
  next hknown =>
    constructor
    · intro _
      -- it was not evaluated, so some constant without a value has another name
      by_contra hnone
      refine hknown (h.all_known_iff.mpr ⟨hall, fun q hq hvalue => ?_⟩)
      rw [Option.isSome_iff_ne_none]
      exact fun hboolean => hnone ⟨q, hq, hvalue, hboolean⟩
    · intro _
      rw [referenceProblems_eq_nil]
      exact fun q hq => (MatchesNames.constant_ok h.named q).mpr (hall q hq)

/-- Without a value there is a reason here, or one that was given before. -/
theorem Tracks.constantValue_ne_nil (h : p.Tracks) (hv : ∀ v, p.ctx.evaluate e ≠ .ok v)
    (hunknown : ∀ q ∈ e.names, ¬ p.ctx.Unknown q.name) : (p.env.constantValue e).1 ≠ [] := by
  unfold constantValue
  split
  next hknown =>
    rw [h.evaluate_eq (h.all_known_iff.mp hknown).1]
    cases hvalue : p.ctx.evaluate e with
    | ok v => exact absurd hvalue (hv v)
    | error error => exact nofun
  next hknown =>
    intro hnil
    refine hknown (h.all_known_iff.mpr ⟨fun q hq => ?_,
      fun q hq hvalue => absurd hvalue (hunknown q hq)⟩)
    exact (MatchesNames.constant_ok h.named q).mp (referenceProblems_eq_nil.mp hnil q hq)

/-- A length that has no value is not compared with zero. -/
theorem lengthProblems_eq_of_none (h : (p.env.constantValue e).2 = none) :
    p.env.lengthProblems e = (p.env.constantValue e).1 := by
  unfold lengthProblems
  generalize p.env.constantValue e = outcome at h ⊢
  obtain ⟨problems, value⟩ := outcome
  subst h
  exact List.append_nil problems

end Point

/-- An inspected expression without a value gives rise to the findings of its evaluation only. -/
theorem Inspection.findings_eq_nil_iff {i : Inspection} {e : Expression} (hi : i.Tracked)
    (he : i.expression? = some e) (hv : ∀ v, i.here.ctx.evaluate e ≠ .ok v) :
    i.findings = [] ↔ (i.here.env.constantValue e).1 = [] := by
  have hnone : (i.here.env.constantValue e).2 = none := by
    rw [(hi.constants e he).constantValue_snd]
    cases hvalue : i.here.ctx.evaluate e with
    | ok v => exact absurd hvalue (hv v)
    | error error => rfl
  obtain ⟨item, here, later⟩ := i
  cases item with
  | value e' =>
    cases he
    exact report_eq_nil
  | length e' =>
    cases he
    rw [← Point.lengthProblems_eq_of_none hnone]
    exact report_eq_nil
  | _ => cases he

/-! ## All expressions -/

def TypeExpr.lengths (t : TypeExpr) : List Expression :=
  t.subtypes.flatMap fun
    | .array lengths _ => lengths
    | _ => []

def Declarations.expressions (d : Declarations) : List Expression :=
  d.constants.map ConstDeclaration.value ++ d.types.flatMap (fun t => t.type.lengths) ++
    d.vars.flatMap fun v => v.type.lengths

theorem Point.expressions_inspectTypes (here later : Point) (t : TypeExpr) :
    (here.inspectTypes later t).filterMap Inspection.expression? = t.lengths := by
  rw [inspectTypes, TypeExpr.lengths, List.filterMap_flatMap]
  refine List.flatMap_congr fun s _ => ?_
  cases s with
  | named q => rfl
  | array lengths element =>
    rw [inspectType, List.filterMap_map]
    exact List.filterMap_some
  | record base fields =>
    rw [inspectType, List.filterMap_append, List.filterMap_map]
    exact List.append_eq_nil_iff.mpr ⟨List.filterMap_eq_nil_iff.mpr fun _ _ => rfl, rfl⟩
  | pointer target => cases target <;> rfl
  | procedure parameters => exact filterMap_parameters (fun _ _ _ => rfl) (fun _ _ => rfl) _ _

/-- The expressions inspected in declarations are their constants and lengths. -/
theorem Point.expressions_inspectDeclarations (p : Point) (d : Declarations) :
    (p.inspectDeclarations d).filterMap Inspection.expression? = d.expressions := by
  have htypes (later p : Point) (t : TypeDeclaration) :
      (inspectDeclaredType later p t).filterMap Inspection.expression? = t.type.lengths := by
    rw [inspectDeclaredType, List.filterMap_append, expressions_inspectTypes]
    exact List.append_nil t.type.lengths
  have hvariables (p : Point) (v : VariableDeclaration) :
      (p.inspectVariables v).filterMap Inspection.expression? = v.type.lengths := by
    rw [inspectVariables, List.filterMap_append, expressions_inspectTypes, filterMap_along_eq_nil,
      List.nil_append]
    exact fun _ _ => rfl
  have hconstants :
      (p.along constant inspectConstant d.constants).filterMap Inspection.expression? =
      d.constants.map ConstDeclaration.value := by
    have hvalue (p : Point) (c : ConstDeclaration) :
        (p.inspectConstant c).filterMap Inspection.expression? = [c.value] := rfl
    rw [filterMap_along hvalue, List.map_eq_flatMap]
  have hprocedures : ((p.afterVariables d).along procedure inspectProcedure d.procedures).filterMap
      Inspection.expression? = [] := filterMap_along_eq_nil (fun _ _ => rfl) _ _
  rw [inspectDeclarations, List.filterMap_append, List.filterMap_append,
    List.filterMap_append, hconstants, inspectTypeSection, filterMap_along (htypes _),
    filterMap_along hvariables, hprocedures, List.append_nil]
  rfl

theorem Site.expressions (s : Site) :
    s.inspections.filterMap Inspection.expression? = s.block.declarations.expressions := by
  have hopening : s.inspectOpening.filterMap Inspection.expression? = [] := by
    cases s with
    | module m => exact Point.filterMap_along_eq_nil (fun _ _ => rfl) _ _
    | procedure outer p => exact Point.filterMap_parameters (fun _ _ _ => rfl) (fun _ _ => rfl) _ _
  have hend : s.inspectEnd.filterMap Inspection.expression? = [] := by
    cases s <;> rfl
  rw [Site.inspections, List.filterMap_append, List.filterMap_append, hopening, hend,
    Point.expressions_inspectDeclarations, List.nil_append, List.append_nil]

/-- The expressions inspected in a module are those of its blocks. -/
theorem Module.expressions (m : Module) : m.inspections.filterMap Inspection.expression? =
    m.blocks.flatMap fun b => b.declarations.expressions := by
  calc m.inspections.filterMap Inspection.expression?
      _ = m.sites.flatMap fun s => s.block.declarations.expressions := by
        rw [Module.inspections, List.filterMap_flatMap]
        exact List.flatMap_congr fun s _ => s.expressions
      _ = (m.sites.map fun s => s.block.declarations).flatMap Declarations.expressions := by
        rw [List.flatMap_map]
      _ = m.blocks.flatMap fun b => b.declarations.expressions := by
        rw [m.map_declarations_sites, List.flatMap_map]

/-! ## Modules -/

/-- The findings in a module are those of its inspections, among them all constant values and
array lengths.  An expression that is made of constants, some of them without a value, gives rise
to a finding only if all of those have the name of a boolean constant.  An expression has no value
only if that is found at its place or if it refers to a constant without a value. -/
theorem Module.findings_of_unknown (m : Module) :
    m.findings.Perm (m.inspections.flatMap Inspection.findings) ∧
      m.inspections.filterMap Inspection.expression? =
        m.blocks.flatMap (fun b => b.declarations.expressions) ∧
      ∀ i ∈ m.inspections, ∀ e, i.expression? = some e →
        (i.here.ctx.AllConstant e → (∃ q ∈ e.names, i.here.ctx.Unknown q.name) →
          (i.findings = [] ↔
            ∃ q ∈ e.names, i.here.ctx.Unknown q.name ∧ Predeclared.boolean? q.name = none)) ∧
        ((∀ v, i.here.ctx.evaluate e ≠ .ok v) →
          i.findings ≠ [] ∨ ∃ q ∈ e.names, i.here.ctx.Unknown q.name) := by
  obtain ⟨hfindings, htracked⟩ := m.follows
  refine ⟨hfindings, m.expressions, fun i hi e he => ?_⟩
  have hi := htracked i hi
  have htracks := hi.constants e he
  constructor
  · intro hall hunknown
    obtain ⟨q, hq, hvalue⟩ := hunknown
    rw [Inspection.findings_eq_nil_iff hi he (htracks.evaluate_ne_ok hq hvalue)]
    exact htracks.constantValue_of_unknown hall ⟨q, hq, hvalue⟩
  · intro hv
    -- without an unknown constant the failure is the expression's own, and it is reported here
    by_cases hunknown : ∃ q ∈ e.names, i.here.ctx.Unknown q.name
    · exact .inr hunknown
    · refine .inl fun hnil => ?_
      rw [Inspection.findings_eq_nil_iff hi he hv] at hnil
      exact htracks.constantValue_ne_nil hv (fun q hq hvalue => hunknown ⟨q, hq, hvalue⟩) hnil

/-- A module with a constant without a value, and a chain of constants and a length that depend on
it. -/
def chainModule : Module where
  name := "Chain"
  imports := none
  declarations := {
    constants :=
      [⟨⟨"a", false⟩, ⟨none, ⟨.number (.integer 1), [⟨.div, .number (.integer 0)⟩]⟩, []⟩⟩,
      ⟨⟨"b", false⟩, ⟨none, ⟨.name ⟨none, "a"⟩, []⟩, [⟨.plus, ⟨.number (.integer 1), []⟩⟩]⟩⟩]
    types := []
    vars := []
    procedures := [{
      heading := ⟨⟨"P", false⟩, none⟩
      declarations := {
        constants := [⟨⟨"c", false⟩, ⟨none, ⟨.name ⟨none, "b"⟩, []⟩, []⟩⟩]
        types := []
        vars :=
          [⟨[⟨"row", false⟩], .array [⟨none, ⟨.name ⟨none, "c"⟩, []⟩, []⟩] (.named ⟨none, "CHAR"⟩)⟩]
        procedures := [] }
      result := none
      endName := "P" }] }
  endName := "Chain"

/-- The length at the end of the chain gives rise to no finding. -/
theorem Module.findings_of_unknown_chain :
    Source.module (chainModule.source 2) = .ok chainModule ∧
      ∃ i ∈ chainModule.inspections, i.item = .length ⟨none, ⟨.name ⟨none, "c"⟩, []⟩, []⟩ ∧
        i.here.ctx.Unknown "c" ∧ i.findings = [] := by
  have hprintable : chainModule.Printable := by decide +kernel
  let i := chainModule.inspections.get ⟨9, by decide +kernel⟩
  have hunknown : i.here.ctx.Unknown "c" := rfl
  have hall : i.here.ctx.AllConstant ⟨none, ⟨.name ⟨none, "c"⟩, []⟩, []⟩ :=
    List.forall_mem_singleton.mpr ⟨rfl, congrArg (Option.map Meaning.kind) hunknown⟩
  have hfindings := ((Module.findings_of_unknown chainModule).2.2 i (List.get_mem _ _) _ rfl).1 hall
    ⟨⟨none, "c"⟩, List.mem_cons_self, hunknown⟩
  exact ⟨hprintable.module_source 2, i, List.get_mem _ _, rfl, hunknown,
    hfindings.mpr ⟨⟨none, "c"⟩, List.mem_cons_self, hunknown, rfl⟩⟩

def failingBooleanModule : Module where
  name := "M"
  imports := none
  declarations := {
    constants :=
      [⟨⟨"TRUE", false⟩, ⟨none, ⟨.number (.integer 1), [⟨.div, .number (.integer 0)⟩]⟩, []⟩⟩,
      ⟨⟨"x", false⟩, ⟨none, ⟨.name ⟨none, "TRUE"⟩, []⟩, []⟩⟩]
    types := []
    vars := []
    procedures := [] }
  endName := "M"

/-- The constant `x` refers to a constant without a value only, and is reported as well. -/
theorem Module.failingBoolean_reported_twice :
    Source.module (failingBooleanModule.source 2) = .ok failingBooleanModule ∧
      (∃ i ∈ failingBooleanModule.inspections, i.item =
        .value ⟨none, ⟨.name ⟨none, "TRUE"⟩, []⟩, []⟩ ∧
        i.here.ctx.Unknown "TRUE" ∧ i.findings ≠ []) ∧
      failingBooleanModule.findings =
        [⟨.invalidConstant .divisionByZero, ["M"]⟩,
          ⟨.invalidConstant (.notConstant "TRUE"), ["M"]⟩] := by
  have hprintable : failingBooleanModule.Printable := by decide +kernel
  refine ⟨hprintable.module_source 2, ⟨failingBooleanModule.inspections.get ⟨2, by decide +kernel⟩,
    List.get_mem _ _, rfl, rfl, ?_⟩, by decide +kernel⟩
  decide +kernel

end Oberon
