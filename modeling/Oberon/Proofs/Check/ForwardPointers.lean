import Oberon.Proofs.Check.Following
import Oberon.Proofs.Check.StaticRules

/-!
# Pointers that refer forward

In a type section the target of a pointer may be declared later in the section.  The checker
leaves a target to the end of the section only if it means nothing at its place.  Main statement:
the target of a pointer that is declared once in its scope, as a type of the section, is accepted
behind its declaration; in front of it or inside it, it is accepted unless the scopes around hold
the name as something that is no type.
-/

namespace Oberon

open Environment

/-! ## Where targets are inspected -/

def Inspection.target? (i : Inspection) : Option Qualident :=
  match i.item with
  | .target q => some q
  | _ => none

def TypeExpr.target? : TypeExpr → Option Qualident
  | .pointer (.named q) => some q
  | _ => none

def TypeExpr.targets (t : TypeExpr) : List Qualident :=
  t.subtypes.filterMap TypeExpr.target?

namespace Point

theorem targets_inspectType (here later : Point) (t : TypeExpr) :
    (here.inspectType later t).filterMap Inspection.target? = t.target?.toList := by
  cases t with
  | named q => rfl
  | array lengths element =>
    rw [inspectType, List.filterMap_map]
    exact List.filterMap_eq_nil_iff.mpr fun _ _ => rfl
  | record base fields =>
    rw [inspectType, List.filterMap_append, List.filterMap_map]
    exact List.append_eq_nil_iff.mpr ⟨List.filterMap_eq_nil_iff.mpr fun _ _ => rfl, rfl⟩
  | pointer target => cases target <;> rfl
  | procedure parameters => exact filterMap_parameters (fun _ _ _ => rfl) (fun _ _ => rfl) _ _

/-- The targets inspected in a section are those of its pointers. -/
theorem targets_inspectTypeSection (p : Point) (ds : List TypeDeclaration) :
    (p.inspectTypeSection ds).filterMap Inspection.target? =
      ds.flatMap fun d => d.type.targets := by
  refine filterMap_along (fun here d => ?_) p ds
  have hname : (here.inspectOther .type d.name).filterMap Inspection.target? = [] := rfl
  rw [inspectDeclaredType, List.filterMap_append, hname, List.append_nil, inspectTypes,
    List.filterMap_flatMap, TypeExpr.targets, List.filterMap_eq_flatMap_toList]
  exact List.flatMap_congr fun s _ => targets_inspectType here _ s

theorem eq_pointer_of_target? {t : TypeExpr} {q : Qualident} (h : t.target? = some q) :
    t = .pointer (.named q) := by
  unfold TypeExpr.target? at h
  split at h
  next =>
    cases h
    rfl
  next => cases h

/-- A target belongs to a pointer, and is looked up later if need be. -/
theorem eq_of_mem_inspectType {here later : Point} {t : TypeExpr} {i : Inspection} {q : Qualident}
    (hi : i ∈ here.inspectType later t) (hq : i.item = .target q) :
    i = ⟨.target q, here, later⟩ := by
  have htarget : i.target? = some q := by rw [Inspection.target?, hq]
  have hmem : q ∈ (here.inspectType later t).filterMap Inspection.target? :=
    List.mem_filterMap.mpr ⟨i, hi, htarget⟩
  rw [targets_inspectType, Option.mem_toList] at hmem
  rw [eq_pointer_of_target? hmem] at hi
  exact List.mem_singleton.mp hi

/-- An inspection belongs to one of the items, at the point in front of it. -/
theorem mem_along {α : Type} {step : Point → α → Point} {inspect : Point → α → List Inspection}
    {p : Point} {xs : List α} {i : Inspection} (h : i ∈ p.along step inspect xs) :
    ∃ before x behind, xs = before ++ x :: behind ∧ i ∈ inspect (before.foldl step p) x := by
  induction xs generalizing p with
  | nil => cases h
  | cons x xs ih =>
    obtain hfirst | hothers := List.mem_append.mp h
    · exact ⟨[], x, xs, rfl, hfirst⟩
    · obtain ⟨before, y, behind, rfl, hmem⟩ := ih hothers
      exact ⟨x :: before, y, behind, rfl, hmem⟩

/-- The points of a target in a section: in front of the declaration around it, and behind the
section. -/
theorem target_inspectTypeSection {p : Point} {ds : List TypeDeclaration} {i : Inspection}
    {q : Qualident} (hi : i ∈ p.inspectTypeSection ds) (hq : i.item = .target q) :
    ∃ before, before <+: ds ∧ i = ⟨.target q, before.foldl type p, ds.foldl type p⟩ := by
  obtain ⟨before, d, behind, hds, hmem⟩ := mem_along hi
  refine ⟨before, ⟨d :: behind, hds.symm⟩, ?_⟩
  obtain htypes | hname := List.mem_append.mp hmem
  · obtain ⟨s, -, hs⟩ := List.mem_flatMap.mp htypes
    exact eq_of_mem_inspectType hs hq
  · cases List.mem_singleton.mp hname
    cases hq

end Point

/-! ## What targets mean -/

theorem Point.ctx_types (p : Point) (ds : List TypeDeclaration) :
    (ds.foldl Point.type p).ctx = p.ctx.enterAll .type (ds.map fun d => d.name.name) := by
  induction ds generalizing p with
  | nil => rfl
  | cons d ds ih => exact ih (p.type d)

/-- Constants of other names do not change what a name means. -/
theorem Point.afterConstants_of_not_mem (p : Point) {d : Declarations} {name : String}
    (h : name ∉ d.constants.map fun c => c.name.name) :
    (p.afterConstants d).ctx.isLocal name = p.ctx.isLocal name ∧
      (p.afterConstants d).ctx.find? name = p.ctx.find? name := by
  unfold afterConstants
  generalize d.constants = cs at h
  induction cs generalizing p with
  | nil => exact ⟨rfl, rfl⟩
  | cons c cs ih =>
    rw [List.map_cons, List.mem_cons, not_or] at h
    obtain ⟨hlocal, hfind⟩ := ih (p.constant c) h.2
    rw [List.foldl_cons, hlocal, hfind]
    refine ⟨?_, Context.find?_enter_of_ne _ _ h.1⟩
    show (p.ctx.enterConstant c).isLocal name = _
    rw [Context.enterConstant, Context.isLocal_enter, decide_eq_false fun hall => h.1 hall.1,
      Bool.false_or]

theorem Site.ctx_start (s : Site) :
    ∃ kind, s.start.ctx = Context.enterAll kind s.opening.ctx s.block.ownNames := by
  cases s with
  | procedure outer p => exact ⟨.parameter, ctx_heading outer p.heading⟩
  | module m =>
    refine ⟨.module, ?_⟩
    show ((m.imports.getD []).foldl Point.imported (opening (module m))).ctx =
      Context.enterAll .module (opening (module m)).ctx (m.imports.getD [])
    generalize opening (module m) = p
    induction m.imports.getD [] generalizing p with
    | nil => rfl
    | cons name names ih => exact ih (p.imported name)

/-- Nothing is declared in the new scope yet. -/
theorem Site.isLocal_opening (s : Site) (name : String) : s.opening.ctx.isLocal name = false := by
  cases s <;> rfl

/-- A name that is not declared before the types means what it means around the scope. -/
theorem Site.afterConstants_of_not_mem (s : Site) {name : String} (hown : name ∉ s.block.ownNames)
    (hconstants : name ∉ s.block.declarations.constants.map fun c => c.name.name) :
    (s.start.afterConstants s.block.declarations).ctx.isLocal name = false ∧
      (s.start.afterConstants s.block.declarations).ctx.find? name = s.opening.ctx.find? name := by
  obtain ⟨hlocal, hfind⟩ := s.start.afterConstants_of_not_mem hconstants
  obtain ⟨kind, hstart⟩ := s.ctx_start
  rw [hlocal, hfind, hstart, Context.isLocal_enterAll, Context.find?_enterAll, s.isLocal_opening,
    decide_eq_false fun hall => hown hall.1, if_neg fun hall => hown hall.1]
  exact ⟨rfl, rfl⟩

/-- A target that means nothing here is a type in the end. -/
theorem Inspection.target_eq_nil_iff {here later : Point} {name : String}
    (hi : Tracked ⟨.target ⟨none, name⟩, here, later⟩)
    (hlater : later.ctx.find? name = some ⟨.type, none⟩) :
    findings ⟨.target ⟨none, name⟩, here, later⟩ = [] ↔
      ∀ m, here.ctx.find? name = some m → m.kind = .type := by
  have htype {p : Point} (hp : p.Named) :
      p.env.report (p.env.referenceProblems .type [⟨none, name⟩]) = [] ↔
        (p.ctx.find? name).map Meaning.kind = some .type := by
    rw [report_eq_nil, referenceProblems_eq_nil, List.forall_mem_singleton, MatchesNames.type_ok hp,
      inside_kind?]
    simp [Imported]
  have hforward := MatchesNames.isForward_iff hi.here ⟨none, name⟩
  dsimp only [findings]
  cases hfind : here.ctx.find? name with
  | none =>
    rw [hforward.mpr ⟨rfl, hfind⟩, if_pos rfl, htype hi.later, hlater]
    simp
  | some m =>
    have hnot : ¬ here.env.isForward ⟨none, name⟩ = true := by
      rw [hforward, hfind]
      simp
    rw [if_neg hnot, htype hi.here, hfind]
    simp

/-- A type that is declared once in its block is neither a constant nor a parameter of it. -/
theorem Block.not_mem_of_count {b : Block} {name : String}
    (hname : name ∈ b.declarations.types.map fun t => t.name.name)
    (hcount : b.names.count name = 1) :
    name ∉ b.ownNames ∧ name ∉ b.declarations.constants.map fun c => c.name.name := by
  have htypes := List.count_pos_iff.mpr hname
  have hidentDefs : b.declarations.identDefs.map IdentDef.name =
      (b.declarations.constants.map fun c => c.name.name) ++
        (b.declarations.types.map fun t => t.name.name) ++
        (b.declarations.vars.flatMap VariableDeclaration.names).map IdentDef.name ++
        b.declarations.procedures.map fun p => p.heading.name.name := by
    simp only [Declarations.identDefs, List.map_append, List.map_map]
    rfl
  rw [Block.names, hidentDefs] at hcount
  simp only [List.count_append] at hcount
  rw [← List.count_eq_zero, ← List.count_eq_zero]
  omega

/-- The target of a pointer in the type section of a site, if it is declared once in the scope, as
a type of the section: it is accepted behind its declaration, and elsewhere if it is no other
thing around the scope. -/
theorem Site.target_eq_nil_iff {s : Site} {name : String} (hnonempty : name ≠ "")
    (hname : name ∈ s.block.declarations.types.map fun t => t.name.name)
    (hcount : s.block.names.count name = 1) {i : Inspection} (hi : i ∈ s.inspectTypeSection)
    (htracked : i.Tracked) (hitem : i.item = .target ⟨none, name⟩) :
    i.findings = [] ↔ i.here.ctx.isLocal name = true ∨
      ∀ m, s.opening.ctx.find? name = some m → m.kind = .type := by
  obtain ⟨hown, hconstants⟩ := Block.not_mem_of_count hname hcount
  obtain ⟨hlocal, hfind⟩ := s.afterConstants_of_not_mem hown hconstants
  obtain ⟨before, -, rfl⟩ := Point.target_inspectTypeSection hi hitem
  -- behind the section the name is a type, whatever it is here
  have hlater : (s.block.declarations.types.foldl Point.type
      (s.start.afterConstants s.block.declarations)).ctx.find? name = some ⟨.type, none⟩ := by
    rw [Point.ctx_types, Context.find?_enterAll, if_pos ⟨hname, hnonempty, hlocal⟩]
  rw [Inspection.target_eq_nil_iff htracked hlater, Point.ctx_types, Context.find?_enterAll,
    Context.isLocal_enterAll, hlocal, hfind]
  by_cases hbefore : name ∈ before.map fun d => d.name.name
  · rw [if_pos ⟨hbefore, hnonempty, rfl⟩, decide_eq_true ⟨hbefore, hnonempty⟩]
    simp
  · rw [if_neg fun hall => hbefore hall.1, decide_eq_false fun hall => hbefore hall.1]
    simp

/-! ## Modules -/

theorem Module.Printable.typeNames_ne_empty {m : Module} (h : m.Printable) {s : Site}
    (hs : s ∈ m.sites) :
    ∀ name ∈ s.block.declarations.types.map (fun t => t.name.name), name ≠ "" := by
  have hmem : s.block.declarations ∈ m.blocks.map Block.declarations := by
    rw [← m.map_declarations_sites]
    exact List.mem_map_of_mem hs
  obtain ⟨b, hb, hdeclarations⟩ := List.mem_map.mp hmem
  intro name hname
  refine (h.proper b hb).names name (List.mem_append_right _ ?_)
  rw [← hdeclarations] at hname
  obtain ⟨t, ht, rfl⟩ := List.mem_map.mp hname
  refine List.mem_map.mpr ⟨t.name, ?_, rfl⟩
  simp only [Declarations.identDefs, List.mem_append]
  exact .inl (.inl (.inr (List.mem_map_of_mem ht)))

/-- The inspections of each type section are among those of the module. -/
theorem Module.mem_inspections_of_typeSection {m : Module} {s : Site} (hs : s ∈ m.sites) :
    ∀ i ∈ s.inspectTypeSection, i ∈ m.inspections := by
  intro i hi
  refine List.mem_flatMap.mpr ⟨s, hs, ?_⟩
  simp only [Site.inspections, Point.inspectDeclarations, List.mem_append]
  exact .inl (.inr (.inl (.inl (.inr hi))))

/-- The findings in a parsed module are those of its inspections, among them all pointer targets
in the type sections of the module and its procedures.  A target that is declared once in its
scope, as a type of the section, gives rise to no finding behind its declaration, and none
elsewhere unless the scopes around hold its name as something that is no type. -/
theorem Module.findings_of_target (source : String) (m : Module)
    (h : Source.module source = .ok m) :
    m.findings.Perm (m.inspections.flatMap Inspection.findings) ∧
      m.sites.map (fun s => s.block.declarations) = m.blocks.map Block.declarations ∧
      ∀ s ∈ m.sites,
        (∀ i ∈ s.inspectTypeSection, i ∈ m.inspections) ∧
        s.inspectTypeSection.filterMap Inspection.target? =
          s.block.declarations.types.flatMap (fun t => t.type.targets) ∧
        ∀ name ∈ s.block.declarations.types.map (fun t => t.name.name),
          s.block.names.count name = 1 →
          ∀ i ∈ s.inspectTypeSection, i.item = .target ⟨none, name⟩ →
            (i.findings = [] ↔ i.here.ctx.isLocal name = true ∨
              ∀ m, s.opening.ctx.find? name = some m → m.kind = .type) := by
  obtain ⟨hfindings, htracked⟩ := m.follows
  have hprintable := Module.printable_of_source h
  refine ⟨hfindings, m.map_declarations_sites, fun s hs => ?_⟩
  have hmem := Module.mem_inspections_of_typeSection hs
  refine ⟨hmem, Point.targets_inspectTypeSection _ _, fun name hname hcount i hi hitem => ?_⟩
  exact Site.target_eq_nil_iff (hprintable.typeNames_ne_empty hs name hname) hname hcount hi
    (htracked i (hmem i hi)) hitem

def nodeModule : Module where
  name := "Nodes"
  imports := none
  declarations := {
    constants := []
    types := [⟨⟨"Node", false⟩, .named ⟨none, "INTEGER"⟩⟩]
    vars := []
    procedures := [{
      heading := ⟨⟨"P", false⟩, none⟩
      declarations := {
        constants := []
        types := [⟨⟨"List", false⟩, .pointer (.named ⟨none, "Node"⟩)⟩,
          ⟨⟨"Tree", false⟩, .array [⟨none, ⟨.number (.integer 2), []⟩, []⟩]
            (.pointer (.named ⟨none, "Leaf"⟩))⟩,
          ⟨⟨"Node", false⟩, .record none [⟨[⟨"next", false⟩], .named ⟨none, "List"⟩⟩]⟩,
          ⟨⟨"Leaf", false⟩, .record none [⟨[⟨"next", false⟩], .pointer (.named ⟨none, "Leaf"⟩)⟩]⟩]
        vars := []
        procedures := [] }
      result := none
      endName := "P" }] }
  endName := "Nodes"

/-- The forward pointer to `Node` inside the procedure is found to be in order. -/
theorem Module.findings_of_target_nodes :
    Source.module (nodeModule.source 2) = .ok nodeModule ∧
      ∃ s ∈ nodeModule.sites, s.block.names.count "Node" = 1 ∧
        ∃ i ∈ s.inspectTypeSection, i.item = .target ⟨none, "Node"⟩ ∧
          i.here.ctx.isLocal "Node" = false ∧ i.findings = [] := by
  have hprintable : nodeModule.Printable := by decide +kernel
  have hsource := hprintable.module_source 2
  let s := nodeModule.sites.get ⟨1, by decide +kernel⟩
  let i := s.inspectTypeSection.get ⟨0, by decide +kernel⟩
  have hs : s ∈ nodeModule.sites := List.get_mem _ _
  have hi : i ∈ s.inspectTypeSection := List.get_mem _ _
  have hname : "Node" ∈ s.block.declarations.types.map fun t => t.name.name := by decide +kernel
  have hcount : s.block.names.count "Node" = 1 := by decide +kernel
  have houter : s.opening.ctx.find? "Node" = some ⟨.type, none⟩ := rfl
  have hiff := ((Module.findings_of_target _ _ hsource).2.2 s hs).2.2 "Node" hname hcount i hi rfl
  refine ⟨hsource, s, hs, hcount, i, hi, rfl, by decide +kernel, hiff.mpr (.inr fun m hm => ?_)⟩
  rw [houter] at hm
  cases hm
  rfl

/-- A module with a variable that is hidden by a type of a procedure, and a pointer in front of
that type. -/
def hiddenVariableModule : Module where
  name := "M"
  imports := none
  declarations := {
    constants := []
    types := []
    vars := [⟨[⟨"Node", false⟩], .named ⟨none, "INTEGER"⟩⟩]
    procedures := [{
      heading := ⟨⟨"P", false⟩, none⟩
      declarations := {
        constants := []
        types := [⟨⟨"List", false⟩, .pointer (.named ⟨none, "Node"⟩)⟩,
          ⟨⟨"Node", false⟩, .record none [⟨[⟨"next", false⟩], .named ⟨none, "List"⟩⟩]⟩]
        vars := []
        procedures := [] }
      result := none
      endName := "P" }] }
  endName := "M"

/-- The pointer target is declared once in its scope, as a type of the section, and yet it is
reported as the variable. -/
theorem Module.hiddenVariable_target_reported :
    Source.module (hiddenVariableModule.source 2) = .ok hiddenVariableModule ∧
      (∃ s ∈ hiddenVariableModule.sites, s.block.names.count "Node" = 1 ∧
        "Node" ∈ s.block.declarations.types.map (fun t => t.name.name) ∧
        ∃ i ∈ s.inspectTypeSection, i.item = .target ⟨none, "Node"⟩ ∧ i.findings ≠ []) ∧
      hiddenVariableModule.findings = [⟨.notType .variable "Node", ["P", "M"]⟩] := by
  have hprintable : hiddenVariableModule.Printable := by decide +kernel
  let s := hiddenVariableModule.sites.get ⟨1, by decide +kernel⟩
  let i := s.inspectTypeSection.get ⟨0, by decide +kernel⟩
  refine ⟨hprintable.module_source 2, ⟨s, List.get_mem _ _, by decide +kernel, by decide +kernel, i,
    List.get_mem _ _, rfl, ?_⟩, by decide +kernel⟩
  decide +kernel

end Oberon
