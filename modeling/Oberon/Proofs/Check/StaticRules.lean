import Oberon.Proofs.Check.ModuleAgreement
import Oberon.Proofs.Check.Names
import Oberon.Proofs.RoundTrip

/-!
# The checker decides the static rules

A module that has been parsed is free of remarks exactly if it obeys the static rules.  What the
checker asks beyond them holds in every parsed module: no declared name is empty, and only the
names of the module itself are at the level where names may be exported.
-/

namespace Oberon

open Environment

variable {imports : List String} {b : Block}

namespace Block

theorem isLocal_opening (b : Block) (name : String) : b.opening.isLocal name = false := by
  cases b <;> rfl

theorem isLocal_start (b : Block) (name : String) :
    b.start.isLocal name = (decide (name ∈ b.ownNames) || b.opening.isLocal name) := by
  cases b with
  | module m => exact Context.isLocal_declareAll .module _ _ name
  | procedure outer p => exact Context.isLocal_declareAll .parameter _ _ name

/-- Where names may be exported: anywhere but in a procedure. -/
theorem mayExport_iff (h : b.Proper) :
    (∀ d ∈ b.declarations.identDefs, d.MayExport b.start.level) ↔
      (b.isProcedure → ∀ d ∈ b.declarations.identDefs, d.exported = false) := by
  unfold IdentDef.MayExport
  rw [h.level]
  cases b.isProcedure <;> simp

/-- The names of a block may be declared exactly if they differ and none is exported in vain. -/
theorem names_iff (h : b.Proper) :
    (b.opening.Fresh b.ownNames ∧ b.start.MayDeclare b.declarations.identDefs) ↔
      b.names.Nodup ∧ (b.isProcedure → ∀ d ∈ b.declarations.identDefs, d.exported = false) := by
  have hfresh : b.opening.Fresh b.names ↔ b.names.Nodup :=
    ⟨fun hall => hall.nodup, fun hnodup => ⟨fun name _ => b.isLocal_opening name, hnodup, h.names⟩⟩
  rw [Context.MayDeclare, mayExport_iff h, ← and_assoc, ← Context.fresh_append b.isLocal_start,
    ← hfresh]
  rfl

theorem forall_typeUses {rule : Use → Prop} : (∀ u ∈ b.typeUses, rule u) ↔
    (∀ u ∈ b.parameters.toList.flatMap (FormalParameters.uses b.opening), rule u) ∧
      ∀ place ∈ b.typePlaces, ∀ u ∈ place.uses, rule u :=
  List.forall_mem_append.trans (and_congr_right fun _ => List.forall_mem_flatMap)

/-- References are type names, results, constants and lengths. -/
theorem forall_references {rule : Qualident → Prop} : (∀ q ∈ b.references, rule q) ↔
    ((∀ u ∈ b.typeUses, rule u.name) ∧ ∀ u ∈ b.resultUses, rule u.name) ∧
      ∀ c ∈ b.constantValues ++ b.lengths, ∀ q ∈ c.2.names, rule q := by
  rw [references, List.forall_mem_append, List.forall_mem_append, List.forall_mem_map,
    List.forall_mem_map, List.forall_mem_flatMap]

theorem imported_reverse {q : Qualident} : Imported imports.reverse q ↔ Imported imports q := by
  simp [Imported]

/-- Names in constant expressions have no qualifiers, so nothing has to be imported for them. -/
theorem imported_of_allConstant {ctx : Context} {e : Expression} (h : ctx.AllConstant e) :
    ∀ q ∈ e.names, Imported imports q := by
  intro q hq qualifier hqualifier
  rw [(h q hq).1] at hqualifier
  cases hqualifier

theorem Ok.typeUses (h : b.Ok imports) : ∀ u ∈ b.typeUses, TypeOk imports u :=
  forall_typeUses.mpr ⟨h.parameters, fun place hplace => (h.declarations.types place hplace).uses⟩

theorem Ok.lengths (h : b.Ok imports) : ∀ c ∈ b.lengths, c.1.IsLength c.2 :=
  List.forall_mem_flatMap.mpr fun place hplace => (h.declarations.types place hplace).lengths

/-- Every reference of a block that obeys the rules is imported. -/
theorem Ok.references (h : b.Ok imports) : ∀ q ∈ b.references, Imported imports q := by
  refine forall_references.mpr ⟨⟨fun u hu => (h.typeUses u hu).2, fun u hu => (h.results u hu).2⟩,
    ?_⟩
  rw [List.forall_mem_append]
  exact ⟨fun c hc => imported_of_allConstant (h.declarations.constants c hc).1,
    fun c hc => imported_of_allConstant (h.lengths c hc).1⟩

/-- What the checker asks of a block gives the static rules. -/
theorem StaticRules.of_ok (hproper : b.Proper) (h : b.Ok imports.reverse) :
    b.StaticRules imports := by
  obtain ⟨hnames, hexports⟩ := (names_iff hproper).mp ⟨h.ownNames, h.declarations.names⟩
  exact {
    closingName := h.closingName
    distinctNames := hnames
    distinctParts := fun place hplace => (h.declarations.types place hplace).names
    types := fun u hu => (h.typeUses u hu).1
    results := fun u hu => (h.results u hu).1
    constants := h.declarations.constants
    lengths := h.lengths
    qualifiers := fun q hq => imported_reverse.mp (h.references q hq)
    exports := hexports
    returns := h.returns }

/-- The static rules give what the checker asks of a block. -/
theorem StaticRules.ok (hproper : b.Proper) (h : b.StaticRules imports) : b.Ok imports.reverse := by
  obtain ⟨hown, hdeclared⟩ := (names_iff hproper).mpr ⟨h.distinctNames, h.exports⟩
  obtain ⟨⟨htypes, hresults⟩, -⟩ :=
    forall_references.mp fun q hq => imported_reverse.mpr (h.qualifiers q hq)
  obtain ⟨hparameters, huses⟩ := forall_typeUses.mp fun u hu =>
    (⟨h.types u hu, htypes u hu⟩ : TypeOk imports.reverse u)
  have hlengths := List.forall_mem_flatMap.mp h.lengths
  exact {
    ownNames := hown
    parameters := hparameters
    declarations := {
      names := hdeclared
      constants := h.constants
      types := fun place hplace => {
        uses := huses place hplace
        lengths := hlengths place hplace
        names := h.distinctParts place hplace
        nonempty := hproper.parameterNames place hplace } }
    results := fun u hu => ⟨h.results u hu, hresults u hu⟩
    returns := h.returns
    closingName := h.closingName }

end Block

/-- A parsed module gives rise to no remark exactly if it obeys the static rules. -/
theorem Module.check_eq_nil_iff_staticRules (source : String) (m : Module)
    (h : Source.module source = .ok m) : m.check = [] ↔ m.StaticRules := by
  have hproper := (Module.printable_of_source h).proper
  rw [Module.check, List.map_eq_nil_iff, m.findings_eq_nil]
  exact forall₂_congr fun b hb => ⟨.of_ok (hproper b hb), fun hrules => hrules.ok (hproper b hb)⟩

/-- A module of lists: a pointer that refers forward, an array with a constant length, an imported
type and a procedure with a result. -/
def listModule : Module where
  name := "Lists"
  imports := some ["N"]
  declarations := {
    constants :=
      [⟨⟨"size", true⟩, ⟨none, ⟨.number (.integer 2), [⟨.times, .number (.integer 3)⟩]⟩, []⟩⟩]
    types := [⟨⟨"List", true⟩, .pointer (.named ⟨none, "Item"⟩)⟩,
      ⟨⟨"Item", false⟩, .record none
        [⟨[⟨"next", false⟩], .named ⟨none, "List"⟩⟩,
          ⟨[⟨"data", false⟩], .array [⟨none, ⟨.name ⟨none, "size"⟩, []⟩, []⟩]
            (.named ⟨some "N", "T"⟩)⟩]⟩]
    vars := [⟨[⟨"head", false⟩], .named ⟨none, "List"⟩⟩]
    procedures := [{
      heading := ⟨⟨"Same", true⟩, some ⟨[⟨false, ["list"], 0, none, "List"⟩], some ⟨none, "List"⟩⟩⟩
      declarations := ⟨[], [], [], []⟩
      result := some ⟨none, ⟨.name ⟨none, "list"⟩, []⟩, []⟩
      endName := "Same" }] }
  endName := "Lists"

/-- The module of lists is checked without remarks, so it obeys the rules. -/
theorem Module.check_eq_nil_iff_staticRules_lists :
    Source.module (listModule.source 2) = .ok listModule ∧ listModule.check = [] ∧
      listModule.StaticRules := by
  have hprintable : listModule.Printable := by decide +kernel
  have hsource := hprintable.module_source 2
  have hcheck : listModule.check = [] := List.isEmpty_iff.mp (by decide +kernel)
  exact ⟨hsource, hcheck, (Module.check_eq_nil_iff_staticRules _ _ hsource).mp hcheck⟩

end Oberon
