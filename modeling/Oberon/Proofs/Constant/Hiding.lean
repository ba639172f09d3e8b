import Oberon.Proofs.Check.BlockAgreement
import Oberon.Proofs.Constant.Lexical
import Oberon.Proofs.RoundTrip

/-!
# Names that hide constants

The evaluator knows of types, variables, procedures and parameters only that they are no
constants.  A context knows what every name stands for, and each constant of a module stands in
both.  Main statement: a constant is never recorded if its expression refers to something that is
no constant.  The imports are not entered by the evaluator, so a module that is called `TRUE` or
`FALSE` does not hide the boolean constant.
-/

namespace Oberon

open Lexical ConstantPlace

/-! ## Constants that are hidden -/

namespace Constants

/-- What is no constant in the context has no value.  Imported modules and the types of the
language are not bound; the boolean constants are in sight behind the former. -/
def Hides (constants : Constants) (ctx : Context) : Prop :=
  ∀ name m, ctx.find? name = some m → m.kind ≠ .constant →
    constants.find? name = some none ∨
      constants.find? name = none ∧ (m.kind = .module ∨ Predeclared.boolean? name = none)

variable {constants : Constants} {ctx : Context}

/-- Both have a new binding of one name and agree on the others. -/
theorem Hides.bind (h : constants.Hides ctx) (name : String) {value : Option Value} {m : Meaning}
    (hm : m.kind ≠ .constant → value = none) :
    Hides (constants.bind name value) (ctx.bind name m) := by
  intro other m' hfind hkind
  rw [Scopes.find?_bind] at hfind ⊢
  by_cases hname : other = name
  · rw [if_pos hname] at hfind ⊢
    cases hfind
    exact .inl (congrArg some (hm hkind))
  · rw [if_neg hname] at hfind ⊢
    exact h other m' hfind hkind

/-- Hidden names hide on both sides. -/
theorem Hides.hideAll (h : constants.Hides ctx) (kind : SymbolKind) (names : List String) :
    (constants.hideAll names).Hides (ctx.declareAll kind names) := by
  induction names generalizing constants ctx with
  | nil => exact h
  | cons name names ih => exact ih (h.bind name fun _ => rfl)

/-- Of the predeclared names only `TRUE` and `FALSE` are constants. -/
theorem hides_predeclared : Hides .empty Context.predeclared.push := by
  intro name m hfind hkind
  refine .inr ⟨rfl, .inr ?_⟩
  cases hboolean : Predeclared.boolean? name with
  | none => rfl
  | some value =>
    -- the boolean constants are predeclared as constants
    rw [boolean?_eq_some_iff] at hboolean
    subst hboolean
    cases value <;> (cases hfind; exact absurd rfl hkind)

/-- Nothing is bound for the imports. -/
theorem hides_imports (names : List String) {ctx : Context} (h : Hides .empty ctx) :
    Hides .empty (ctx.declareAll .module names) := by
  induction names generalizing ctx with
  | nil => exact h
  | cons name names ih =>
    refine ih fun other m hfind hkind => ?_
    rw [Context.declare, Scopes.find?_bind] at hfind
    by_cases hother : other = name
    · rw [if_pos hother] at hfind
      cases hfind
      exact .inr ⟨rfl, .inl rfl⟩
    · rw [if_neg hother] at hfind
      exact h other m hfind hkind

/-- A name whose binding is no constant has no value, unless it is an import called as a truth
value. -/
theorem Hides.valueOf_ne_ok (h : constants.Hides ctx) {name : String} {m : Meaning}
    (hfind : ctx.find? name = some m) (hkind : m.kind ≠ .constant)
    (himport : m.kind = .module → Predeclared.boolean? name = none) (value : Value) :
    constants.valueOf ⟨none, name⟩ ≠ .ok value := by
  intro hvalue
  unfold valueOf at hvalue
  obtain hnone | ⟨hnone, hunbound⟩ := h name m hfind hkind
  · rw [hnone] at hvalue
    cases hvalue
  · have hboolean : Predeclared.boolean? name = none := hunbound.elim himport id
    rw [hnone] at hvalue
    simp only [hboolean] at hvalue
    cases hvalue

end Constants

/-! ## The constants of a module in their contexts -/

/-- The constants of a block, each with the context in which its expression stands. -/
def Block.constants (b : Block) : List (Context × ConstDeclaration) :=
  b.start.places Context.declareConstant b.declarations.constants

def Module.constantsInContext (m : Module) : List (Context × ConstDeclaration) :=
  m.blocks.flatMap Block.constants

namespace Lexical

def Hide (scopes : List Entries) (ctx : Context) : Prop :=
  ∃ constants : Constants, constants.Holds scopes ∧ constants.Hides ctx

variable {own : Entries} {outer scopes : List Entries} {ctx : Context}

/-- Names without a value hide on both sides. -/
theorem Hide.bare (h : Hide (own :: outer) ctx) (kind : SymbolKind) (names : List String) :
    Hide ((own ++ bare names) :: outer) (ctx.declareAll kind names) := by
  obtain ⟨constants, hholds, hhides⟩ := h
  exact ⟨constants.hideAll names, hholds.hideAll names, hhides.hideAll kind names⟩

/-- A constant hides whether it has a value or not. -/
theorem Hide.constant (h : Hide (own :: outer) ctx) (name : String) (value known : Option Value) :
    Hide ((own ++ [(name, value)]) :: outer) (ctx.bind name ⟨.constant, known⟩) := by
  obtain ⟨constants, hholds, hhides⟩ := h
  exact ⟨constants.bind name value, hholds.bind name value,
    hhides.bind name fun hkind => absurd rfl hkind⟩

theorem Hide.push (h : Hide scopes ctx) : Hide ([] :: scopes) ctx.push := by
  obtain ⟨constants, hholds, hhides⟩ := h
  exact ⟨constants.push, hholds.push, hhides⟩

end Lexical

/-- The constant stands at this place, whose scopes hide what is no constant in the context. -/
structure ConstantPlace.StandsIn (place : ConstantPlace)
    (c : Context × ConstDeclaration) : Prop where
  declaration : place.declaration = c.2
  hide : Hide place.scopes c.1

/-- One name that is no constant is enough: the expression has no value. -/
theorem ConstantPlace.StandsIn.result_ne_ok {place : ConstantPlace} {ctx : Context}
    {d : ConstDeclaration} (h : place.StandsIn (ctx, d)) {q : Qualident} (hq : q ∈ d.value.names)
    (hname : q.qualifier = none) {m : Meaning} (hfind : ctx.find? q.name = some m)
    (hkind : m.kind ≠ .constant) (himport : m.kind = .module → Predeclared.boolean? q.name = none)
    (value : Value) : place.result ≠ .ok value := by
  intro hresult
  obtain ⟨constants, hholds, hhides⟩ := h.hide
  rw [result, h.declaration, ← hholds.valueOf, ← Constants.evaluate_eq_value] at hresult
  obtain ⟨v, hv⟩ := Constants.valueOf_of_evaluate hresult q hq
  obtain ⟨qualifier, name⟩ := q
  subst hname
  exact hhides.valueOf_ne_ok hfind hkind himport v hv

/-- The constants of one section, each in its own context. -/
theorem standsIn_ofConstants (path : List String) (outer : List Entries) {own : Entries}
    {ctx : Context}
    (h : Hide (own :: outer) ctx) (ds : List ConstDeclaration) :
    List.Forall₂ StandsIn (ofConstants path outer own ds) (ctx.places Context.declareConstant ds) ∧
      Hide ((own ++ (ofConstants path outer own ds).map entry) :: outer)
        (ds.foldl Context.declareConstant ctx) := by
  induction ds generalizing own ctx with
  | nil =>
    refine ⟨.nil, ?_⟩
    rw [ofConstants, List.map_nil, List.append_nil]
    exact h
  | cons d ds ih =>
    have hnext : Hide ((own ++ [entry ⟨path, own :: outer, d⟩]) :: outer) (ctx.declareConstant d) :=
      h.constant d.name.name _ _
    obtain ⟨hothers, hafter⟩ := ih hnext
    rw [List.append_assoc] at hafter
    exact ⟨.cons ⟨rfl, h⟩ hothers, hafter⟩

mutual

/-- The places and the contexts go through the procedures in the same way. -/
theorem Declarations.standsIn_constantPlaces (d : Declarations) (path : List String)
    {outer : List Entries} {own : Entries} {ctx : Context} (h : Hide (own :: outer) ctx) :
    List.Forall₂ StandsIn (d.constantPlaces path outer own)
      (ctx.places Context.declareConstant d.constants ++
        (d.blocks ctx).flatMap Block.constants) := by
  match d with
  | ⟨constants, types, vars, procedures⟩ =>
    obtain ⟨hconstants, hafter⟩ := standsIn_ofConstants path outer h constants
    have hbody := (hafter.bare .type (types.map fun d => d.name.name)).bare .variable
      (vars.flatMap VariableDeclaration.variableNames)
    rw [← Environment.foldl_declareType, ← Environment.foldl_declareVariables] at hbody
    rw [Declarations.constantPlaces, Declarations.blocks]
    exact List.rel_append hconstants
      (ProcedureDeclaration.standsIn_allConstantPlaces procedures path hbody)

/-- The constants of a procedure are those of its blocks, each in its own context. -/
theorem ProcedureDeclaration.standsIn_constantPlaces (p : ProcedureDeclaration) (path : List String)
    {outer : List Entries} {ctx : Context} (h : Hide outer ctx) :
    List.Forall₂ StandsIn (p.constantPlaces path outer)
      ((p.allBlocks ctx).flatMap Block.constants) := by
  match p with
  | ⟨heading, declarations, result, endName⟩ =>
    rw [ProcedureDeclaration.constantPlaces, ProcedureDeclaration.allBlocks, List.flatMap_cons]
    exact declarations.standsIn_constantPlaces _ (h.push.bare .parameter heading.parameterNames)

theorem ProcedureDeclaration.standsIn_allConstantPlaces (ps : List ProcedureDeclaration)
    (path : List String) {outer : List Entries} {own : Entries} {ctx : Context}
    (h : Hide (own :: outer) ctx) :
    List.Forall₂ StandsIn (ProcedureDeclaration.allConstantPlaces path outer own ps)
      ((ProcedureDeclaration.blocks ctx ps).flatMap Block.constants) := by
  match ps with
  | [] =>
    rw [ProcedureDeclaration.allConstantPlaces, ProcedureDeclaration.blocks]
    exact .nil
  | p :: ps =>
    have hname : Hide ((own ++ bare [p.heading.name.name]) :: outer) (ctx.declareProcedure p) :=
      h.bare .procedure [p.heading.name.name]
    rw [ProcedureDeclaration.allConstantPlaces, ProcedureDeclaration.blocks, List.flatMap_append]
    exact List.rel_append (p.standsIn_constantPlaces path hname)
      (ProcedureDeclaration.standsIn_allConstantPlaces ps path hname)

end

/-- The places of the evaluator are the constants in their contexts. -/
theorem Module.standsIn_constantPlaces (m : Module) :
    List.Forall₂ StandsIn m.constantPlaces m.constantsInContext := by
  have himports := Constants.hides_imports (m.imports.getD []) Constants.hides_predeclared
  exact m.declarations.standsIn_constantPlaces [] ⟨.empty, Constants.holds_empty, himports⟩

theorem map_declaration_of_standsIn {places : List ConstantPlace}
    {cs : List (Context × ConstDeclaration)}
    (h : List.Forall₂ StandsIn places cs) :
    cs.map Prod.snd = places.map ConstantPlace.declaration := by
  induction h with
  | nil => rfl
  | cons hfirst _ ih => rw [List.map_cons, List.map_cons, hfirst.declaration, ih]

/-! ## Runs that meet a hidden name -/

namespace Evaluator

/-- A place without a value is not among those that are recorded. -/
theorem not_mem_of_records {place : ConstantPlace} (hresult : ∀ value, place.result ≠ .ok value)
    {places : List ConstantPlace} {values : List (String × Value)}
    (h : List.Forall₂ Records places values) : place ∉ places := by
  induction h with
  | nil => exact List.not_mem_nil
  | cons hfirst _ ih =>
    rintro (_ | ⟨_, hmem⟩)
    · exact hresult _ hfirst.value
    · exact ih hmem

/-- The run cannot get past a constant without a value. -/
theorem evaluateModule_of_result_ne_ok {m : Module} {i : Nat} {place : ConstantPlace}
    (hplace : m.constantPlaces[i]? = some place) (hresult : ∀ value, place.result ≠ .ok value) :
    ∃ error values, evaluateModule m = (some error, values) ∧ values.length ≤ i ∧
      List.Forall₂ Records (m.constantPlaces.take values.length) values := by
  have hruns := runs_module m
  unfold evaluateModule
  generalize initial.evaluateNode (.root m) = work at hruns ⊢
  cases hruns with
  | done ev recorded hrecorded hvalues _ =>
    exact absurd (List.mem_of_getElem? hplace) (not_mem_of_records hresult hrecorded)
  | stopped ev recorded before later failing error hplaces herror hrecorded hvalues =>
    rw [List.nil_append] at hvalues
    have hlength : ev.values.length = before.length := by rw [hvalues, hrecorded.length_eq]
    refine ⟨error, ev.values, rfl, ?_, ?_⟩
    · -- otherwise the place would be one of those before
      by_contra hlt
      rw [hplaces, List.getElem?_append_left (by omega)] at hplace
      exact not_mem_of_records hresult hrecorded (List.mem_of_getElem? hplace)
    · rw [hlength, hplaces, List.take_left, hvalues]
      exact hrecorded

/-- A constant whose expression refers to something that is no constant is not recorded: the
evaluation of the module stops at it or in front of it, also if an outer constant or a boolean
constant has the name.  Only an imported module that is called `TRUE` or `FALSE` hides nothing. -/
theorem evaluateModule_of_hidden (m : Module) :
    m.constantsInContext.map Prod.snd = (Node.root m).tree.constants ∧
      ∀ (i : Nat) (ctx : Context) (d : ConstDeclaration), m.constantsInContext[i]? = some (ctx, d) →
        ∀ q ∈ d.value.names, q.qualifier = none →
          ∀ meaning, ctx.find? q.name = some meaning → meaning.kind ≠ .constant →
            (meaning.kind = .module → Predeclared.boolean? q.name = none) →
              ∃ error values, evaluateModule m = (some error, values) ∧ values.length ≤ i ∧
                List.Forall₂ Records (m.constantPlaces.take values.length) values := by
  have hstands := m.standsIn_constantPlaces
  refine ⟨?_, ?_⟩
  · rw [map_declaration_of_standsIn hstands, m.map_declaration_constantPlaces]
  · intro i ctx d hconstant q hq hname meaning hfind hkind himport
    obtain ⟨hi, hget⟩ := List.getElem?_eq_some_iff.mp hconstant
    have hi' : i < m.constantPlaces.length := by rwa [hstands.length_eq]
    have hplace := hstands.get hi' hi
    rw [List.get_eq_getElem, List.get_eq_getElem, hget] at hplace
    exact evaluateModule_of_result_ne_ok (List.getElem?_eq_getElem hi')
      (hplace.result_ne_ok hq hname hfind hkind himport)

end Evaluator

/-- A module with a constant that a parameter hides, and a boolean constant that a type hides. -/
def hidingModule : Module where
  name := "Hiding"
  imports := none
  declarations := {
    constants := [⟨⟨"size", false⟩, ⟨none, ⟨.number (.integer 8), []⟩, []⟩⟩]
    types := [⟨⟨"TRUE", false⟩, .named ⟨none, "INTEGER"⟩⟩]
    vars := []
    procedures := [{
      heading := ⟨⟨"P", false⟩, some ⟨[⟨false, ["size"], 0, none, "INTEGER"⟩], none⟩⟩
      declarations := {
        constants :=
          [⟨⟨"half", false⟩, ⟨none, ⟨.name ⟨none, "size"⟩, [⟨.div, .number (.integer 2)⟩]⟩, []⟩⟩,
          ⟨⟨"yes", false⟩, ⟨none, ⟨.name ⟨none, "TRUE"⟩, []⟩, []⟩⟩]
        types := []
        vars := []
        procedures := [] }
      result := none
      endName := "P" }] }
  endName := "Hiding"

theorem Evaluator.evaluateModule_of_hidden_size :
    Source.module (hidingModule.source 2) = .ok hidingModule ∧
      ∃ error values, evaluateModule hidingModule = (some error, values) ∧ values.length ≤ 1 ∧
        List.Forall₂ Records (hidingModule.constantPlaces.take values.length) values := by
  have hprintable : hidingModule.Printable := by decide +kernel
  refine ⟨hprintable.module_source 2, ?_⟩
  exact (Evaluator.evaluateModule_of_hidden hidingModule).2 1 _ _ rfl ⟨none, "size"⟩
    List.mem_cons_self rfl ⟨.parameter, none⟩ rfl nofun nofun

def importedBooleanModule : Module where
  name := "M"
  imports := some ["TRUE"]
  declarations := {
    constants := [⟨⟨"c", false⟩, ⟨none, ⟨.name ⟨none, "TRUE"⟩, []⟩, []⟩⟩]
    types := []
    vars := []
    procedures := [] }
  endName := "M"

/-- The evaluator records a constant that refers to an imported module called `TRUE`. -/
theorem Evaluator.evaluateModule_importedBoolean :
    Source.module (importedBooleanModule.source 2) = .ok importedBooleanModule ∧
      (importedBooleanModule.constantsInContext.map fun (ctx, d) =>
        d.value.names.map fun q => (q.qualifier, (ctx.find? q.name).map Meaning.kind)) =
          [[(none, some .module)]] ∧
      evaluateModule importedBooleanModule = (none, [("c", .boolean true)]) := by
  have hprintable : importedBooleanModule.Printable := by decide +kernel
  exact ⟨hprintable.module_source 2, by decide +kernel, by decide +kernel⟩

end Oberon
