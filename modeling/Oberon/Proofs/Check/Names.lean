import Oberon.Proofs.Check.BlockAgreement
import Oberon.Proofs.Syntax.Printable

/-!
# The names that a module declares

A condition on all nodes of a module holds for the names that its blocks declare, at any depth.
In a printable module they are identifiers, and none of them is empty.
-/

namespace Oberon

open Scanner (IsIdentifier)

section Within

variable {p : Node → Prop} {n : Nat}

/-! ## Parameters -/

/-- The condition holds for the names of parameters. -/
theorem FormalParameters.names_of_within {formal : FormalParameters}
    (h : formal.tree.Within p Node.nests n) :
    ∀ name ∈ parameterNames formal.sections, p (.identifier name) := by
  intro name hname
  obtain ⟨s, hs, hmem⟩ := List.mem_flatMap.mp hname
  have hsection := (FormalParameters.within_tree.mp h).2.2.1 s hs
  have hlist := (ParameterSection.within_tree.mp hsection).2.1
  exact (within_identifierListTree.mp hlist).2 name hmem

theorem optionalNames_of_within {parameters : Option FormalParameters}
    (h : ∀ formal ∈ parameters, formal.tree.Within p Node.nests n) :
    ∀ name ∈ Environment.optionalNames parameters, p (.identifier name) := by
  intro name hname
  obtain ⟨formal, hformal, hmem⟩ := List.mem_flatMap.mp hname
  exact FormalParameters.names_of_within (h formal (Option.mem_toList.mp hformal)) name hmem

/-! ## Types -/

theorem TypeExpr.form_of_within {t : TypeExpr} (h : t.tree.Within p Node.nests n) :
    ∃ k, t.formTree.Within p Node.nests k := by
  cases n with
  | zero => exact absurd h (Tree.not_within_zero rfl)
  | succ k => exact ⟨k, (TypeExpr.within_tree.mp h).2⟩

theorem TypeExpr.mem_subtypes_pointer {target s : TypeExpr}
    (h : s ∈ (TypeExpr.pointer target).subtypes) :
    s = .pointer target ∨ s ∈ target.subtypes := by
  cases target with
  | named q => exact .inl (List.mem_singleton.mp h)
  | _ => exact List.mem_cons.mp h

mutual

/-- The condition holds in the types inside a type. -/
theorem TypeExpr.subtypes_of_within (t : TypeExpr) {n : Nat}
    (h : t.formTree.Within p Node.nests n) :
    ∀ s ∈ t.subtypes, ∃ k, s.formTree.Within p Node.nests k := by
  have hparts := (TypeExpr.within_formTree.mp h).2
  match t with
  | .named q =>
    rw [TypeExpr.subtypes]
    exact List.forall_mem_singleton.mpr ⟨n, h⟩
  | .array lengths element =>
    obtain ⟨k, hk⟩ := TypeExpr.form_of_within hparts.2
    rw [TypeExpr.subtypes]
    exact List.forall_mem_cons.mpr ⟨⟨n, h⟩, element.subtypes_of_within hk⟩
  | .record base fields =>
    rw [TypeExpr.subtypes]
    exact List.forall_mem_cons.mpr ⟨⟨n, h⟩, FieldList.subtypes_of_within fields hparts.2.2⟩
  | .pointer target =>
    -- a named target is not listed by itself, but it does no harm to know it as well
    obtain ⟨k, hk⟩ := TypeExpr.form_of_within hparts
    have ih := target.subtypes_of_within hk
    intro s hs
    rcases TypeExpr.mem_subtypes_pointer hs with rfl | htarget
    · exact ⟨n, h⟩
    · exact ih s htarget
  | .procedure formal =>
    rw [TypeExpr.subtypes]
    exact List.forall_mem_singleton.mpr ⟨n, h⟩

theorem FieldList.typeSubtypes_of_within (fields : FieldList) {n : Nat}
    (h : fields.tree.Within p Node.nests n) :
    ∀ s ∈ fields.typeSubtypes, ∃ k, s.formTree.Within p Node.nests k := by
  match fields with
  | ⟨names, type⟩ =>
    obtain ⟨k, hk⟩ := TypeExpr.form_of_within (FieldList.within_tree.mp h).2.2
    rw [FieldList.typeSubtypes]
    exact type.subtypes_of_within hk

theorem FieldList.subtypes_of_within (fields : List FieldList) {n : Nat}
    (h : ∀ field ∈ fields, field.tree.Within p Node.nests n) :
    ∀ s ∈ FieldList.subtypes fields, ∃ k, s.formTree.Within p Node.nests k := by
  match fields with
  | [] => exact nofun
  | field :: others =>
    obtain ⟨hfield, hothers⟩ := List.forall_mem_cons.mp h
    rw [FieldList.subtypes]
    exact List.forall_mem_append.mpr
      ⟨field.typeSubtypes_of_within hfield, FieldList.subtypes_of_within others hothers⟩

end

/-- The condition holds for the parameters of procedure types inside a type. -/
theorem TypeExpr.parameterNames_of_within {t : TypeExpr} (h : t.tree.Within p Node.nests n)
    (here later : Context) :
    ∀ place ∈ t.places here later, ∀ name ∈ place.parameterNames, p (.identifier name) := by
  obtain ⟨k, hk⟩ := TypeExpr.form_of_within h
  refine List.forall_mem_map.mpr fun s hs => ?_
  obtain ⟨j, hj⟩ := t.subtypes_of_within hk s hs
  have hparts := (TypeExpr.within_formTree.mp hj).2
  cases s with
  | procedure formal => exact optionalNames_of_within hparts
  | _ => exact nofun

/-! ## Declarations -/

/-- The condition on a procedure is one on its heading and its declarations. -/
theorem ProcedureDeclaration.parts_of_within {q : ProcedureDeclaration}
    (h : q.tree.Within p Node.nests n) :
    ∃ k, q.heading.tree.Within p Node.nests k ∧ q.declarations.Within p k := by
  cases n with
  | zero =>
    obtain ⟨heading, declarations, result, endName⟩ := q
    rw [ProcedureDeclaration.tree] at h
    exact absurd h (Tree.not_within_zero rfl)
  | succ k =>
    obtain ⟨-, hheading, hdeclarations, -⟩ := ProcedureDeclaration.within_tree.mp h
    exact ⟨k, hheading, hdeclarations⟩

/-- The condition holds for the names declared in a body. -/
theorem Declarations.Within.identDefs {d : Declarations} (h : d.Within p n) :
    ∀ x ∈ d.identDefs, p (.identDef x) := by
  simp only [Declarations.identDefs, List.forall_mem_append, List.forall_mem_map,
    List.forall_mem_flatMap]
  refine ⟨⟨⟨fun c hc => ?_, fun t ht => ?_⟩, fun v hv => ?_⟩, fun q hq => ?_⟩
  · exact (ConstDeclaration.within_tree.mp (h.constants c hc)).2.1
  · exact (TypeDeclaration.within_tree.mp (h.types t ht)).2.1
  · exact (within_identDefListTree.mp (VariableDeclaration.within_tree.mp (h.vars v hv)).2.1).2
  · obtain ⟨k, hheading, -⟩ := ProcedureDeclaration.parts_of_within (h.procedures q hq)
    exact (ProcedureHeading.within_tree.mp hheading).2.1

theorem Context.mem_of_mem_places {α : Type} {declare : Context → α → Context} {ctx : Context}
    {xs : List α} : ∀ place ∈ ctx.places declare xs, place.2 ∈ xs := by
  induction xs generalizing ctx with
  | nil => exact nofun
  | cons x xs ih =>
    rw [places, List.forall_mem_cons]
    exact ⟨List.mem_cons_self, fun place hplace => List.mem_cons_of_mem x (ih place hplace)⟩

/-- The condition holds for the parameters of all procedure types of a body. -/
theorem Declarations.Within.parameterNames {d : Declarations} (h : d.Within p n) (ctx : Context) :
    ∀ place ∈ d.typePlaces ctx, ∀ name ∈ place.parameterNames, p (.identifier name) := by
  simp only [Declarations.typePlaces, List.forall_mem_append, List.forall_mem_flatMap]
  constructor
  · intro place hplace
    have htype := h.types place.2 (Context.mem_of_mem_places place hplace)
    exact TypeExpr.parameterNames_of_within (TypeDeclaration.within_tree.mp htype).2.2 _ _
  · intro place hplace
    have hvariable := h.vars place.2 (Context.mem_of_mem_places place hplace)
    exact TypeExpr.parameterNames_of_within (VariableDeclaration.within_tree.mp hvariable).2.2 _ _

/-! ## Blocks -/

/-- The block is a procedure inside scopes of at least this level, and its nodes satisfy the
condition. -/
def Block.Inside (p : Node → Prop) (level : Nat) : Block → Prop
  | .module _ => False
  | .procedure outer q => level ≤ outer.level ∧ ∃ k, q.tree.Within p Node.nests k

theorem Block.Inside.mono {level level' : Nat} {b : Block} (h : b.Inside p level')
    (hle : level ≤ level') :
    b.Inside p level := by
  cases b with
  | module m => exact h
  | procedure outer q => exact ⟨hle.trans h.1, h.2⟩

theorem level_afterVariables (ctx : Context) (d : Declarations) :
    (d.afterVariables ctx).level = ctx.level := by
  unfold Declarations.afterVariables Declarations.afterTypes Declarations.afterConstants
  rw [Environment.adds_declareVariables.foldl.level, Environment.adds_declareType.foldl.level,
    Environment.adds_declareConstant.foldl.level]

/-- A procedure is one level further inside than what is around it. -/
theorem Block.level_start_procedure (outer : Context) (q : ProcedureDeclaration) :
    (Block.procedure outer q).start.level = outer.level + 1 :=
  Context.level_declareAll .parameter outer.push q.heading.parameterNames

mutual

/-- The condition holds in all procedures of a body. -/
theorem Declarations.blocks_inside (d : Declarations) {n : Nat} (h : d.Within p n) (ctx : Context) :
    ∀ b ∈ d.blocks ctx, b.Inside p ctx.level := by
  match d with
  | ⟨constants, types, vars, procedures⟩ =>
    have ih := ProcedureDeclaration.blocks_inside procedures h.procedures
      (Declarations.afterVariables ctx ⟨constants, types, vars, []⟩)
    rw [level_afterVariables] at ih
    rw [Declarations.blocks]
    exact ih

theorem ProcedureDeclaration.allBlocks_inside (q : ProcedureDeclaration) {n : Nat}
    (h : q.tree.Within p Node.nests n) (outer : Context) :
    ∀ b ∈ q.allBlocks outer, b.Inside p outer.level := by
  obtain ⟨k, -, hdeclarations⟩ := ProcedureDeclaration.parts_of_within h
  match q with
  | ⟨heading, declarations, result, endName⟩ =>
    have hlevel := Block.level_start_procedure outer ⟨heading, declarations, result, endName⟩
    have ih := declarations.blocks_inside hdeclarations
      (Block.procedure outer ⟨heading, declarations, result, endName⟩).start
    rw [hlevel] at ih
    rw [ProcedureDeclaration.allBlocks, List.forall_mem_cons]
    exact ⟨⟨Nat.le_refl _, n, h⟩, fun b hb => (ih b hb).mono (Nat.le_succ _)⟩

theorem ProcedureDeclaration.blocks_inside (qs : List ProcedureDeclaration) {n : Nat}
    (h : ∀ q ∈ qs, q.tree.Within p Node.nests n) (ctx : Context) :
    ∀ b ∈ ProcedureDeclaration.blocks ctx qs, b.Inside p ctx.level := by
  match qs with
  | [] => exact nofun
  | q :: qs =>
    obtain ⟨hfirst, hothers⟩ := List.forall_mem_cons.mp h
    have hlevel : (ctx.declareProcedure q).level = ctx.level := Scopes.level_bind ctx _ _
    rw [ProcedureDeclaration.blocks, List.forall_mem_append, ← hlevel]
    exact ⟨q.allBlocks_inside hfirst _, ProcedureDeclaration.blocks_inside qs hothers _⟩

end

end Within

/-- The block declares no empty name, and it is at the level of a module only as a module. -/
structure Block.Proper (b : Block) : Prop where
  names : ∀ name ∈ b.names, name ≠ ""
  parameterNames : ∀ place ∈ b.typePlaces, ∀ name ∈ place.parameterNames, name ≠ ""
  level : b.start.level = Environment.moduleLevel ↔ b.isProcedure = false

theorem Scanner.IsIdentifier.ne_empty {name : String} (h : IsIdentifier name) : name ≠ "" := by
  rintro rfl
  obtain ⟨c, word, hletters, -⟩ := h.letters
  cases hletters

theorem Declarations.Within.proper {d : Declarations} {n : Nat} (h : d.Within Node.Printable n)
    (ctx : Context) : (∀ name ∈ d.identDefs.map IdentDef.name, name ≠ "") ∧
      ∀ place ∈ d.typePlaces ctx, ∀ name ∈ place.parameterNames, name ≠ "" :=
  ⟨List.forall_mem_map.mpr fun x hx => (h.identDefs x hx).ne_empty,
    fun place hplace name hname => (h.parameterNames ctx place hplace name hname).ne_empty⟩

/-- A printable block inside a procedure has no empty names. -/
theorem Block.Inside.proper {b : Block} (h : b.Inside Node.Printable Environment.moduleLevel) :
    b.Proper := by
  cases b with
  | module m => exact h.elim
  | procedure outer q =>
    obtain ⟨hlevel, k, hk⟩ := h
    obtain ⟨j, hheading, hdeclarations⟩ := ProcedureDeclaration.parts_of_within hk
    obtain ⟨hnames, hparameters⟩ := hdeclarations.proper (Block.procedure outer q).start
    have hown : ∀ name ∈ q.heading.parameterNames, name ≠ "" := fun name hname =>
      (optionalNames_of_within (ProcedureHeading.within_tree.mp hheading).2.2 name hname).ne_empty
    refine ⟨List.forall_mem_append.mpr ⟨hown, hnames⟩, hparameters, ?_⟩
    rw [Block.level_start_procedure]
    exact ⟨fun heq => absurd heq (by omega), nofun⟩

/-- No block of a printable module has an empty name. -/
theorem Module.Printable.proper {m : Module} (h : m.Printable) : ∀ b ∈ m.blocks, b.Proper := by
  obtain ⟨-, -, himports, hdeclarations, -⟩ :=
    Module.within_tree.mp (within_root.mp (Module.printable_iff.mp h)).2
  have hlevel : (Block.module m).start.level = Environment.moduleLevel :=
    Context.level_declareAll .module Context.predeclared.push _
  rw [Module.blocks, List.forall_mem_cons]
  constructor
  · obtain ⟨hnames, hparameters⟩ := hdeclarations.proper (Block.module m).start
    have hown : ∀ name ∈ m.imports.getD [], name ≠ "" := by
      intro name hname
      cases hlist : m.imports with
      | none =>
        rw [hlist] at hname
        cases hname
      | some names =>
        rw [hlist] at hname
        exact ((within_identifierListTree.mp (himports names hlist)).2 name hname).ne_empty
    exact ⟨List.forall_mem_append.mpr ⟨hown, hnames⟩, hparameters, ⟨fun _ => rfl, fun _ => hlevel⟩⟩
  · intro b hb
    have hinside := m.declarations.blocks_inside hdeclarations (Block.module m).start b hb
    rw [hlevel] at hinside
    exact hinside.proper

end Oberon
