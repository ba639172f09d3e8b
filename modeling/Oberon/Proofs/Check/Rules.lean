import Oberon.Check.Declarations
import Oberon.Proofs.Check.Context

/-!
# The static rules of a module

Where names are used in a module, in which context, and what the rules of the language ask of
them.  The uses are collected block by block: a block is the module or one of its procedures, at
any depth.  A name is in scope from its declaration on.  The one exception is the target of a
pointer in a type section: if it means nothing at its place, it is looked up at the end of the
section.
-/

namespace Oberon

/-- A use of a name.  A name that means nothing here is looked up later. -/
structure Use where
  name : Qualident
  here : Context
  later : Context

namespace Use

def inside (ctx : Context) (name : Qualident) : Use :=
  ⟨name, ctx, ctx⟩

/-- What the name stands for, as an unqualified name. -/
def kind? (u : Use) : Option SymbolKind :=
  ((u.here.find? u.name.name).or (u.later.find? u.name.name)).map Meaning.kind

end Use

/-! ## Types -/

def FormalParameters.uses (ctx : Context) (p : FormalParameters) : List Use :=
  -- the names of a section are declared before its type
  (ctx.places Context.declareSection p.sections).map (fun (ctx, s) =>
      .inside (ctx.declareSection s) s.type.name) ++
    p.result.toList.map (.inside (p.sections.foldl Context.declareSection ctx))

/-- A type at its place: the context there, and the context in which pointer targets are looked up
again. -/
structure TypePlace where
  type : TypeExpr
  here : Context
  later : Context

mutual

/-- A type and the types inside it.  A name behind `POINTER TO` belongs to the pointer. -/
def TypeExpr.subtypes : TypeExpr → List TypeExpr
  | .named q => [.named q]
  | .array lengths element => .array lengths element :: element.subtypes
  | .record base fields => .record base fields :: FieldList.subtypes fields
  | .pointer (.named q) => [.pointer (.named q)]
  | .pointer target => .pointer target :: target.subtypes
  | .procedure parameters => [.procedure parameters]

def FieldList.typeSubtypes : FieldList → List TypeExpr
  | ⟨_, type⟩ => type.subtypes

def FieldList.subtypes : List FieldList → List TypeExpr
  | [] => []
  | fields :: others => fields.typeSubtypes ++ FieldList.subtypes others

end

namespace TypePlace

def uses (place : TypePlace) : List Use :=
  match place.type with
  | .named q => [.inside place.here q]
  | .record base _ => base.toList.map (.inside place.here)
  | .pointer (.named q) => [⟨q, place.here, place.later⟩]
  | .procedure parameters => parameters.toList.flatMap (FormalParameters.uses place.here.push)
  | _ => []

def lengths (place : TypePlace) : List (Context × Expression) :=
  match place.type with
  | .array lengths _ => lengths.map fun e => (place.here, e)
  | _ => []

def names (place : TypePlace) : List String :=
  match place.type with
  | .procedure parameters => parameters.toList.flatMap fun p => parameterNames p.sections
  | .record _ fields => fields.flatMap fun f => f.names.map IdentDef.name
  | _ => []

end TypePlace

def TypeExpr.places (here later : Context) (t : TypeExpr) : List TypePlace :=
  t.subtypes.map fun s => ⟨s, here, later⟩

/-! ## Declarations -/

namespace Declarations

def identDefs (d : Declarations) : List IdentDef :=
  d.constants.map ConstDeclaration.name ++ d.types.map TypeDeclaration.name ++
    d.vars.flatMap VariableDeclaration.names ++ d.procedures.map fun p => p.heading.name

/-- The names of a body, section by section. -/
theorem map_name_identDefs (d : Declarations) : d.identDefs.map IdentDef.name =
    d.constants.map (fun c => c.name.name) ++ d.types.map (fun t => t.name.name) ++
      d.vars.flatMap VariableDeclaration.variableNames ++ d.procedures.map fun p =>
        p.heading.name.name := by
  rw [identDefs, List.map_append, List.map_append, List.map_append, List.map_map, List.map_map,
    List.map_map, List.map_flatMap]
  rfl

def afterConstants (ctx : Context) (d : Declarations) : Context :=
  d.constants.foldl Context.declareConstant ctx

def afterTypes (ctx : Context) (d : Declarations) : Context :=
  d.types.foldl Context.declareType (d.afterConstants ctx)

def afterVariables (ctx : Context) (d : Declarations) : Context :=
  d.vars.foldl Context.declareVariables (d.afterTypes ctx)

def afterAll (ctx : Context) (d : Declarations) : Context :=
  d.procedures.foldl Context.declareProcedure (d.afterVariables ctx)

def constantValues (ctx : Context) (d : Declarations) : List (Context × Expression) :=
  (ctx.places Context.declareConstant d.constants).map fun (ctx, c) => (ctx, c.value)

/-- All types.  A type is not in scope inside itself, but the names of variables are declared
before their type. -/
def typePlaces (ctx : Context) (d : Declarations) : List TypePlace :=
  ((d.afterConstants ctx).places Context.declareType d.types).flatMap (fun (here, t) =>
      t.type.places here (d.afterTypes ctx)) ++
    ((d.afterTypes ctx).places Context.declareVariables d.vars).flatMap fun (before, v) =>
      v.type.places (before.declareVariables v) (before.declareVariables v)

end Declarations

/-! ## Blocks -/

/-- The module or a procedure in it, with the context in which it stands. -/
inductive Block where
  | module (m : Module)
  | procedure (outer : Context) (p : ProcedureDeclaration)

namespace Block

def isProcedure : Block → Bool
  | module _ => false
  | procedure _ _ => true

def name : Block → String
  | module m => m.name
  | procedure _ p => p.heading.name.name

def endName : Block → String
  | module m => m.endName
  | procedure _ p => p.endName

def declarations : Block → Declarations
  | module m => m.declarations
  | procedure _ p => p.declarations

def parameters : Block → Option FormalParameters
  | module _ => none
  | procedure _ p => p.heading.parameters

def result : Block → Option Expression
  | module _ => none
  | procedure _ p => p.result

def ownNames : Block → List String
  | module m => m.imports.getD []
  | procedure _ p => p.heading.parameterNames

def opening : Block → Context
  | module _ => Context.predeclared.push
  | procedure outer _ => outer.push

def start : Block → Context
  | module m => Context.declareAll .module Context.predeclared.push (m.imports.getD [])
  | procedure outer p => Context.declareAll .parameter outer.push p.heading.parameterNames

def names (b : Block) : List String :=
  b.ownNames ++ b.declarations.identDefs.map IdentDef.name

def constantValues (b : Block) : List (Context × Expression) :=
  b.declarations.constantValues b.start

def typePlaces (b : Block) : List TypePlace :=
  b.declarations.typePlaces b.start

def typeUses (b : Block) : List Use :=
  b.parameters.toList.flatMap (FormalParameters.uses b.opening) ++
    b.typePlaces.flatMap TypePlace.uses

def lengths (b : Block) : List (Context × Expression) :=
  b.typePlaces.flatMap TypePlace.lengths

def resultUses (b : Block) : List Use :=
  b.result.toList.flatMap fun e => e.names.map (.inside (b.declarations.afterAll b.start))

def references (b : Block) : List Qualident :=
  b.typeUses.map Use.name ++ b.resultUses.map Use.name ++
    (b.constantValues ++ b.lengths).flatMap fun (_, e) => e.names

end Block

mutual

/-- The procedures among the declarations of a block, at any depth. -/
def Declarations.blocks (ctx : Context) : Declarations → List Block
  | ⟨constants, types, vars, procedures⟩ =>
    ProcedureDeclaration.blocks
      (Declarations.afterVariables ctx ⟨constants, types, vars, []⟩) procedures

def ProcedureDeclaration.allBlocks (outer : Context) : ProcedureDeclaration → List Block
  | ⟨heading, declarations, result, endName⟩ =>
    .procedure outer ⟨heading, declarations, result, endName⟩ ::
      declarations.blocks (Context.declareAll .parameter outer.push heading.parameterNames)

def ProcedureDeclaration.blocks (ctx : Context) : List ProcedureDeclaration → List Block
  | [] => []
  | p :: ps =>
    p.allBlocks (ctx.declareProcedure p) ++ ProcedureDeclaration.blocks (ctx.declareProcedure p) ps

end

/-- A procedure is a block, and the others lie inside it. -/
theorem ProcedureDeclaration.allBlocks_eq (outer : Context) (p : ProcedureDeclaration) :
    p.allBlocks outer = .procedure outer p ::
      p.declarations.blocks (Block.procedure outer p).start := by
  obtain ⟨heading, declarations, result, endName⟩ := p
  rw [allBlocks]
  rfl

def Module.blocks (m : Module) : List Block :=
  .module m :: m.declarations.blocks (Block.module m).start

/-! ## The rules -/

/-- Every name in the expression is unqualified and stands for a constant. -/
def Context.AllConstant (ctx : Context) (e : Expression) : Prop :=
  ∀ q ∈ e.names, q.qualifier = none ∧ (ctx.find? q.name).map Meaning.kind = some .constant

/-- The rules that a block has to obey, apart from the blocks inside it. -/
structure Block.StaticRules (imports : List String) (b : Block) : Prop where
  /-- The closing name is the name of the block. -/
  closingName : b.endName = b.name
  /-- The names of the scope are distinct. -/
  distinctNames : b.names.Nodup
  /-- The parameters of a procedure type and the fields of a record are distinct. -/
  distinctParts : ∀ place ∈ b.typePlaces, place.names.Nodup
  /-- A name in a type position is that of a type. -/
  types : ∀ u ∈ b.typeUses, u.name.qualifier = none → u.kind? = some .type
  /-- A name in a result is declared, and neither as a type nor as a module. -/
  results : ∀ u ∈ b.resultUses, u.name.qualifier = none →
    ∃ kind, u.kind? = some kind ∧ kind ≠ .type ∧ kind ≠ .module
  /-- The value of a constant is made of constants and can be computed. -/
  constants : ∀ c ∈ b.constantValues, c.1.AllConstant c.2 ∧ ∃ v, c.1.evaluate c.2 = .ok v
  /-- An array length is made of constants and is a positive integer. -/
  lengths : ∀ c ∈ b.lengths,
    c.1.AllConstant c.2 ∧ ∃ n : Int64, c.1.evaluate c.2 = .ok (.integer n) ∧ 0 < n.toInt
  /-- A qualified name is that of an imported module. -/
  qualifiers : ∀ q ∈ b.references, ∀ qualifier ∈ q.qualifier, qualifier ∈ imports
  /-- Inside a procedure nothing is exported. -/
  exports : b.isProcedure → ∀ d ∈ b.declarations.identDefs, d.exported = false
  /-- A procedure has a result exactly if it has a result type. -/
  returns : b.result.isSome ↔ ∃ p ∈ b.parameters, p.result.isSome

def Module.StaticRules (m : Module) : Prop :=
  ∀ b ∈ m.blocks, b.StaticRules (m.imports.getD [])

end Oberon
