import Oberon.Proofs.Check.Points

/-!
# What the checker looks at

The check of a module as a list of inspections: one for each constant value, array length, name of
a type, pointer target, record, declared name, result and closing name, at the points where they
are inspected.  The inspections are collected site by site: a site is the module or one of its
procedures, at any depth.
-/

namespace Oberon

open Environment

/-! ## Inspections -/

inductive Item where
  /-- The value of a constant. -/
  | value (e : Expression)
  /-- An array length. -/
  | length (e : Expression)
  /-- The name of a type. -/
  | typeName (q : Qualident)
  /-- The name behind `POINTER TO`. -/
  | target (q : Qualident)
  /-- The fields of a record. -/
  | fields (fields : List FieldList)
  /-- A name where it is declared. -/
  | declared (name : String) (symbol : Symbol)
  /-- The result of a procedure. -/
  | result (heading : ProcedureHeading) (value : Option Expression)
  /-- The name at the end of a body. -/
  | closing (body : Body) (name endName : String)

/-- Something that is inspected at a point.  A pointer target that means nothing here is looked up
later. -/
structure Inspection where
  item : Item
  here : Point
  later : Point

namespace Inspection

def inside (p : Point) (item : Item) : Inspection :=
  ⟨item, p, p⟩

def findings (i : Inspection) : List Finding :=
  match i.item with
  | .value e => i.here.env.report (i.here.env.constantValue e).1
  | .length e => i.here.env.report (i.here.env.lengthProblems e)
  | .typeName q => i.here.env.report (i.here.env.referenceProblems .type [q])
  | .target q =>
    let env := if i.here.env.isForward q then i.later.env else i.here.env
    env.report (env.referenceProblems .type [q])
  | .fields fields => i.here.env.report (fieldNameProblems fields)
  | .declared name symbol => (i.here.env.declare name symbol none).2
  | .result heading value => i.here.env.report (i.here.env.resultProblems heading value)
  | .closing body name endName => i.here.env.report (endNameProblems body name endName)

def expression? (i : Inspection) : Option Expression :=
  match i.item with
  | .value e | .length e => some e
  | _ => none

/-- The environments have the names of the contexts.  Where a constant expression stands, the
constants have the same values. -/
structure Tracked (i : Inspection) : Prop where
  here : i.here.Named
  later : i.later.Named
  constants : ∀ e, i.expression? = some e → i.here.Tracks

end Inspection

namespace Point

def places {α : Type} (step : Point → α → Point) : Point → List α → List (Point × α)
  | _, [] => []
  | p, x :: xs => (p, x) :: places step (step p x) xs

def along {α : Type} (step : Point → α → Point) (inspect : Point → α → List Inspection) (p : Point)
    (xs : List α) : List Inspection :=
  (p.places step xs).flatMap fun (p, x) => inspect p x

/-! ### Names -/

def inspectParameter (p : Point) (name : String) : List Inspection :=
  [.inside p (.declared name ⟨.parameter, false⟩)]

def inspectOther (kind : SymbolKind) (p : Point) (d : IdentDef) : List Inspection :=
  [.inside p (.declared d.name ⟨kind, d.exported⟩)]

def inspectImported (p : Point) (name : String) : List Inspection :=
  [.inside p (.declared name ⟨.module, false⟩)]

def inspectConstant (p : Point) (d : ConstDeclaration) : List Inspection :=
  [.inside p (.value d.value), .inside p (.declared d.name.name ⟨.constant, d.name.exported⟩)]

/-! ### Parameters -/

def parameterSection (p : Point) (s : ParameterSection) : Point :=
  s.names.foldl parameter p

def inspectSection (p : Point) (s : ParameterSection) : List Inspection :=
  p.along parameter inspectParameter s.names ++
    [.inside (p.parameterSection s) (.typeName s.type.name)]

def parameters (p : Point) (f : FormalParameters) : Point :=
  f.sections.foldl parameterSection p

def inspectParameters (p : Point) (f : FormalParameters) : List Inspection :=
  p.along parameterSection inspectSection f.sections ++
    f.result.toList.map fun q => .inside (p.parameters f) (.typeName q)

def enterProcedureType (p : Point) : Point :=
  ⟨p.env.enterProcedureType, p.ctx.push⟩

def enterProcedure (p : Point) (h : ProcedureHeading) : Point :=
  ⟨p.env.enterProcedure h.name.name h.parameterNames, p.ctx.push⟩

def heading (p : Point) (h : ProcedureHeading) : Point :=
  h.parameters.toList.foldl parameters (p.enterProcedure h)

/-! ### Types -/

def inspectType (here later : Point) : TypeExpr → List Inspection
  | .named q => [.inside here (.typeName q)]
  | .array lengths _ => lengths.map fun e => .inside here (.length e)
  | .record base fields =>
    (base.toList.map fun q => .inside here (.typeName q)) ++ [.inside here (.fields fields)]
  | .pointer (.named q) => [⟨.target q, here, later⟩]
  | .pointer _ => []
  | .procedure f => here.enterProcedureType.along parameters inspectParameters f.toList

def inspectTypes (here later : Point) (t : TypeExpr) : List Inspection :=
  t.subtypes.flatMap (here.inspectType later)

/-! ### Declarations -/

def type (p : Point) (d : TypeDeclaration) : Point :=
  p.other .type d.name

/-- A pointer target that means nothing here is looked up at the end of the section. -/
def inspectDeclaredType (later here : Point) (d : TypeDeclaration) : List Inspection :=
  here.inspectTypes later d.type ++ here.inspectOther .type d.name

def vars (p : Point) (d : VariableDeclaration) : Point :=
  d.names.foldl (other .variable) p

def inspectVariables (p : Point) (d : VariableDeclaration) : List Inspection :=
  p.along (other .variable) (inspectOther .variable) d.names ++
    (p.vars d).inspectTypes (p.vars d) d.type

def procedure (p : Point) (d : ProcedureDeclaration) : Point :=
  p.other .procedure d.heading.name

def inspectProcedure (p : Point) (d : ProcedureDeclaration) : List Inspection :=
  p.inspectOther .procedure d.heading.name

def afterConstants (p : Point) (d : Declarations) : Point :=
  d.constants.foldl constant p

def afterTypes (p : Point) (d : Declarations) : Point :=
  d.types.foldl type (p.afterConstants d)

def afterVariables (p : Point) (d : Declarations) : Point :=
  d.vars.foldl vars (p.afterTypes d)

def afterAll (p : Point) (d : Declarations) : Point :=
  d.procedures.foldl procedure (p.afterVariables d)

def inspectTypeSection (p : Point) (ds : List TypeDeclaration) : List Inspection :=
  p.along type (inspectDeclaredType (ds.foldl type p)) ds

/-- The inspections of declarations, apart from the inside of the procedures. -/
def inspectDeclarations (p : Point) (d : Declarations) : List Inspection :=
  p.along constant inspectConstant d.constants ++
    (p.afterConstants d).inspectTypeSection d.types ++
    (p.afterTypes d).along vars inspectVariables d.vars ++
    (p.afterVariables d).along procedure inspectProcedure d.procedures

end Point

/-! ## Sites -/

/-- The module or a procedure in it, at the point where it stands. -/
inductive Site where
  | module (m : Module)
  | procedure (outer : Point) (p : ProcedureDeclaration)

namespace Site

def block : Site → Block
  | module m => .module m
  | procedure outer p => .procedure outer.ctx p

def opening : Site → Point
  | module m => ⟨initial.enterModule m.name, Context.predeclared.push⟩
  | procedure outer p => outer.enterProcedure p.heading

def start : Site → Point
  | module m => (m.imports.getD []).foldl Point.imported (opening (module m))
  | procedure outer p => outer.heading p.heading

def inspectOpening : Site → List Inspection
  | module m => (opening (module m)).along Point.imported Point.inspectImported (m.imports.getD [])
  | procedure outer p =>
    (outer.enterProcedure p.heading).along Point.parameters Point.inspectParameters
      p.heading.parameters.toList

def inspectEnd (s : Site) : List Inspection :=
  let p := s.start.afterAll s.block.declarations
  match s with
  | module m => [.inside p (.closing .module m.name m.endName)]
  | procedure _ d =>
    [.inside p (.result d.heading d.result),
      .inside p (.closing .procedure d.heading.name.name d.endName)]

def inspectTypeSection (s : Site) : List Inspection :=
  (s.start.afterConstants s.block.declarations).inspectTypeSection s.block.declarations.types

def inspections (s : Site) : List Inspection :=
  s.inspectOpening ++ s.start.inspectDeclarations s.block.declarations ++ s.inspectEnd

end Site

mutual

def Declarations.sites (p : Point) : Declarations → List Site
  | ⟨constants, types, vars, procedures⟩ =>
    ProcedureDeclaration.allSites (p.afterVariables ⟨constants, types, vars, []⟩) procedures

def ProcedureDeclaration.sites (outer : Point) : ProcedureDeclaration → List Site
  | ⟨heading, declarations, result, endName⟩ =>
    .procedure outer ⟨heading, declarations, result, endName⟩ ::
      declarations.sites (outer.heading heading)

/-- Several procedures and those inside them; the name of a procedure is declared in front of it. -/
def ProcedureDeclaration.allSites (p : Point) : List ProcedureDeclaration → List Site
  | [] => []
  | d :: ds => d.sites (p.procedure d) ++ ProcedureDeclaration.allSites (p.procedure d) ds

end

def Module.sites (m : Module) : List Site :=
  .module m :: m.declarations.sites (Site.module m).start

def Module.inspections (m : Module) : List Inspection :=
  m.sites.flatMap Site.inspections

/-! ## What is inspected -/

mutual

/-- The procedures are the blocks of the module, at other points. -/
theorem Declarations.map_declarations_sites (d : Declarations) (p : Point) (ctx : Context) :
    (d.sites p).map (fun s => s.block.declarations) = (d.blocks ctx).map Block.declarations := by
  match d with
  | ⟨constants, types, vars, procedures⟩ =>
    rw [Declarations.sites, Declarations.blocks]
    exact ProcedureDeclaration.map_declarations_allSites procedures _ _

theorem ProcedureDeclaration.map_declarations_sites (d : ProcedureDeclaration) (p : Point)
    (ctx : Context) :
    (d.sites p).map (fun s => s.block.declarations) = (d.allBlocks ctx).map Block.declarations := by
  match d with
  | ⟨heading, declarations, result, endName⟩ =>
    rw [ProcedureDeclaration.sites, ProcedureDeclaration.allBlocks, List.map_cons, List.map_cons,
      declarations.map_declarations_sites]
    rfl

theorem ProcedureDeclaration.map_declarations_allSites (ds : List ProcedureDeclaration) (p : Point)
    (ctx : Context) :
    (ProcedureDeclaration.allSites p ds).map (fun s => s.block.declarations) =
      (ProcedureDeclaration.blocks ctx ds).map Block.declarations := by
  match ds with
  | [] =>
    rw [ProcedureDeclaration.allSites, ProcedureDeclaration.blocks, List.map_nil, List.map_nil]
  | d :: ds =>
    rw [ProcedureDeclaration.allSites, ProcedureDeclaration.blocks, List.map_append,
      List.map_append, d.map_declarations_sites _ (ctx.declareProcedure d),
      ProcedureDeclaration.map_declarations_allSites ds _ (ctx.declareProcedure d)]

end

/-- The sites of a module have the declarations of its blocks. -/
theorem Module.map_declarations_sites (m : Module) :
    m.sites.map (fun s => s.block.declarations) = m.blocks.map Block.declarations := by
  rw [Module.sites, Module.blocks, List.map_cons, List.map_cons,
    m.declarations.map_declarations_sites]
  rfl

namespace Point

variable {α β : Type} {step : Point → α → Point} {inspect : Point → α → List Inspection}
  {select : Inspection → Option β}

/-- What is selected from the inspections of items is selected item by item. -/
theorem filterMap_along {parts : α → List β} (h : ∀ p x, (inspect p x).filterMap select = parts x)
    (p : Point) (xs : List α) : (p.along step inspect xs).filterMap select = xs.flatMap parts := by
  induction xs generalizing p with
  | nil => rfl
  | cons x xs ih =>
    have hsplit : p.along step inspect (x :: xs) =
        inspect p x ++ (step p x).along step inspect xs :=
      List.flatMap_cons
    rw [hsplit, List.filterMap_append, h, ih, List.flatMap_cons]

theorem filterMap_along_eq_nil (h : ∀ p x, (inspect p x).filterMap select = []) (p : Point)
    (xs : List α) : (p.along step inspect xs).filterMap select = [] := by
  rw [filterMap_along h]
  exact List.flatMap_eq_nil_iff.mpr fun _ _ => rfl

/-- Neither the names of parameters nor those of their types are selected. -/
theorem filterMap_parameters
    (hname : ∀ p name symbol, select (.inside p (.declared name symbol)) = none)
    (htype : ∀ p q, select (.inside p (.typeName q)) = none) (p : Point)
    (fs : List FormalParameters) :
    (p.along parameters inspectParameters fs).filterMap select = [] := by
  have hsection (p : Point) (s : ParameterSection) :
      (p.inspectSection s).filterMap select = [] := by
    rw [inspectSection, List.filterMap_append, filterMap_along_eq_nil, List.nil_append]
    · exact List.filterMap_cons_none (htype _ _)
    · exact fun p name => List.filterMap_cons_none (hname p name _)
  refine filterMap_along_eq_nil (fun p f => ?_) p fs
  rw [inspectParameters, List.filterMap_append, filterMap_along_eq_nil hsection, List.nil_append,
    List.filterMap_map]
  exact List.filterMap_eq_nil_iff.mpr fun q _ => htype _ q

end Point

end Oberon
