import Oberon.Constant.Evaluator

/-!
# What names mean at a point of a module

A context is the declarative counterpart of an environment: the meanings of the names that have
been declared up to a point, scope by scope.  Declarations only ever add to it, whether they are
allowed or not, and nothing is reported.
-/

namespace Oberon

/-! ## Scopes of other things -/

namespace Scopes

variable {α β : Type}

def map (f : α → β) (s : Scopes α) : Scopes β where
  inner := s.inner.map fun scope => scope.map fun (name, x) => (name, f x)
  outermost := s.outermost.map fun (name, x) => (name, f x)

theorem lookup_map (f : α → β) (scope : Scope α) (name : String) :
    List.lookup name (scope.map fun (name, x) => (name, f x)) = (scope.lookup name).map f := by
  induction scope with
  | nil => rfl
  | cons binding scope ih =>
    obtain ⟨other, x⟩ := binding
    rw [List.map_cons, lookup_cons, lookup_cons, ih]
    by_cases h : name = other <;> simp [h]

@[simp]
theorem find?_map (f : α → β) (s : Scopes α) (name : String) :
    (s.map f).find? name = (s.find? name).map f := by
  have hinner (inner : List (Scope α)) :
      (inner.map fun scope => scope.map fun (name, x) => (name, f x)).findSome? (List.lookup name) =
        (inner.findSome? (List.lookup name)).map f := by
    induction inner with
    | nil => rfl
    | cons scope inner ih =>
      rw [List.map_cons, List.findSome?_cons, List.findSome?_cons, lookup_map, ih]
      cases List.lookup name scope <;> rfl
  unfold find? map
  rw [hinner, lookup_map]
  cases s.inner.findSome? (List.lookup name) <;> rfl

@[simp]
theorem isLocal_map (f : α → β) (s : Scopes α) (name : String) :
    (s.map f).isLocal name = s.isLocal name := by
  have hinnermost : (s.map f).innermost = s.innermost.map fun (name, x) => (name, f x) := by
    obtain ⟨inner, outermost⟩ := s
    cases inner <;> rfl
  rw [isLocal, isLocal, hinnermost, lookup_map, Option.isSome_map]

@[simp]
theorem level_map (f : α → β) (s : Scopes α) : (s.map f).level = s.level := by
  rw [level, level, map, List.length_map]

theorem map_push (f : α → β) (s : Scopes α) : s.push.map f = (s.map f).push :=
  rfl

theorem map_bind (f : α → β) (s : Scopes α) (name : String) (x : α) :
    (s.bind name x).map f = (s.map f).bind name (f x) := by
  obtain ⟨inner, outermost⟩ := s
  cases inner <;> rfl

/-- A binding adds its name to the innermost scope. -/
@[simp]
theorem isLocal_bind (s : Scopes α) (name other : String) (x : α) :
    (s.bind name x).isLocal other = (decide (other = name) || s.isLocal other) := by
  have hinnermost : (s.bind name x).innermost = (name, x) :: s.innermost := by
    obtain ⟨inner, outermost⟩ := s
    cases inner <;> rfl
  rw [isLocal, isLocal, hinnermost, lookup_cons]
  by_cases h : other = name <;> simp [h]

end Scopes

/-! ## Contexts -/

/-- What a name stands for.  The value is that of a constant; one whose expression fails has
none. -/
structure Meaning where
  kind : SymbolKind
  value : Option Value

abbrev Context :=
  Scopes Meaning

namespace Context

def predeclared : Context where
  inner := []
  outermost :=
    Predeclared.types.map (fun name => (name, ⟨.type, none⟩)) ++
      [("TRUE", ⟨.constant, some (.boolean true)⟩), ("FALSE", ⟨.constant, some (.boolean false)⟩)]

def declare (kind : SymbolKind) (ctx : Context) (name : String) : Context :=
  ctx.bind name ⟨kind, none⟩

def declareAll (kind : SymbolKind) (ctx : Context) (names : List String) : Context :=
  names.foldl (declare kind) ctx

def evaluate (ctx : Context) (e : Expression) : Result :=
  Constants.evaluate (ctx.map Meaning.value) e

def declareConstant (ctx : Context) (d : ConstDeclaration) : Context :=
  ctx.bind d.name.name ⟨.constant, (ctx.evaluate d.value).toOption⟩

def declareType (ctx : Context) (d : TypeDeclaration) : Context :=
  ctx.declare .type d.name.name

def declareVariables (ctx : Context) (d : VariableDeclaration) : Context :=
  ctx.declareAll .variable d.variableNames

def declareProcedure (ctx : Context) (p : ProcedureDeclaration) : Context :=
  ctx.declare .procedure p.heading.name.name

def declareSection (ctx : Context) (s : ParameterSection) : Context :=
  ctx.declareAll .parameter s.names

def places {α : Type} (declare : Context → α → Context) : Context → List α → List (Context × α)
  | _, [] => []
  | ctx, x :: xs => (ctx, x) :: places declare (declare ctx x) xs

/-! ## New names -/

/-- The names can be declared one after the other: none of them is empty, is there already in the
innermost scope, or comes twice. -/
structure Fresh (ctx : Context) (names : List String) : Prop where
  isLocal : ∀ name ∈ names, ctx.isLocal name = false
  nodup : names.Nodup
  nonempty : ∀ name ∈ names, name ≠ ""

/-- Declared names are local, next to those that were. -/
theorem isLocal_declareAll (kind : SymbolKind) (ctx : Context) (names : List String)
    (name : String) :
    (ctx.declareAll kind names).isLocal name = (decide (name ∈ names) || ctx.isLocal name) := by
  induction names generalizing ctx with
  | nil => simp [declareAll]
  | cons other names ih =>
    rw [declareAll, List.foldl_cons, ← declareAll, ih, declare, Scopes.isLocal_bind]
    by_cases h : name = other <;> simp [h]

theorem level_declareAll (kind : SymbolKind) (ctx : Context) (names : List String) :
    (ctx.declareAll kind names).level = ctx.level := by
  induction names generalizing ctx with
  | nil => rfl
  | cons other names ih =>
    rw [declareAll, List.foldl_cons, ← declareAll, ih, declare, Scopes.level_bind]

theorem fresh_nil (ctx : Context) : ctx.Fresh [] :=
  ⟨nofun, .nil, nofun⟩

/-- One name can be declared if it is not empty and not local. -/
theorem fresh_singleton {ctx : Context} {name : String} :
    ctx.Fresh [name] ↔ name ≠ "" ∧ ctx.isLocal name = false := by
  constructor
  · intro h
    exact ⟨h.nonempty name List.mem_cons_self, h.isLocal name List.mem_cons_self⟩
  · rintro ⟨hname, hlocal⟩
    exact ⟨List.forall_mem_singleton.mpr hlocal, List.nodup_cons.mpr ⟨nofun, .nil⟩,
      List.forall_mem_singleton.mpr hname⟩

/-- More names can be declared behind those that are declared already. -/
theorem fresh_append {ctx ctx' : Context} {names others : List String}
    (h : ∀ name, ctx'.isLocal name = (decide (name ∈ names) || ctx.isLocal name)) :
    ctx.Fresh (names ++ others) ↔ ctx.Fresh names ∧ ctx'.Fresh others := by
  constructor
  · rintro ⟨hlocal, hnodup, hnonempty⟩
    rw [List.forall_mem_append] at hlocal hnonempty
    rw [List.nodup_append] at hnodup
    obtain ⟨hnames, hothers, hapart⟩ := hnodup
    refine ⟨⟨hlocal.1, hnames, hnonempty.1⟩, fun name hname => ?_, hothers, hnonempty.2⟩
    have hnew : name ∉ names := fun hmem => hapart name hmem name hname rfl
    rw [h, hlocal.2 name hname, decide_eq_false hnew]
    rfl
  · rintro ⟨hfirst, hsecond⟩
    have hapart : ∀ name ∈ others, name ∉ names ∧ ctx.isLocal name = false := by
      intro name hname
      have hlocal := hsecond.isLocal name hname
      rw [h, Bool.or_eq_false_iff, decide_eq_false_iff_not] at hlocal
      exact hlocal
    refine ⟨?_, ?_, List.forall_mem_append.mpr ⟨hfirst.nonempty, hsecond.nonempty⟩⟩
    · exact List.forall_mem_append.mpr ⟨hfirst.isLocal, fun name hname => (hapart name hname).2⟩
    · refine List.nodup_append.mpr ⟨hfirst.nodup, hsecond.nodup, ?_⟩
      rintro name hname other hother rfl
      exact (hapart name hother).1 hname

/-- Names that can be declared item by item can be declared in one go. -/
theorem fresh_places {α : Type} {declare : Context → α → Context} {namesOf : α → List String}
    (hdeclare : ∀ ctx x name,
      (declare ctx x).isLocal name = (decide (name ∈ namesOf x) || ctx.isLocal name))
    (ctx : Context) (xs : List α) :
    (∀ place ∈ ctx.places declare xs, place.1.Fresh (namesOf place.2)) ↔
      ctx.Fresh (xs.flatMap namesOf) := by
  induction xs generalizing ctx with
  | nil => exact ⟨fun _ => fresh_nil ctx, nofun⟩
  | cons x xs ih =>
    rw [places, List.forall_mem_cons, ih, List.flatMap_cons, fresh_append (hdeclare ctx x)]

/-- Declaring items one by one makes the names of all of them local. -/
theorem isLocal_foldl {α : Type} {declare : Context → α → Context} {namesOf : α → List String}
    (hdeclare : ∀ ctx x name,
      (declare ctx x).isLocal name = (decide (name ∈ namesOf x) || ctx.isLocal name))
    (ctx : Context) (xs : List α) (name : String) :
    (xs.foldl declare ctx).isLocal name =
      (decide (name ∈ xs.flatMap namesOf) || ctx.isLocal name) := by
  induction xs generalizing ctx with
  | nil => simp
  | cons x xs ih =>
    rw [List.foldl_cons, ih, hdeclare, List.flatMap_cons]
    by_cases h : name ∈ namesOf x <;> simp [h]

end Context

end Oberon
