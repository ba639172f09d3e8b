import Oberon.Proofs.Check.ModuleAgreement
import Oberon.Proofs.Check.Names
import Oberon.Proofs.Check.Points

/-!
# Problems with names

A name may be undeclared, declared already, or of a module that is not imported.  Such problems
are counted on two sides: among the findings of the checker, and among the uses and the scopes of
a module.  The counts meet in environments that see the same names as the context.  A declaration
that is refused makes no difference there, because its name was there before.
-/

namespace Oberon

open Environment

/-! ## Uses and scopes -/

def Use.among (c : Context × Expression) : List Use :=
  c.2.names.map (.inside c.1)

/-- What is wrong with a used name: its module is not imported, or it stands for nothing. -/
def Use.problem? (imports : List String) (u : Use) : Option Problem :=
  match u.name.qualifier with
  | some qualifier => if qualifier ∈ imports then none else some (.notImported u.name qualifier)
  | none => if u.kind?.isSome then none else some (.undeclared u.name.name)

namespace Block

/-- All uses of names: in type positions, results, constants and array lengths. -/
def uses (b : Block) : List Use :=
  b.typeUses ++ b.resultUses ++ (b.constantValues ++ b.lengths).flatMap Use.among

/-- The names that are declared in each scope: that of the block, and those of the parameters of
its types. -/
def scopes (b : Block) : List (List String) :=
  b.names :: b.typePlaces.map TypePlace.parameterNames

end Block

/-! ## Repeated names -/

theorem repetitions_congr {seen seen' : List String} (h : ∀ name, name ∈ seen ↔ name ∈ seen')
    (names : List String) : repetitions seen names = repetitions seen' names := by
  induction names generalizing seen seen' with
  | nil => rfl
  | cons name names ih =>
    have hcons (other : String) : other ∈ name :: seen ↔ other ∈ name :: seen' := by
      rw [List.mem_cons, List.mem_cons, h]
    rw [repetitions, repetitions, ih h, ih hcons]
    simp only [h]

/-- Names behind others are repeated if they are among those as well. -/
theorem repetitions_append (seen names others : List String) :
    repetitions seen (names ++ others) =
      repetitions seen names ++ repetitions (names ++ seen) others := by
  induction names generalizing seen with
  | nil => rfl
  | cons name names ih =>
    rw [List.cons_append, repetitions, repetitions]
    by_cases hmem : name ∈ seen
    · have hseen (other : String) : other ∈ names ++ seen ↔
          other ∈ name :: names ++ seen := by grind
      rw [if_pos hmem, if_pos hmem, ih, repetitions_congr hseen]
      rfl
    · have hseen (other : String) : other ∈ names ++ name :: seen ↔
          other ∈ name :: names ++ seen := by
        grind
      rw [if_neg hmem, if_neg hmem, ih, repetitions_congr hseen]

/-- A name is repeated at each place but its first, or at each if it was seen before. -/
theorem count_repetitions (name : String) (seen names : List String) :
    (repetitions seen names).count name =
      if name ∈ seen then names.count name else names.count name - 1 := by
  induction names generalizing seen with
  | nil => simp [repetitions]
  | cons other names ih =>
    rw [repetitions]
    by_cases hmem : other ∈ seen <;> by_cases hname : other = name
    · subst hname
      simp [hmem, ih]
    · rw [if_pos hmem, List.count_cons_of_ne hname, List.count_cons_of_ne hname, ih]
    · subst hname
      simp [hmem, ih]
    · rw [if_neg hmem, List.count_cons_of_ne hname, ih]
      simp [Ne.symm hname]

/-! ## Counting -/

/-- The problem is that a name is undeclared, declared already, or of a module that is not
imported. -/
def Problem.isAboutName : Problem → Bool
  | undeclared _ => true
  | alreadyDeclared _ => true
  | notImported _ _ => true
  | _ => false

structure Selection where
  test : Problem → Bool
  isAboutName : ∀ problem, test problem = true → problem.isAboutName = true

namespace Selection

variable (sel : Selection)

def findings (fs : List Finding) : Nat :=
  fs.countP fun f => sel.test f.problem

/-- How many uses have a selected problem. -/
def uses (imports : List String) (us : List Use) : Nat :=
  us.countP fun u => (u.problem? imports).any sel.test

/-- How many of the names are repeated, of those whose repetition is selected. -/
def repeated (seen names : List String) : Nat :=
  (repetitions seen names).countP fun name => sel.test (.alreadyDeclared name)

def place (imports : List String) (place : TypePlace) : Nat :=
  sel.uses imports place.uses + sel.uses imports (place.lengths.flatMap Use.among) +
    sel.repeated [] place.parameterNames

def places (imports : List String) (ps : List TypePlace) : Nat :=
  (ps.map (sel.place imports)).sum

def block (imports : List String) (b : Block) : Nat :=
  sel.uses imports b.uses + (b.scopes.map (sel.repeated [])).sum

def blocks (imports : List String) (bs : List Block) : Nat :=
  (bs.map (sel.block imports)).sum

theorem test_eq_false {problem : Problem} (h : problem.isAboutName = false) :
    sel.test problem = false := by
  by_contra htest
  rw [Bool.not_eq_false] at htest
  exact Bool.noConfusion (h.symm.trans (sel.isAboutName problem htest))

theorem countP_singleton {problem : Problem} (h : problem.isAboutName = false) :
    [problem].countP sel.test = 0 := by
  rw [List.countP_singleton, sel.test_eq_false h]
  rfl

/-- Selected findings of two lists add up. -/
@[simp]
theorem findings_append (fs gs : List Finding) :
    sel.findings (fs ++ gs) = sel.findings fs + sel.findings gs :=
  List.countP_append

@[simp]
theorem findings_report (env : Environment) (problems : List Problem) :
    sel.findings (env.report problems) = problems.countP sel.test := by
  rw [findings, report, List.countP_map]
  rfl

/-- Selected uses of two lists add up. -/
@[simp]
theorem uses_append (imports : List String) (us vs : List Use) :
    sel.uses imports (us ++ vs) = sel.uses imports us + sel.uses imports vs :=
  List.countP_append

/-- Repeated names of two lists, where the second one sees the first. -/
theorem repeated_append (seen names others : List String) : sel.repeated seen (names ++ others) =
    sel.repeated seen names + sel.repeated (names ++ seen) others := by
  rw [repeated, repetitions_append, List.countP_append]
  rfl

theorem places_cons (imports : List String) (place : TypePlace) (ps : List TypePlace) :
    sel.places imports (place :: ps) = sel.place imports place + sel.places imports ps :=
  List.sum_cons

theorem places_append (imports : List String) (ps qs : List TypePlace) :
    sel.places imports (ps ++ qs) = sel.places imports ps + sel.places imports qs := by
  rw [places, List.map_append, List.sum_append]
  rfl

theorem places_flatMap {α : Type} (imports : List String) (f : α → List TypePlace) (xs : List α) :
    sel.places imports (xs.flatMap f) = (xs.map fun x => sel.places imports (f x)).sum := by
  induction xs with
  | nil => rfl
  | cons x xs ih => rw [List.flatMap_cons, places_append, ih, List.map_cons, List.sum_cons]

/-- Selected uses of a collection are the sum over its members. -/
theorem uses_flatMap {α : Type} (imports : List String) (f : α → List Use) (xs : List α) :
    sel.uses imports (xs.flatMap f) = (xs.map fun x => sel.uses imports (f x)).sum :=
  List.countP_flatMap

/-- The problems of types by what they are about. -/
theorem places_eq (imports : List String) (ps : List TypePlace) : sel.places imports ps =
    sel.uses imports (ps.flatMap TypePlace.uses) +
      sel.uses imports ((ps.flatMap TypePlace.lengths).flatMap Use.among) +
      ((ps.map TypePlace.parameterNames).map (sel.repeated [])).sum := by
  induction ps with
  | nil => rfl
  | cons place ps ih =>
    rw [places_cons, Selection.place, ih, List.flatMap_cons, List.flatMap_cons, List.flatMap_append,
      uses_append, uses_append, List.map_cons, List.map_cons, List.sum_cons]
    omega

theorem blocks_cons (imports : List String) (b : Block) (bs : List Block) :
    sel.blocks imports (b :: bs) = sel.block imports b + sel.blocks imports bs :=
  List.sum_cons

theorem blocks_append (imports : List String) (bs cs : List Block) :
    sel.blocks imports (bs ++ cs) = sel.blocks imports bs + sel.blocks imports cs := by
  rw [blocks, List.map_append, List.sum_append]
  rfl

/-- The problems of blocks by what they are about. -/
theorem blocks_eq (imports : List String) (bs : List Block) : sel.blocks imports bs =
    sel.uses imports (bs.flatMap Block.uses) +
      ((bs.flatMap Block.scopes).map (sel.repeated [])).sum := by
  induction bs with
  | nil => rfl
  | cons b bs ih =>
    rw [blocks_cons, block, ih, List.flatMap_cons, List.flatMap_cons, uses_append, List.map_append,
      List.sum_append]
    omega

end Selection

/-! ## Environments that see the same names -/

theorem Scopes.isSome_find?_of_isLocal {α : Type} {s : Scopes α} {name : String}
    (h : s.isLocal name = true) : (s.find? name).isSome = true := by
  obtain ⟨inner, outermost⟩ := s
  cases inner with
  | nil => exact h
  | cons scope inner =>
    obtain ⟨x, hx⟩ := Option.isSome_iff_exists.mp h
    have hlookup : List.lookup name scope = some x := hx
    rw [find?, List.findSome?_cons, hlookup]
    rfl

/-- The environment has the names of the context, those of the innermost scope among them, and
these imports.  What the names stand for may differ. -/
structure Sees (imports seen : List String) (env : Environment) (ctx : Context) : Prop where
  isLocal : ∀ name, env.symbols.isLocal name = true ↔ name ∈ seen
  find? : ∀ name, (env.symbols.find? name).isSome = (ctx.find? name).isSome
  imports : env.imports = imports

section Sees

variable {imports seen : List String} {env : Environment} {ctx : Context}

theorem Sees.congr {seen' : List String} (h : Sees imports seen env ctx)
    (hseen : ∀ name, name ∈ seen ↔ name ∈ seen') : Sees imports seen' env ctx :=
  ⟨fun name => (h.isLocal name).trans (hseen name), h.find?, h.imports⟩

/-- A new scope has no names of its own. -/
theorem Sees.push {inner : Environment} (h : Sees imports seen env ctx)
    (hsymbols : inner.symbols = env.symbols.push) (himports : inner.imports = env.imports) :
    Sees imports [] inner ctx.push := by
  refine ⟨fun name => ?_, fun name => ?_, himports.trans h.imports⟩
  · rw [hsymbols]
    exact ⟨fun hlocal => Bool.noConfusion hlocal, fun hmem => nomatch hmem⟩
  · rw [hsymbols, Scopes.find?_push, Scopes.find?_push, h.find?]

/-- A second declaration of a name is in the context, but not in the environment; the name is in
both. -/
theorem Sees.declare (h : Sees imports seen env ctx) {name : String} (hname : name ≠ "")
    (symbol : Symbol)
    (binding : Option (Option Value)) (m : Meaning) :
    Sees imports (name :: seen) (env.declare name symbol binding).1 (ctx.bind name m) := by
  rw [declare_fst_eq]
  -- a name that is there already is refused, which the context does not notice
  by_cases hlocal : env.symbols.isLocal name = true
  · have hmem := (h.isLocal name).mp hlocal
    rw [if_pos (.inr hlocal)]
    refine ⟨fun other => ?_, fun other => ?_, h.imports⟩
    · rw [h.isLocal, List.mem_cons, or_iff_right_of_imp fun hother => hother ▸ hmem]
    · rw [Scopes.find?_bind]
      by_cases hother : other = name
      · rw [if_pos hother, hother, Scopes.isSome_find?_of_isLocal hlocal]
        rfl
      · rw [if_neg hother, h.find?]
  · rw [if_neg (not_or.mpr ⟨hname, hlocal⟩)]
    refine ⟨fun other => ?_, fun other => ?_, h.imports⟩
    · show (env.symbols.bind name symbol).isLocal other = true ↔ _
      rw [Scopes.isLocal_bind, Bool.or_eq_true, decide_eq_true_iff, h.isLocal, List.mem_cons]
    · show ((env.symbols.bind name symbol).find? other).isSome = _
      rw [Scopes.find?_bind, Scopes.find?_bind]
      by_cases hother : other = name
      · rw [if_pos hother, if_pos hother]
        rfl
      · rw [if_neg hother, if_neg hother, h.find?]

end Sees

/-! ## References -/

section References

variable {imports seen : List String} {env : Environment} {ctx later : Context} (sel : Selection)

/-- A name of the wrong kind is a problem, but not one of those counted. -/
theorem resolveSymbol_isAboutName (env : Environment) (role : Role) (name : String)
    (kind : SymbolKind) :
    ∀ problem ∈ (env.resolveSymbol role name kind).problem?, problem.isAboutName = false := by
  by_cases hvalue : env.hasValue name = true <;> cases role <;> cases kind <;>
    simp [resolveSymbol, hvalue, Resolution.problem?, Problem.isAboutName]

/-- What a name should denote plays no part here. -/
theorem Sees.any_problem? (h : Sees imports seen env ctx) (role : Role) (q : Qualident) :
    (env.resolve role q).problem?.any sel.test =
      ((Use.inside ctx q).problem? imports).any sel.test := by
  have hkind : (Use.inside ctx q).kind?.isSome = (env.symbols.find? q.name).isSome := by
    rw [inside_kind?, Option.isSome_map, h.find?]
  have hname : (Use.inside ctx q).name = q := rfl
  rw [Use.problem?, resolve, hname, hkind, h.imports]
  cases q.qualifier with
  | some qualifier =>
    dsimp only
    by_cases hmem : qualifier ∈ imports
    · rw [if_neg (not_not.mpr hmem), if_pos hmem]
      -- an imported constant has a problem of another kind, which is not selected
      by_cases hrole : role = .constant
      · rw [if_pos hrole]
        exact sel.test_eq_false rfl
      · rw [if_neg hrole]
        rfl
    · rw [if_pos hmem, if_neg hmem]
      rfl
  | none =>
    dsimp only
    cases env.symbols.find? q.name with
    | none => rfl
    | some symbol =>
      dsimp only
      have hproblem := resolveSymbol_isAboutName env role q.name symbol.kind
      cases hresolved : (env.resolveSymbol role q.name symbol.kind).problem? with
      | none => rfl
      | some problem => exact sel.test_eq_false (hproblem problem hresolved)

/-- References have as many selected problems as their uses. -/
theorem Sees.references (h : Sees imports seen env ctx) (role : Role) (names : List Qualident) :
    (env.referenceProblems role names).countP sel.test =
      sel.uses imports (names.map (.inside ctx)) := by
  rw [referenceProblems, List.countP_filterMap, Selection.uses, List.countP_map]
  refine List.countP_congr fun q _ => ?_
  have hany := h.any_problem? sel role q
  simp only [Function.comp_apply, ← hany]
  cases (env.resolve role q).problem? <;> simp

theorem Sees.findings_references (h : Sees imports seen env ctx) (role : Role)
    (names : List Qualident) :
    sel.findings (env.report (env.referenceProblems role names)) =
      sel.uses imports (names.map (.inside ctx)) :=
  (sel.findings_report env _).trans (h.references sel role names)

/-- A constant expression has as many selected problems as the names in it. -/
theorem Sees.constantValue (h : Sees imports seen env ctx) (e : Expression) :
    (env.constantValue e).1.countP sel.test = sel.uses imports (Use.among (ctx, e)) := by
  rw [Use.among, ← h.references sel .constant, Environment.constantValue]
  by_cases hknown : e.names.all fun q => env.resolve .constant q = .known
  · have hnone : env.referenceProblems .constant e.names = [] := by
      refine referenceProblems_eq_nil.mpr fun q hq => ?_
      rw [of_decide_eq_true (List.all_eq_true.mp hknown q hq)]
      rfl
    rw [if_pos hknown, hnone]
    cases env.constants.evaluate e with
    | ok value => rfl
    | error error => exact sel.countP_singleton rfl
  · rw [if_neg hknown]

/-- A length has as many selected problems as the names in it. -/
theorem Sees.lengthProblems (h : Sees imports seen env ctx) (e : Expression) :
    (env.lengthProblems e).countP sel.test = sel.uses imports (Use.among (ctx, e)) := by
  rw [← h.constantValue sel e, Environment.lengthProblems]
  dsimp only
  rw [List.countP_append, Nat.add_eq_left]
  have hlength (value : Value) : [Problem.invalidLength value].countP sel.test = 0 :=
    sel.countP_singleton rfl
  split
  next => rfl
  next => split <;> simp [hlength]
  next => exact hlength _

theorem Sees.lengths (h : Sees imports seen env ctx) (es : List Expression) :
    (es.flatMap env.lengthProblems).countP sel.test =
      sel.uses imports ((es.map fun e => (ctx, e)).flatMap Use.among) := by
  rw [List.countP_flatMap, List.flatMap_map, sel.uses_flatMap]
  congr 1
  exact List.map_congr_left fun e _ => h.lengthProblems sel e

end References

end Oberon
