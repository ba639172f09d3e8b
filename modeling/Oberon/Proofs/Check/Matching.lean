import Mathlib.Data.List.Basic
import Oberon.Proofs.Check.Rules
import Oberon.Proofs.Syntax.Expressions

/-!
# Environments that match contexts

As long as nothing has been reported, the environment of the checker says the same as the context:
its symbols have the kinds of the meanings, and its constants have the values.  Declarations and
references can then be checked in either.
-/

namespace Oberon

/-! ## Expressions over constants that agree -/

-- The names that code loads are those of the expression.
def Instruction.loads : Instruction → List Qualident
  | .load q => [q]
  | _ => []

/-- Signs load no names. -/
theorem flatMap_loads_signCode (sign : Option Sign) :
    (signCode sign).flatMap Instruction.loads = [] := by
  cases sign <;> rfl

/-- Code loads the names of what it is the code of, in their order. -/
theorem compositional_loads : Compositional
    (fun e => e.code.flatMap Instruction.loads = e.names)
    (fun t => t.code.flatMap Instruction.loads = t.names)
    (fun f => f.code.flatMap Instruction.loads = f.names) where
  expression sign first operations hfirst hoperations := by
    rw [Expression.code, Expression.names, List.flatMap_append, List.flatMap_append,
      flatMap_loads_signCode, List.append_nil, hfirst, TermOperation.codes_eq_flatMap,
      TermOperation.allNames_eq_flatMap, List.flatMap_assoc]
    refine congrArg (first.names ++ ·) (List.flatMap_congr fun ⟨operator, right⟩ ho => ?_)
    rw [TermOperation.code, TermOperation.names, List.flatMap_append, hoperations _ ho]
    exact List.append_nil _
  term first operations hfirst hoperations := by
    rw [Term.code, Term.names, List.flatMap_append, hfirst, FactorOperation.codes_eq_flatMap,
      FactorOperation.allNames_eq_flatMap, List.flatMap_assoc]
    refine congrArg (first.names ++ ·) (List.flatMap_congr fun ⟨operator, right⟩ ho => ?_)
    rw [FactorOperation.code, FactorOperation.names, List.flatMap_append, hoperations _ ho]
    exact List.append_nil _
  number n := rfl
  string content := rfl
  name q := rfl
  parenthesized e he := by
    rw [Factor.code, Factor.names, he]

theorem Expression.loads_code (e : Expression) : e.code.flatMap Instruction.loads = e.names :=
  compositional_loads.expressions e

/-- A run depends on the constants only through the names that it loads. -/
theorem Machine.run_congr {constants constants' : Constants} {code : List Instruction}
    (h : ∀ q ∈ code.flatMap Instruction.loads, constants.valueOf q = constants'.valueOf q)
    (stack : Stack) : run constants code stack = run constants' code stack := by
  induction code generalizing stack with
  | nil => rfl
  | cons instruction code ih =>
    rw [List.flatMap_cons, List.forall_mem_append] at h
    have hstep : step constants stack instruction = step constants' stack instruction := by
      cases instruction with
      | load q => rw [step, step, h.1 q List.mem_cons_self]
      | _ => rfl
    unfold run at ih ⊢
    rw [List.foldlM_cons, List.foldlM_cons, hstep]
    congr 1
    funext stack
    exact ih h.2 stack

/-- An expression has one value over constants that agree on its names. -/
theorem Constants.evaluate_congr {constants constants' : Constants} {e : Expression}
    (h : ∀ q ∈ e.names, constants.valueOf q = constants'.valueOf q) :
    constants.evaluate e = constants'.evaluate e := by
  rw [← e.loads_code] at h
  rw [Constants.evaluate, Constants.evaluate, Machine.run_congr h]

theorem Machine.valueOf_of_step {constants : Constants} {stack stack' : Stack}
    {instruction : Instruction}
    (h : step constants stack instruction = .ok stack') :
    ∀ q ∈ instruction.loads, ∃ v, constants.valueOf q = .ok v := by
  cases instruction with
  | load q =>
    refine List.forall_mem_singleton.mpr ?_
    rw [step] at h
    cases hvalue : constants.valueOf q with
    | ok v => exact ⟨v, rfl⟩
    | error error =>
      rw [hvalue] at h
      cases h
  | _ => exact nofun

/-- A run that succeeds has found a value for every name that it loads. -/
theorem Machine.valueOf_of_run {constants : Constants} {code : List Instruction}
    {stack stack' : Stack}
    (h : run constants code stack = .ok stack') :
    ∀ q ∈ code.flatMap Instruction.loads, ∃ v, constants.valueOf q = .ok v := by
  induction code generalizing stack with
  | nil => exact nofun
  | cons instruction code ih =>
    unfold run at h ih
    rw [List.foldlM_cons] at h
    rw [List.flatMap_cons, List.forall_mem_append]
    cases hstep : step constants stack instruction with
    | error error =>
      rw [hstep] at h
      cases h
    | ok next =>
      rw [hstep] at h
      exact ⟨valueOf_of_step hstep, ih h⟩

/-- Nothing is skipped: an expression has a value only if all its names have one. -/
theorem Constants.valueOf_of_evaluate {constants : Constants} {e : Expression} {value : Value}
    (h : constants.evaluate e = .ok value) : ∀ q ∈ e.names, ∃ v, constants.valueOf q = .ok v := by
  rw [← e.loads_code]
  unfold Constants.evaluate at h
  split at h
  next hrun => exact Machine.valueOf_of_run hrun
  next => cases h
  next => cases h

/-! ## Values of constants -/

namespace Constants

theorem valueOf_congr {constants constants' : Constants} {name : String}
    (h : constants.find? name = constants'.find? name) :
    constants.valueOf ⟨none, name⟩ = constants'.valueOf ⟨none, name⟩ := by
  unfold valueOf
  rw [h]

theorem valueOf_of_find? {constants : Constants} {name : String} {v : Value}
    (h : constants.find? name = some (some v)) : constants.valueOf ⟨none, name⟩ = .ok v := by
  unfold valueOf
  rw [h]
  rfl

/-- Every constant of the context has a value, and it is the value here. -/
def Agree (constants : Constants) (ctx : Context) : Prop :=
  ∀ name m, ctx.find? name = some m → m.kind = .constant →
    ∃ v, m.value = some v ∧ constants.valueOf ⟨none, name⟩ = .ok v

variable {constants : Constants} {ctx : Context}

theorem Agree.push (h : constants.Agree ctx) : Agree constants.push ctx.push :=
  h

/-- A new binding keeps the agreement if it has the value of the context, or is no constant. -/
theorem Agree.bind (h : constants.Agree ctx) (name : String) {x : Option Value} {m : Meaning}
    (hm : m.kind = .constant → ∃ v, m.value = some v ∧ x = some v) :
    Agree (constants.bind name x) (ctx.bind name m) := by
  intro other m' hfind hkind
  rw [Scopes.find?_bind] at hfind
  by_cases hname : other = name
  · rw [if_pos hname] at hfind
    cases hfind
    obtain ⟨v, hvalue, rfl⟩ := hm hkind
    refine ⟨v, hvalue, valueOf_of_find? ?_⟩
    rw [Scopes.find?_bind, if_pos hname]
  · rw [if_neg hname] at hfind
    obtain ⟨v, hvalue, hother⟩ := h other m' hfind hkind
    refine ⟨v, hvalue, ?_⟩
    rw [← hother]
    apply valueOf_congr
    rw [Scopes.find?_bind, if_neg hname]

/-- Names that are no constants may be hidden. -/
theorem Agree.hideAll (h : constants.Agree ctx) {kind : SymbolKind} (hkind : kind ≠ .constant)
    (names : List String) : (constants.hideAll names).Agree (ctx.declareAll kind names) := by
  induction names generalizing constants ctx with
  | nil => exact h
  | cons name names ih => exact ih (h.bind name fun hconstant => absurd hconstant hkind)

/-- An expression that is made of constants has the same value on both sides. -/
theorem Agree.evaluate_eq (h : constants.Agree ctx) {e : Expression} (he : ctx.AllConstant e) :
    constants.evaluate e = ctx.evaluate e := by
  apply evaluate_congr
  intro q hq
  obtain ⟨hqualifier, hkind⟩ := he q hq
  obtain ⟨qualifier, name⟩ := q
  subst hqualifier
  cases hfind : ctx.find? name with
  | none =>
    rw [hfind] at hkind
    cases hkind
  | some m =>
    rw [hfind] at hkind
    obtain ⟨v, hvalue, hv⟩ := h name m hfind (Option.some.inj hkind)
    rw [hv]
    refine (valueOf_of_find? ?_).symm
    rw [Scopes.find?_map, hfind, Option.map_some, hvalue]

/-- The boolean constants are bound in the context only; the evaluator falls back on them. -/
theorem agree_predeclared : Agree .empty Context.predeclared := by
  intro name m hfind hkind
  by_cases htrue : name = "TRUE"
  · subst htrue
    cases hfind
    exact ⟨.boolean true, rfl, rfl⟩
  by_cases hfalse : name = "FALSE"
  · subst hfalse
    cases hfind
    exact ⟨.boolean false, rfl, rfl⟩
  · -- all other predeclared names are types
    exfalso
    rw [Scopes.find?, Context.predeclared, List.findSome?_nil, Option.none_or,
      List.lookup_append, Scopes.lookup_cons, if_neg htrue, Scopes.lookup_cons, if_neg hfalse,
      List.lookup_nil, Option.or_none] at hfind
    obtain ⟨before, behind, hlist, -⟩ := List.lookup_eq_some_iff.mp hfind
    have hmem : (name, m) ∈ before ++ (name, m) :: behind :=
      List.mem_append_right before List.mem_cons_self
    rw [← hlist] at hmem
    obtain ⟨_, _, htype⟩ := List.mem_map.mp hmem
    cases htype
    cases hkind

end Constants

/-! ## Environments -/

namespace Environment

/-- The environment knows the names of the context and these imports. -/
structure MatchesNames (imports : List String) (env : Environment) (ctx : Context) : Prop where
  symbols : env.symbols.map Symbol.kind = ctx.map Meaning.kind
  imports : env.imports = imports

/-- The environment knows the names and these imports, and has these constants, whatever the
context says of them.  So it is among the parameters of a procedure. -/
structure MatchesHeading (imports : List String) (constants : Constants) (env : Environment)
    (ctx : Context) : Prop extends MatchesNames imports env ctx where
  constants : env.constants = constants

structure Matches (imports : List String) (env : Environment) (ctx : Context) : Prop extends
    MatchesNames imports env ctx where
  constants : env.constants.Agree ctx

variable {imports : List String} {env : Environment} {ctx : Context}

/-- Look-ups find symbols of the same kinds on both sides. -/
theorem MatchesNames.kind (h : MatchesNames imports env ctx) (name : String) :
    (env.symbols.find? name).map Symbol.kind = (ctx.find? name).map Meaning.kind := by
  rw [← Scopes.find?_map, h.symbols, Scopes.find?_map]

theorem MatchesNames.isLocal (h : MatchesNames imports env ctx) (name : String) :
    env.symbols.isLocal name = ctx.isLocal name := by
  rw [← Scopes.isLocal_map Symbol.kind, h.symbols, Scopes.isLocal_map]

theorem MatchesNames.level (h : MatchesNames imports env ctx) : env.symbols.level = ctx.level := by
  rw [← Scopes.level_map Symbol.kind, h.symbols, Scopes.level_map]

theorem MatchesNames.push {inner : Environment} (h : MatchesNames imports env ctx)
    (hsymbols : inner.symbols = env.symbols.push) (himports : inner.imports = env.imports) :
    MatchesNames imports inner ctx.push := by
  refine ⟨?_, himports.trans h.imports⟩
  rw [hsymbols, Scopes.map_push, Scopes.map_push, h.symbols]

theorem report_eq_nil {problems : List Problem} : env.report problems = [] ↔ problems = [] :=
  List.map_eq_nil_iff

/-! ## Declaring -/

-- The environment behind a declaration that is allowed.
def bound (env : Environment) (name : String) (symbol : Symbol) (binding : Option (Option Value)) :
    Environment :=
  { env with
    symbols := env.symbols.bind name symbol
    constants := match binding with
      | some value => env.constants.bind name value
      | none => env.constants }

/-- An export mark is no problem at the level of a module. -/
theorem exportProblems_eq_nil {name : String} {exported : Bool} :
    env.exportProblems name exported = [] ↔
      (exported = true → env.symbols.level = moduleLevel) := by
  unfold exportProblems
  by_cases hlevel : env.symbols.level = moduleLevel <;> cases exported <;> simp [hlevel]

/-- A name is declared without findings exactly if it is new and its mark is allowed. -/
theorem MatchesNames.declare_eq_nil (h : MatchesNames imports env ctx) {name : String}
    {symbol : Symbol} {binding : Option (Option Value)} :
    (env.declare name symbol binding).2 = [] ↔
      ctx.Fresh [name] ∧ (symbol.exported = true → ctx.level = moduleLevel) := by
  rw [Context.fresh_singleton, ← h.isLocal, ← h.level, ← exportProblems_eq_nil]
  unfold declare SymbolTable.insert
  by_cases hempty : name = ""
  · simp [hempty, report]
  by_cases hlocal : env.symbols.isLocal name = true
  · simp [hempty, hlocal, report]
  · rw [if_neg hempty, if_neg hlocal]
    dsimp only
    rw [report_eq_nil, Bool.not_eq_true] at *
    exact ⟨fun hexport => ⟨⟨hempty, hlocal⟩, hexport⟩, fun hall => hall.2⟩

/-- A new name is bound. -/
theorem MatchesNames.declare_fst (h : MatchesNames imports env ctx) {name : String}
    {symbol : Symbol}
    {binding : Option (Option Value)} (hfresh : ctx.Fresh [name]) :
    (env.declare name symbol binding).1 = env.bound name symbol binding := by
  rw [Context.fresh_singleton, ← h.isLocal] at hfresh
  unfold declare SymbolTable.insert
  rw [if_neg hfresh.1, hfresh.2]
  rfl

/-- Binding a name of one kind on both sides keeps the match. -/
theorem MatchesNames.bound (h : MatchesNames imports env ctx) {name : String} {symbol : Symbol}
    {binding : Option (Option Value)} {m : Meaning} (hkind : symbol.kind = m.kind) :
    MatchesNames imports (env.bound name symbol binding) (ctx.bind name m) := by
  refine ⟨?_, h.imports⟩
  show (env.symbols.bind name symbol).map Symbol.kind = _
  rw [Scopes.map_bind, Scopes.map_bind, h.symbols, hkind]

/-- A binding of the same kind and value on both sides keeps the match. -/
theorem Matches.bound (h : Matches imports env ctx) {name : String} {symbol : Symbol}
    {x : Option Value} {m : Meaning} (hkind : symbol.kind = m.kind)
    (hvalue : m.kind = .constant → ∃ v, m.value = some v ∧ x = some v) :
    Matches imports (env.bound name symbol (some x)) (ctx.bind name m) :=
  ⟨h.toMatchesNames.bound hkind, h.constants.bind name hvalue⟩

/-! ## Referring -/

/-- References have no problems exactly if each of the names resolves. -/
theorem referenceProblems_eq_nil {role : Role} {names : List Qualident} :
    env.referenceProblems role names = [] ↔ ∀ q ∈ names, (env.resolve role q).problem? = none :=
  List.filterMap_eq_nil_iff

theorem inside_kind? {q : Qualident} :
    (Use.inside ctx q).kind? = (ctx.find? q.name).map Meaning.kind := by
  unfold Use.kind? Use.inside
  cases ctx.find? q.name <;> rfl

def Imported (imports : List String) (q : Qualident) : Prop :=
  ∀ qualifier ∈ q.qualifier, qualifier ∈ imports

/-- Of a qualified name only the import is checked. -/
theorem problem?_eq_none_of_qualified (role : Role) {qualifier name : String}
    (hrole : role ≠ .constant) :
    (env.resolve role ⟨some qualifier, name⟩).problem? = none ↔ qualifier ∈ env.imports := by
  unfold resolve
  by_cases hmem : qualifier ∈ env.imports <;> simp [hmem, hrole, Resolution.problem?]

theorem imported_some {qualifier name : String} :
    Imported imports ⟨some qualifier, name⟩ ↔ qualifier ∈ imports := by
  simp [Imported]

/-- What is known of the symbol of an unqualified name. -/
theorem MatchesNames.resolve (h : MatchesNames imports env ctx) (role : Role) (name : String) :
    env.resolve role ⟨none, name⟩ = match (ctx.find? name).map Meaning.kind with
      | some kind => env.resolveSymbol role name kind
      | none => .broken (.undeclared name) := by
  rw [← h.kind]
  unfold Environment.resolve
  cases env.symbols.find? name <;> rfl

def Admits : Role → SymbolKind → Prop
  | .type, kind => kind = .type
  | .constant, kind => kind = .constant
  | .value, kind => kind ≠ .type ∧ kind ≠ .module

/-- A symbol is no problem exactly if its kind is admitted in the role. -/
theorem problem?_resolveSymbol_eq_none {role : Role} {name : String} {kind : SymbolKind} :
    (env.resolveSymbol role name kind).problem? = none ↔ Admits role kind := by
  cases role with
  | constant =>
    -- a constant is no problem, whether it has a value or not
    cases kind with
    | constant =>
      cases hvalue : env.hasValue name <;> simp [resolveSymbol, hvalue, Resolution.problem?, Admits]
    | _ => simp [resolveSymbol, Resolution.problem?, Admits]
  | _ => cases kind <;> simp [resolveSymbol, Resolution.problem?, Admits]

/-- An unqualified name resolves exactly if the context has it with a kind that is admitted. -/
theorem MatchesNames.unqualified_ok (h : MatchesNames imports env ctx) (role : Role)
    (name : String) :
    (env.resolve role ⟨none, name⟩).problem? = none ↔
      ∃ kind, (ctx.find? name).map Meaning.kind = some kind ∧ Admits role kind := by
  rw [h.resolve]
  cases (ctx.find? name).map Meaning.kind with
  | none => simp [Resolution.problem?]
  | some kind => simp [problem?_resolveSymbol_eq_none]

/-- The roles of types and values ask for a kind of unqualified names and an import of others. -/
theorem MatchesNames.role_ok (h : MatchesNames imports env ctx) (role : Role)
    (hrole : role ≠ .constant)
    (q : Qualident) :
    (env.resolve role q).problem? = none ↔
      (q.qualifier = none → ∃ kind, (Use.inside ctx q).kind? = some kind ∧ Admits role kind) ∧
        Imported imports q := by
  obtain ⟨qualifier, name⟩ := q
  cases qualifier with
  | some qualifier =>
    rw [problem?_eq_none_of_qualified role hrole, imported_some, h.imports]
    simp
  | none =>
    rw [h.unqualified_ok, inside_kind?]
    simp [Imported]

theorem MatchesNames.type_ok (h : MatchesNames imports env ctx) (q : Qualident) :
    (env.resolve .type q).problem? = none ↔
      (q.qualifier = none → (Use.inside ctx q).kind? = some .type) ∧ Imported imports q := by
  simpa [Admits] using h.role_ok .type nofun q

theorem MatchesNames.value_ok (h : MatchesNames imports env ctx) (q : Qualident) :
    (env.resolve .value q).problem? = none ↔
      (q.qualifier = none → ∃ kind, (Use.inside ctx q).kind? = some kind ∧ kind ≠ .type ∧
        kind ≠ .module) ∧ Imported imports q :=
  h.role_ok .value nofun q

/-- The constants of other modules are not known. -/
theorem MatchesNames.constant_ok (h : MatchesNames imports env ctx) (q : Qualident) :
    (env.resolve .constant q).problem? = none ↔
      q.qualifier = none ∧ (ctx.find? q.name).map Meaning.kind = some .constant := by
  obtain ⟨qualifier, name⟩ := q
  cases qualifier with
  | some qualifier =>
    unfold Environment.resolve
    by_cases hmem : qualifier ∈ env.imports <;> simp [hmem, Resolution.problem?]
  | none =>
    rw [h.unqualified_ok]
    simp [Admits]

/-! ## Constant expressions -/

theorem hasValue_of_valueOf {name : String} {v : Value}
    (h : env.constants.valueOf ⟨none, name⟩ = .ok v) : env.hasValue name = true := by
  unfold Constants.valueOf at h
  unfold hasValue Constants.lookup
  split at h
  next hqualified => cases hqualified
  next =>
    cases hfind : env.constants.find? name with
    | none =>
      rw [hfind] at h
      cases hboolean : Predeclared.boolean? name with
      | none =>
        simp only [hboolean] at h
        cases h
      | some b => simp
    | some value =>
      cases value with
      | none =>
        rw [hfind] at h
        cases h
      | some v => simp

/-- A constant without a value would be neither known nor broken, but there is none. -/
theorem Matches.resolve_eq_known (h : Matches imports env ctx) (q : Qualident) :
    env.resolve .constant q = .known ↔
      q.qualifier = none ∧ (ctx.find? q.name).map Meaning.kind = some .constant := by
  constructor
  · intro hknown
    exact (h.toMatchesNames.constant_ok q).mp (by rw [hknown]; rfl)
  · obtain ⟨qualifier, name⟩ := q
    rintro ⟨rfl, hkind⟩
    obtain ⟨m, hfind, hm⟩ := Option.map_eq_some_iff.mp hkind
    obtain ⟨v, -, hvalue⟩ := h.constants name m hfind hm
    rw [h.toMatchesNames.resolve, hkind]
    simp [resolveSymbol, hasValue_of_valueOf hvalue]

theorem Matches.evaluate_eq (h : Matches imports env ctx) {e : Expression}
    (he : ctx.AllConstant e) :
    env.constants.evaluate e = ctx.evaluate e :=
  h.constants.evaluate_eq he

/-- All names of an expression are known exactly if all are constants of the context. -/
theorem Matches.all_known (h : Matches imports env ctx) {e : Expression} :
    (e.names.all fun q => env.resolve .constant q = .known) = true ↔ ctx.AllConstant e := by
  rw [List.all_eq_true]
  refine forall₂_congr fun q _ => ?_
  rw [decide_eq_true_iff]
  exact h.resolve_eq_known q

/-- An expression with other names is reported and has no value. -/
theorem Matches.constantValue_of_not (h : Matches imports env ctx) {e : Expression}
    (he : ¬ ctx.AllConstant e) : (env.constantValue e).1 ≠ [] ∧ (env.constantValue e).2 = none := by
  unfold constantValue
  rw [if_neg (mt h.all_known.mp he)]
  refine ⟨fun hnil => he ?_, rfl⟩
  intro q hq
  have hproblem := referenceProblems_eq_nil.mp hnil q hq
  exact (h.toMatchesNames.constant_ok q).mp hproblem

/-- An expression of constants is evaluated, and only its error is reported. -/
theorem Matches.constantValue_of_allConstant (h : Matches imports env ctx) {e : Expression}
    (he : ctx.AllConstant e) : env.constantValue e = match ctx.evaluate e with
      | .ok value => ([], some value)
      | .error error => ([.invalidConstant error], none) := by
  unfold constantValue
  rw [if_pos (h.all_known.mpr he)]
  cases hvalue : ctx.evaluate e <;> simp only [h.evaluate_eq he, hvalue]

/-- An expression is without problems exactly if it is constant and has a value. -/
theorem Matches.constantValue_eq_nil (h : Matches imports env ctx) {e : Expression} :
    (env.constantValue e).1 = [] ↔ ctx.AllConstant e ∧ ∃ v, ctx.evaluate e = .ok v := by
  by_cases he : ctx.AllConstant e
  · rw [h.constantValue_of_allConstant he]
    cases ctx.evaluate e <;> simp [he]
  · have hproblems := (h.constantValue_of_not he).1
    simp [he, hproblems]

theorem Matches.constantValue_snd (h : Matches imports env ctx) {e : Expression}
    (he : (env.constantValue e).1 = []) : (env.constantValue e).2 = (ctx.evaluate e).toOption := by
  obtain ⟨hall, v, hv⟩ := h.constantValue_eq_nil.mp he
  rw [h.constantValue_of_allConstant hall, hv]
  rfl

/-- A length is without problems exactly if it is a positive integer made of constants. -/
theorem Matches.lengthProblems_eq_nil (h : Matches imports env ctx) {e : Expression} :
    env.lengthProblems e = [] ↔
      ctx.AllConstant e ∧ ∃ n : Int64, ctx.evaluate e = .ok (.integer n) ∧ 0 < n.toInt := by
  unfold lengthProblems
  by_cases he : ctx.AllConstant e
  · rw [h.constantValue_of_allConstant he]
    cases ctx.evaluate e with
    | error error => simp
    | ok value => cases value <;> simp [he]
  · have hproblems := (h.constantValue_of_not he).1
    simp [he, hproblems]

end Environment

end Oberon
