import Oberon.Proofs.Check.BlockAgreement
import Oberon.Proofs.Check.Keeps

/-!
# Points of a module with errors

In a module with errors the first declaration of a name in a scope counts, and a constant may be
without a value.  A point holds the environment of the checker and the context that says so.
Every declaration keeps the two together: the names are of the same kinds, and the constants have
the same values or have none.
-/

namespace Oberon

/-! ## Entering names -/

namespace Context

def enter (ctx : Context) (name : String) (m : Meaning) : Context :=
  if name = "" ∨ ctx.isLocal name = true then ctx else ctx.bind name m

def enterAll (kind : SymbolKind) (ctx : Context) (names : List String) : Context :=
  names.foldl (fun ctx name => ctx.enter name ⟨kind, none⟩) ctx

def enterConstant (ctx : Context) (d : ConstDeclaration) : Context :=
  ctx.enter d.name.name ⟨.constant, (ctx.evaluate d.value).toOption⟩

/-- The name stands for a constant without a value. -/
def Unknown (ctx : Context) (name : String) : Prop :=
  ctx.find? name = some ⟨.constant, none⟩

/-- An entered name is local, unless it is empty. -/
theorem isLocal_enter (ctx : Context) (name other : String) (m : Meaning) :
    (ctx.enter name m).isLocal other =
      (decide (other = name ∧ name ≠ "") || ctx.isLocal other) := by
  unfold enter
  split
  next h =>
    obtain hempty | hlocal := h
    · simp [hempty]
    · by_cases hother : other = name
      · simp [hother, hlocal]
      · simp [hother]
  next h =>
    rw [not_or] at h
    rw [Scopes.isLocal_bind]
    simp [h.1]

/-- A name is entered only if it is not empty and not local. -/
theorem find?_enter (ctx : Context) (name other : String) (m : Meaning) :
    (ctx.enter name m).find? other =
      if other = name ∧ name ≠ "" ∧ ctx.isLocal name = false then some m else ctx.find? other := by
  unfold enter
  split
  next h =>
    have hleft : ¬ (other = name ∧ name ≠ "" ∧ ctx.isLocal name = false) := by
      rintro ⟨-, hname, hlocal⟩
      rw [hlocal] at h
      exact h.elim hname nofun
    rw [if_neg hleft]
  next h =>
    rw [not_or, Bool.not_eq_true] at h
    rw [Scopes.find?_bind]
    simp only [h.1, h.2, ne_eq, not_false_eq_true, and_true]

theorem find?_enter_of_ne (ctx : Context) {name other : String} (m : Meaning) (h : other ≠ name) :
    (ctx.enter name m).find? other = ctx.find? other := by
  rw [find?_enter, if_neg fun hall => h hall.1]

theorem enterAll_append (kind : SymbolKind) (ctx : Context) (names others : List String) :
    ctx.enterAll kind (names ++ others) = (ctx.enterAll kind names).enterAll kind others :=
  List.foldl_append

/-- Several names are entered one by one. -/
theorem isLocal_enterAll (kind : SymbolKind) (ctx : Context) (names : List String) (name : String) :
    (ctx.enterAll kind names).isLocal name =
      (decide (name ∈ names ∧ name ≠ "") || ctx.isLocal name) := by
  induction names generalizing ctx with
  | nil => simp [enterAll]
  | cons other names ih =>
    rw [enterAll, List.foldl_cons, ← enterAll, ih, isLocal_enter]
    by_cases hother : name = other
    · subst hother
      by_cases hempty : name = "" <;> simp [hempty]
    · simp [hother]

/-- The first declaration counts, and all of these are of the same kind. -/
theorem find?_enterAll (kind : SymbolKind) (ctx : Context) (names : List String) (name : String) :
    (ctx.enterAll kind names).find? name =
      if name ∈ names ∧ name ≠ "" ∧ ctx.isLocal name = false then some ⟨kind, none⟩
      else ctx.find? name := by
  induction names generalizing ctx with
  | nil => simp [enterAll]
  | cons other names ih =>
    rw [enterAll, List.foldl_cons, ← enterAll, ih, find?_enter, isLocal_enter]
    by_cases hother : name = other
    · subst hother
      by_cases hempty : name = "" <;> cases ctx.isLocal name <;> simp [hempty]
    · simp [hother]

/-- A predeclared name is a type or a boolean constant. -/
theorem find?_predeclared (name : String) : predeclared.find? name =
    if name ∈ Predeclared.types then some ⟨.type, none⟩
    else (Predeclared.boolean? name).map fun b => ⟨.constant, some (.boolean b)⟩ := by
  have htypes (types : List String) :
      List.lookup name (types.map fun name => (name, (⟨.type, none⟩ : Meaning))) =
        if name ∈ types then some ⟨.type, none⟩ else none := by
    induction types with
    | nil => rfl
    | cons other types ih =>
      rw [List.map_cons, Scopes.lookup_cons, ih]
      by_cases h : name = other <;> simp [h]
  rw [Scopes.find?, predeclared, List.findSome?_nil, Option.none_or, List.lookup_append, htypes,
    Scopes.lookup_cons, Scopes.lookup_cons, List.lookup_nil]
  by_cases hmem : name ∈ Predeclared.types
  · rw [if_pos hmem, if_pos hmem]
    rfl
  · rw [if_neg hmem, if_neg hmem, Option.none_or]
    -- what is no type is one of the two boolean constants or not predeclared
    by_cases htrue : name = "TRUE"
    · rw [htrue]
      rfl
    by_cases hfalse : name = "FALSE"
    · rw [hfalse]
      rfl
    · rw [if_neg htrue, if_neg hfalse]
      unfold Predeclared.boolean?
      split <;> simp_all

end Context

/-! ## Constants -/

namespace Constants

theorem find?_hideAll_of_not_mem (constants : Constants) {names : List String} {name : String}
    (h : name ∉ names) : (constants.hideAll names).find? name = constants.find? name := by
  induction names generalizing constants with
  | nil => rfl
  | cons other names ih =>
    rw [List.mem_cons, not_or] at h
    rw [hideAll, List.foldl_cons, ← hideAll, ih _ h.2, hide, Scopes.find?_bind, if_neg h.1]

/-- The constants of the context have their values here, and those without a value have none here.
Nothing else has a value, and the boolean constants are never out of sight. -/
structure Tracks (constants : Constants) (ctx : Context) : Prop where
  values : ∀ name m, ctx.find? name = some m → m.kind = .constant → name ≠ "" ∧
    constants.valueOf ⟨none, name⟩ = Constants.valueOf (ctx.map Meaning.value) ⟨none, name⟩
  others : ∀ name m, ctx.find? name = some m → m.kind ≠ .constant → m.value = none
  booleans : ∀ name, ctx.find? name = none → Predeclared.boolean? name = none

variable {constants : Constants} {ctx : Context}

/-- A constant is bound to the value of the context, anything else to none. -/
theorem Tracks.bind (h : constants.Tracks ctx) {name : String} (hname : name ≠ "")
    {x : Option Value}
    {m : Meaning} (hconstant : m.kind = .constant → x = m.value)
    (hother : m.kind ≠ .constant → m.value = none) :
    Tracks (constants.bind name x) (ctx.bind name m) := by
  refine ⟨?_, ?_, ?_⟩
  · -- a constant has the value that both sides have bound, or the one they had before
    intro other m' hfind hkind
    rw [Scopes.map_bind]
    rw [Scopes.find?_bind] at hfind
    by_cases heq : other = name
    · rw [if_pos heq] at hfind
      cases hfind
      refine ⟨heq ▸ hname, valueOf_congr ?_⟩
      rw [Scopes.find?_bind, Scopes.find?_bind, if_pos heq, if_pos heq, hconstant hkind]
    · rw [if_neg heq] at hfind
      obtain ⟨hnonempty, hvalue⟩ := h.values other m' hfind hkind
      refine ⟨hnonempty, ?_⟩
      calc Constants.valueOf (constants.bind name x) ⟨none, other⟩
          _ = constants.valueOf ⟨none, other⟩ :=
            valueOf_congr (by rw [Scopes.find?_bind, if_neg heq])
          _ = Constants.valueOf (ctx.map Meaning.value) ⟨none, other⟩ := hvalue
          _ = Constants.valueOf ((ctx.map Meaning.value).bind name m.value) ⟨none, other⟩ :=
            valueOf_congr (by rw [Scopes.find?_bind, if_neg heq])
  · intro other m' hfind hkind
    rw [Scopes.find?_bind] at hfind
    by_cases heq : other = name
    · rw [if_pos heq] at hfind
      cases hfind
      exact hother hkind
    · rw [if_neg heq] at hfind
      exact h.others other m' hfind hkind
  · intro other hfind
    rw [Scopes.find?_bind] at hfind
    by_cases heq : other = name
    · rw [if_pos heq] at hfind
      cases hfind
    · rw [if_neg heq] at hfind
      exact h.booleans other hfind

/-- The parameters hide constants all at once, but they are declared one by one. -/
theorem Tracks.parameters (h : constants.Tracks ctx) (names : List String) :
    Tracks (hideAll constants.push names) (Context.enterAll .parameter ctx.push names) := by
  have hfind (name : String) : (Context.enterAll .parameter ctx.push names).find? name =
      if name ∈ names ∧ name ≠ "" then some ⟨.parameter, none⟩ else ctx.find? name := by
    have hlocal : ctx.push.isLocal name = false := rfl
    rw [Context.find?_enterAll, hlocal, Scopes.find?_push]
    simp only [and_true]
  refine ⟨?_, ?_, ?_⟩
  · intro name m hm hkind
    rw [hfind] at hm
    split at hm
    next =>
      cases hm
      cases hkind
    next hnot =>
      obtain ⟨hnonempty, hvalue⟩ := h.values name m hm hkind
      -- what is no parameter is looked up further out, on both sides
      have hmem : name ∉ names := fun hmem => hnot ⟨hmem, hnonempty⟩
      refine ⟨hnonempty, ?_⟩
      calc (hideAll constants.push names).valueOf ⟨none, name⟩
          _ = constants.valueOf ⟨none, name⟩ := valueOf_congr (find?_hideAll_of_not_mem _ hmem)
          _ = Constants.valueOf (ctx.map Meaning.value) ⟨none, name⟩ := hvalue
          _ = Constants.valueOf ((Context.enterAll .parameter ctx.push names).map Meaning.value)
            ⟨none, name⟩ :=
            valueOf_congr (by rw [Scopes.find?_map, Scopes.find?_map, hfind, if_neg hnot])
  · intro name m hm hkind
    rw [hfind] at hm
    split at hm
    next =>
      cases hm
      rfl
    next => exact h.others name m hm hkind
  · intro name hnone
    rw [hfind] at hnone
    split at hnone
    next => cases hnone
    next => exact h.booleans name hnone

/-- At the beginning only the boolean constants have values. -/
theorem tracks_predeclared : Tracks .empty Context.predeclared.push := by
  refine ⟨?_, ?_, ?_⟩
  · intro name m hfind hkind
    obtain ⟨v, hvalue, hv⟩ := agree_predeclared name m hfind hkind
    refine ⟨?_, ?_⟩
    · rintro rfl
      cases hfind
    · rw [hv]
      refine (valueOf_of_find? ?_).symm
      rw [Scopes.find?_map, hfind, Option.map_some, hvalue]
  · intro name m hfind hkind
    rw [Scopes.find?_push, Context.find?_predeclared] at hfind
    split at hfind
    next =>
      cases hfind
      rfl
    next =>
      obtain ⟨b, -, rfl⟩ := Option.map_eq_some_iff.mp hfind
      exact absurd rfl hkind
  · intro name hfind
    rw [Scopes.find?_push, Context.find?_predeclared] at hfind
    split at hfind
    next => cases hfind
    next => exact Option.map_eq_none_iff.mp hfind

end Constants

/-! ## Points -/

/-- A declaration changes nothing if the name is empty or local. -/
theorem Environment.declare_fst_eq (env : Environment) (name : String) (symbol : Symbol)
    (binding : Option (Option Value)) : (env.declare name symbol binding).1 =
      if name = "" ∨ env.symbols.isLocal name = true then env
        else env.bound name symbol binding := by
  unfold declare SymbolTable.insert
  by_cases hempty : name = ""
  · simp [hempty]
  by_cases hlocal : env.symbols.isLocal name = true
  · simp [hempty, hlocal]
  · rw [if_neg hempty, if_neg hlocal, if_neg (not_or.mpr ⟨hempty, hlocal⟩)]
    rfl

/-- A point of a module: the environment of the checker there, and the context that is declared up
to there. -/
structure Point where
  env : Environment
  ctx : Context

open Environment

namespace Point

def constant (p : Point) (d : ConstDeclaration) : Point :=
  ⟨(p.env.checkConstant d).1, p.ctx.enterConstant d⟩

def other (kind : SymbolKind) (p : Point) (d : IdentDef) : Point :=
  ⟨(p.env.declareOther kind d).1, p.ctx.enter d.name ⟨kind, none⟩⟩

def parameter (p : Point) (name : String) : Point :=
  ⟨(p.env.declareParameter name).1, p.ctx.enter name ⟨.parameter, none⟩⟩

def imported (p : Point) (name : String) : Point :=
  ⟨(p.env.declareImport name).1, p.ctx.enter name ⟨.module, none⟩⟩

/-- The environment has the names of the context, with their kinds. -/
def Named (p : Point) : Prop :=
  MatchesNames p.env.imports p.env p.ctx

/-- The environment has the names of the context and the values of its constants. -/
structure Tracks (p : Point) : Prop where
  named : p.Named
  constants : p.env.constants.Tracks p.ctx

variable {p : Point}

/-- The checker and the context leave out the same declarations. -/
theorem Named.declare (h : p.Named) {name : String} {symbol : Symbol}
    {binding : Option (Option Value)}
    {m : Meaning} (hkind : symbol.kind = m.kind) :
    Named ⟨(p.env.declare name symbol binding).1, p.ctx.enter name m⟩ := by
  rw [declare_fst_eq, Context.enter, h.isLocal]
  split
  next => exact h
  next => exact MatchesNames.bound h hkind

/-- A declaration of the same kind and value on both sides is tracked. -/
theorem Tracks.declare (h : p.Tracks) {name : String} {symbol : Symbol} {x : Option Value}
    {m : Meaning}
    (hkind : symbol.kind = m.kind) (hconstant : m.kind = .constant → x = m.value)
    (hother : m.kind ≠ .constant → m.value = none) :
    Tracks ⟨(p.env.declare name symbol (some x)).1, p.ctx.enter name m⟩ := by
  refine ⟨h.named.declare hkind, ?_⟩
  rw [declare_fst_eq, Context.enter, h.named.isLocal]
  split
  next => exact h.constants
  next hnew => exact h.constants.bind (not_or.mp hnew).1 hconstant hother

theorem Tracks.other (h : p.Tracks) (kind : SymbolKind) (hkind : kind ≠ .constant) (d : IdentDef) :
    (p.other kind d).Tracks :=
  h.declare rfl (fun hconstant => absurd hconstant hkind) fun _ => rfl

theorem Named.parameter (h : p.Named) (name : String) : (p.parameter name).Named :=
  h.declare rfl

/-- An import is tracked: nothing is bound for it among the constants. -/
theorem Tracks.imported (h : p.Tracks) (name : String) : (p.imported name).Tracks := by
  have hdeclared : Tracks ⟨(p.env.declare name ⟨.module, false⟩ (some none)).1,
      p.ctx.enter name ⟨.module, none⟩⟩ := h.declare rfl nofun fun _ => rfl
  exact ⟨⟨hdeclared.named.symbols, rfl⟩, hdeclared.constants⟩

/-! ### Constant expressions -/

/-- A constant is known if it has a value or is called like a boolean one. -/
theorem Tracks.hasValue (h : p.Tracks) {name : String} {value : Option Value}
    (hfind : p.ctx.find? name = some ⟨.constant, value⟩) :
    p.env.hasValue name = (value.isSome || (Predeclared.boolean? name).isSome) := by
  obtain ⟨-, hvalue⟩ := h.constants.values name _ hfind rfl
  have hctx : (p.ctx.map Meaning.value).find? name = some value := by
    rw [Scopes.find?_map, hfind, Option.map_some]
  cases value with
  | some v =>
    rw [Constants.valueOf_of_find? hctx] at hvalue
    rw [hasValue_of_valueOf hvalue]
    rfl
  | none =>
    have hlookup : p.env.constants.lookup name = none := by
      cases hknown : p.env.constants.lookup name with
      | none => rfl
      | some v =>
        have hbound : p.env.constants.find? name = some (some v) :=
          Option.join_eq_some_iff.mp hknown
        rw [Constants.valueOf_of_find? hbound] at hvalue
        unfold Constants.valueOf at hvalue
        rw [hctx] at hvalue
        cases hvalue
    rw [Environment.hasValue, hlookup]

/-- A constant without a value is passed over, unless its name is that of a boolean constant. -/
theorem Tracks.resolve_eq_known (h : p.Tracks) {q : Qualident} (hname : q.qualifier = none)
    (hkind : (p.ctx.find? q.name).map Meaning.kind = some .constant) :
    p.env.resolve .constant q = .known ↔
      (p.ctx.Unknown q.name → (Predeclared.boolean? q.name).isSome = true) := by
  obtain ⟨qualifier, name⟩ := q
  subst hname
  obtain ⟨⟨kind, value⟩, hfind, rfl⟩ := Option.map_eq_some_iff.mp hkind
  rw [MatchesNames.resolve h.named, hkind]
  dsimp only
  rw [resolveSymbol, h.hasValue hfind]
  unfold Context.Unknown
  rw [hfind]
  cases value <;> cases (Predeclared.boolean? name).isSome <;> simp

/-- Expressions of constants have the same value on both sides. -/
theorem Tracks.evaluate_eq (h : p.Tracks) {e : Expression} (he : p.ctx.AllConstant e) :
    p.env.constants.evaluate e = p.ctx.evaluate e := by
  apply Constants.evaluate_congr
  intro q hq
  obtain ⟨hqualifier, hkind⟩ := he q hq
  obtain ⟨qualifier, name⟩ := q
  subst hqualifier
  obtain ⟨m, hfind, hm⟩ := Option.map_eq_some_iff.mp hkind
  exact (h.constants.values name m hfind hm).2

/-- An expression that has a value is made of constants that have one. -/
theorem Tracks.known_of_evaluate (h : p.Tracks) {e : Expression} {v : Value}
    (hv : p.ctx.evaluate e = .ok v) :
    ∀ q ∈ e.names, q.qualifier = none ∧ ∃ v, p.ctx.find? q.name = some ⟨.constant, some v⟩ := by
  intro q hq
  obtain ⟨w, hw⟩ := Constants.valueOf_of_evaluate hv q hq
  obtain ⟨qualifier, name⟩ := q
  unfold Constants.valueOf at hw
  cases qualifier with
  | some qualifier => cases hw
  | none =>
    refine ⟨rfl, ?_⟩
    rw [Scopes.find?_map] at hw
    cases hfind : p.ctx.find? name with
    | none =>
      -- a boolean constant would be found
      rw [hfind] at hw
      simp only [Option.map_none, h.constants.booleans name hfind] at hw
      cases hw
    | some m =>
      obtain ⟨kind, value⟩ := m
      by_cases hkind : kind = .constant
      · cases value with
        | some v => exact ⟨v, by rw [hkind]⟩
        | none =>
          rw [hfind] at hw
          cases hw
      · have hnone : value = none := h.constants.others name _ hfind hkind
        rw [hfind, hnone] at hw
        cases hw

/-- All names are known if all are constants and the unknown ones are called like boolean ones. -/
theorem Tracks.all_known_iff (h : p.Tracks) {e : Expression} :
    (e.names.all fun q => p.env.resolve .constant q = .known) = true ↔
      p.ctx.AllConstant e ∧
        ∀ q ∈ e.names, p.ctx.Unknown q.name → (Predeclared.boolean? q.name).isSome = true := by
  rw [List.all_eq_true, Context.AllConstant, ← forall₂_and]
  refine forall₂_congr fun q _ => ?_
  rw [decide_eq_true_iff]
  constructor
  · intro hknown
    have hproblem : (p.env.resolve .constant q).problem? = none := by rw [hknown]; rfl
    obtain ⟨hname, hkind⟩ := (MatchesNames.constant_ok h.named q).mp hproblem
    exact ⟨⟨hname, hkind⟩, (h.resolve_eq_known hname hkind).mp hknown⟩
  · rintro ⟨⟨hname, hkind⟩, hvalue⟩
    exact (h.resolve_eq_known hname hkind).mpr hvalue

/-- The checker finds the value that the expression has in the context. -/
theorem Tracks.constantValue_snd (h : p.Tracks) (e : Expression) :
    (p.env.constantValue e).2 = (p.ctx.evaluate e).toOption := by
  unfold constantValue
  split
  next hall =>
    rw [h.evaluate_eq (h.all_known_iff.mp hall).1]
    cases p.ctx.evaluate e <;> rfl
  next hall =>
    cases hv : p.ctx.evaluate e with
    | error error => rfl
    | ok v =>
      have hknown := h.known_of_evaluate hv
      refine absurd (h.all_known_iff.mpr ⟨?_, ?_⟩) hall
      · intro q hq
        obtain ⟨hname, v, hfind⟩ := hknown q hq
        rw [hfind]
        exact ⟨hname, rfl⟩
      · intro q hq hunknown
        obtain ⟨-, v, hfind⟩ := hknown q hq
        rw [Context.Unknown, hfind] at hunknown
        cases hunknown

theorem Tracks.constant (h : p.Tracks) (d : ConstDeclaration) : (p.constant d).Tracks :=
  h.declare rfl (fun _ => h.constantValue_snd d.value) fun hkind => absurd rfl hkind

end Point

end Oberon
