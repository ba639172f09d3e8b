import Mathlib.Data.List.Infix
import Oberon.Symbol
import Oberon.Proofs.Scopes

/-!
# Histories of symbol tables

What a symbol table answers after any requests, in terms of what happened to it.  The events that
count are scopes that were entered, scopes that were left, and symbols that were inserted;
whatever was refused does not.  Main statement: the answers are those of a stack of scopes in
which the first insertion of a name wins.
-/

namespace Oberon.SymbolTable

/-! ## Requests -/

inductive Request where
  | push
  | drop
  | insert (name : String) (symbol : Symbol)
  | get (name : String)
deriving DecidableEq, Repr

inductive Answer where
  | done
  | refused (error : SymbolError)
  | found (symbol : Option Symbol)
deriving DecidableEq, Repr

def settle (table : SymbolTable) : Except SymbolError SymbolTable → SymbolTable × Answer
  | .ok changed => (changed, .done)
  | .error error => (table, .refused error)

def serve (table : SymbolTable) : Request → SymbolTable × Answer
  | .push => (table.push, .done)
  | .drop => table.settle table.drop
  | .insert name symbol => table.settle (table.insert name symbol)
  | .get name => (table, .found (table.find? name))

def after (table : SymbolTable) : List Request → SymbolTable
  | [] => table
  | request :: rest => (table.serve request).1.after rest

structure Event where
  request : Request
  answer : Answer
deriving DecidableEq, Repr

def events (table : SymbolTable) : List Request → List Event
  | [] => []
  | request :: rest => ⟨request, (table.serve request).2⟩ :: (table.serve request).1.events rest

/-- Two lists of requests are served one behind the other. -/
theorem after_append (table : SymbolTable) (first second : List Request) :
    table.after (first ++ second) = (table.after first).after second := by
  induction first generalizing table with
  | nil => rfl
  | cons request rest ih => exact ih (table.serve request).1

/-- A refused request leaves the table as it is. -/
theorem serve_of_refused (table : SymbolTable) (request : Request) (error : SymbolError)
    (h : (table.serve request).2 = .refused error) : (table.serve request).1 = table := by
  have hsettle {change : Except SymbolError SymbolTable}
      (h : (table.settle change).2 = .refused error) :
      (table.settle change).1 = table := by
    cases change with
    | ok changed => cases h
    | error => rfl
  cases request with
  | push => cases h
  | drop => exact hsettle h
  | insert name symbol => exact hsettle h
  | get name => rfl

/-- Only the outermost scope cannot be dropped. -/
theorem drop_eq_error_iff (table : SymbolTable) :
    (∃ error, table.drop = .error error) ↔ table.level = 0 := by
  rw [← Scopes.pop?_eq_none_iff, drop]
  cases table.pop? <;> simp

/-- An empty name and one that is bound in the innermost scope are refused. -/
theorem insert_eq_error_iff (table : SymbolTable) (name : String) (symbol : Symbol) :
    (∃ error, table.insert name symbol = .error error) ↔
      name = "" ∨ (table.lookupAt 0 name).isSome := by
  rw [insert, Scopes.isLocal_eq]
  by_cases hname : name = ""
  · simp [hname]
  · by_cases hlocal : (table.lookupAt 0 name).isSome = true <;> simp [hname, hlocal]

theorem insert_eq_ok {table changed : SymbolTable} {name : String} {symbol : Symbol}
    (h : table.insert name symbol = .ok changed) :
    table.lookupAt 0 name = none ∧ changed = table.bind name symbol := by
  rw [insert, Scopes.isLocal_eq] at h
  split at h
  · cases h
  · split at h
    · cases h
    · cases h
      next hlocal => exact ⟨Option.not_isSome_iff_eq_none.mp hlocal, rfl⟩

theorem drop_eq_ok {table outer : SymbolTable} (h : table.drop = .ok outer) :
    table.pop? = some outer := by
  unfold drop at h
  split at h
  next hpop =>
    cases h
    exact hpop
  next => cases h

/-! ## Events -/

def entered : Event :=
  ⟨.push, .done⟩

def left : Event :=
  ⟨.drop, .done⟩

def inserted (name : String) (symbol : Symbol) : Event :=
  ⟨.insert name symbol, .done⟩

/-- The number of scopes that were entered, less those that were left. -/
def height (events : List Event) : Int :=
  events.count entered - events.count left

theorem height_append (first second : List Event) :
    height (first ++ second) = height first + height second := by
  simp only [height, List.count_append]
  omega

/-- A symbol table is made without symbols, or with the predeclared ones. -/
inductive Start where
  | empty
  | predeclared
deriving DecidableEq, Repr

def Start.table : Start → SymbolTable
  | .empty => Scopes.empty
  | .predeclared => SymbolTable.predeclared

def Start.events : Start → List Event
  | .empty => []
  | .predeclared =>
    Predeclared.types.map (fun name => inserted name ⟨.type, false⟩) ++
      [inserted "TRUE" ⟨.constant, false⟩, inserted "FALSE" ⟨.constant, false⟩]

/-- The name was inserted behind `before`, in a scope that has not been left since then and inside
which there are `depth` others. -/
def Holds (events : List Event) (depth : Nat) (name : String) (symbol : Symbol)
    (before : List Event) : Prop :=
  ∃ after, events = before ++ inserted name symbol :: after ∧ height after = depth ∧
    ∀ front ∈ after.inits, 0 ≤ height front

/-- The first insertion of the name in the innermost of the scopes that are open and in which it
was inserted. -/
def FirstInnermost (events : List Event) (name : String) (symbol : Symbol) : Prop :=
  ∃ depth before, Holds events depth name symbol before ∧
    ∀ depth' symbol' before', Holds events depth' name symbol' before' →
      depth < depth' ∨ depth = depth' ∧ before.length ≤ before'.length

variable {table : SymbolTable} {past : List Event} {event : Event} {depth : Nat} {name : String}
  {symbol : Symbol} {before : List Event}

theorem not_holds_nil : ¬ Holds [] depth name symbol before := by
  rintro ⟨after, hsplit, -⟩
  exact absurd hsplit.symm (List.append_ne_nil_of_right_ne_nil _ (List.cons_ne_nil _ _))

/-- What is held after one more event is what this event inserts, or was held in front of it at
another depth. -/
theorem holds_concat : Holds (past ++ [event]) depth name symbol before ↔
    (before = past ∧ event = inserted name symbol ∧ depth = 0) ∨
      ∃ depth', Holds past depth' name symbol before ∧ (depth : Int) = depth' + height [event] := by
  constructor
  · rintro ⟨after, hsplit, hdepth, hfront⟩
    rcases List.eq_nil_or_concat after with rfl | ⟨after, last, rfl⟩
    · obtain ⟨rfl, hevent⟩ := List.append_inj' hsplit rfl
      exact .inl ⟨rfl, List.singleton_inj.mp hevent, (Int.ofNat_eq_zero.mp hdepth.symm)⟩
    · rw [List.concat_eq_append, ← List.cons_append, ← List.append_assoc] at hsplit
      obtain ⟨rfl, hlast⟩ := List.append_inj' hsplit rfl
      obtain rfl : event = last := List.singleton_inj.mp hlast
      rw [List.concat_eq_append] at hdepth hfront
      -- the scope was not left before the last event either
      have hinside : 0 ≤ height after :=
        hfront after ((List.mem_inits _ _).mpr (List.prefix_append _ _))
      refine .inr ⟨(height after).toNat, ⟨after, rfl, (Int.toNat_of_nonneg hinside).symm, ?_⟩, ?_⟩
      · intro front hmem
        exact hfront front ((List.mem_inits _ _).mpr
          (((List.mem_inits _ _).mp hmem).trans (List.prefix_append _ _)))
      · rw [height_append] at hdepth
        omega
  · rintro (⟨rfl, rfl, rfl⟩ | ⟨depth', ⟨after, rfl, hdepth', hfront⟩, hdepth⟩)
    · refine ⟨[], rfl, rfl, fun front hmem => ?_⟩
      rw [List.eq_nil_of_prefix_nil ((List.mem_inits _ _).mp hmem)]
      exact Int.le_refl 0
    · have hheight : height (after ++ [event]) = depth := by
        rw [height_append, hdepth', hdepth]
      refine ⟨after ++ [event], by simp, hheight, fun front hmem => ?_⟩
      rcases List.prefix_concat_iff.mp ((List.mem_inits _ _).mp hmem) with rfl | hinside
      · rw [hheight]
        exact Int.natCast_nonneg depth
      · exact hfront front ((List.mem_inits _ _).mpr hinside)

/-- Entering a scope moves every binding one level out. -/
theorem holds_entered : Holds (past ++ [entered]) depth name symbol before ↔
    ∃ outer, depth = outer + 1 ∧ Holds past outer name symbol before := by
  have hheight : height [entered] = 1 := rfl
  rw [holds_concat, hheight]
  constructor
  · rintro (⟨-, hevent, -⟩ | ⟨outer, houter, hdepth⟩)
    · cases hevent
    · exact ⟨outer, by omega, houter⟩
  · rintro ⟨outer, rfl, houter⟩
    exact .inr ⟨outer, houter, by omega⟩

/-- Leaving a scope moves every binding one level in. -/
theorem holds_left : Holds (past ++ [left]) depth name symbol before ↔
    Holds past (depth + 1) name symbol before := by
  have hheight : height [left] = -1 := rfl
  rw [holds_concat, hheight]
  constructor
  · rintro (⟨-, hevent, -⟩ | ⟨inner, hinner, hdepth⟩)
    · cases hevent
    · obtain rfl : inner = depth + 1 := by omega
      exact hinner
  · intro h
    exact .inr ⟨depth + 1, h, by omega⟩

/-- An insertion is the only new binding. -/
theorem holds_inserted {name' : String} {symbol' : Symbol} :
    Holds (past ++ [inserted name' symbol']) depth name symbol before ↔
      (before = past ∧ name' = name ∧ symbol' = symbol ∧ depth = 0) ∨
        Holds past depth name symbol before := by
  have hheight : height [inserted name' symbol'] = 0 := rfl
  rw [holds_concat, hheight]
  constructor
  · rintro (⟨rfl, hevent, rfl⟩ | ⟨depth', hdepth', hdepth⟩)
    · cases hevent
      exact .inl ⟨rfl, rfl, rfl, rfl⟩
    · obtain rfl : depth' = depth := by omega
      exact .inr hdepth'
  · rintro (⟨rfl, rfl, rfl, rfl⟩ | h)
    · exact .inl ⟨rfl, rfl, rfl⟩
    · exact .inr ⟨depth, h, by omega⟩

/-- Events that move no scope and insert nothing change no binding. -/
theorem holds_idle (hheight : height [event] = 0)
    (hidle : ∀ name symbol, event ≠ inserted name symbol) :
    Holds (past ++ [event]) depth name symbol before ↔ Holds past depth name symbol before := by
  rw [holds_concat, hheight]
  constructor
  · rintro (⟨-, hevent, -⟩ | ⟨depth', hdepth', hdepth⟩)
    · exact absurd hevent (hidle name symbol)
    · obtain rfl : depth' = depth := by omega
      exact hdepth'
  · intro h
    exact .inr ⟨depth, h, by omega⟩

/-! ## Tables and what happened to them -/

/-- The table has a scope for every one that is open, with what was inserted in it; no name was
inserted there twice. -/
structure Records (table : SymbolTable) (past : List Event) : Prop where
  level : (table.level : Int) = height past
  lookup : ∀ depth name symbol,
    table.lookupAt depth name = some symbol ↔ ∃ before, Holds past depth name symbol before
  once : ∀ {depth name symbol symbol' before before'}, Holds past depth name symbol before →
    Holds past depth name symbol' before' → before = before'

namespace Records

/-- A name is unbound at a depth exactly if no insertion holds there. -/
theorem lookupAt_eq_none_iff (h : Records table past) :
    table.lookupAt depth name = none ↔ ∀ symbol before, ¬ Holds past depth name symbol before := by
  rw [Option.eq_none_iff_forall_ne_some]
  constructor
  · intro hnone symbol before hold
    exact hnone symbol ((h.lookup depth name symbol).mpr ⟨before, hold⟩)
  · intro hnone symbol hsome
    obtain ⟨before, hold⟩ := (h.lookup depth name symbol).mp hsome
    exact hnone symbol before hold

theorem empty : Records Scopes.empty [] where
  level := rfl
  lookup depth name symbol := by
    have hnone : (Scopes.empty : SymbolTable).lookupAt depth name = none := by
      cases depth <;> rfl
    simp [hnone, not_holds_nil]
  once h := absurd h not_holds_nil

/-- Entering a scope is recorded. -/
theorem push (h : Records table past) : Records table.push (past ++ [entered]) where
  level := by
    have hheight : height [entered] = 1 := rfl
    rw [height_append, hheight, Scopes.level_push, ← h.level]
    rfl
  lookup depth name symbol := by
    simp only [holds_entered]
    cases depth with
    | zero => simp
    | succ depth => simp [h.lookup]
  once hfirst hsecond := by
    obtain ⟨outer, rfl, hearlier⟩ := holds_entered.mp hfirst
    obtain ⟨outer', houter, hearlier'⟩ := holds_entered.mp hsecond
    obtain rfl := Nat.succ.inj houter
    exact h.once hearlier hearlier'

/-- Leaving a scope is recorded. -/
theorem drop (h : Records table past) {outer : SymbolTable} (hpop : table.pop? = some outer) :
    Records outer (past ++ [left]) where
  level := by
    have hlevel := Scopes.level_pop? hpop
    have hheight : height [left] = -1 := rfl
    rw [height_append, hheight, ← h.level]
    omega
  lookup depth name symbol := by
    simp only [holds_left]
    rw [Scopes.lookupAt_of_pop? hpop]
    exact h.lookup (depth + 1) name symbol
  once hfirst hsecond := h.once (holds_left.mp hfirst) (holds_left.mp hsecond)

/-- A first insertion is recorded. -/
theorem insert (h : Records table past) (hnew : table.lookupAt 0 name = none) (symbol : Symbol) :
    Records (table.bind name symbol) (past ++ [inserted name symbol]) where
  level := by
    have hheight : height [inserted name symbol] = 0 := rfl
    rw [height_append, hheight, Scopes.level_bind, Int.add_zero]
    exact h.level
  lookup depth other symbol' := by
    have hnot := h.lookupAt_eq_none_iff.mp hnew
    simp only [holds_inserted]
    cases depth with
    | zero =>
      rw [Scopes.lookupAt_bind_zero]
      by_cases hother : other = name
      · subst hother
        simp [hnot]
      · simp [hother, Ne.symm hother, h.lookup]
    | succ depth => simp [h.lookup]
  once hfirst hsecond := by
    -- the innermost scope did not hold the name before
    have hnot := h.lookupAt_eq_none_iff.mp hnew
    rcases holds_inserted.mp hfirst with ⟨rfl, rfl, -, rfl⟩ | hearlier <;>
      rcases holds_inserted.mp hsecond with ⟨rfl, hname, -, hdepth⟩ | hearlier'
    · rfl
    · exact absurd hearlier' (hnot _ _)
    · subst hname hdepth
      exact absurd hearlier (hnot _ _)
    · exact h.once hearlier hearlier'

/-- A request that is refused, or asks for a symbol, changes nothing. -/
theorem idle (h : Records table past) (hheight : height [event] = 0)
    (hidle : ∀ name symbol, event ≠ inserted name symbol) : Records table (past ++ [event]) where
  level := by
    rw [height_append, hheight, Int.add_zero]
    exact h.level
  lookup depth name symbol := by
    simp only [holds_idle hheight hidle]
    exact h.lookup depth name symbol
  once hfirst hsecond :=
    h.once ((holds_idle hheight hidle).mp hfirst) ((holds_idle hheight hidle).mp hsecond)

/-- What a table records after one more request. -/
theorem serve (h : Records table past) (request : Request) :
    Records (table.serve request).1 (past ++ [⟨request, (table.serve request).2⟩]) := by
  cases request with
  | push => exact h.push
  | drop =>
    cases hdrop : table.drop with
    | ok outer =>
      simp only [SymbolTable.serve, hdrop, settle]
      exact h.drop (drop_eq_ok hdrop)
    | error error =>
      simp only [SymbolTable.serve, hdrop, settle]
      exact h.idle rfl nofun
  | insert name symbol =>
    cases hinsert : table.insert name symbol with
    | ok changed =>
      obtain ⟨hnew, rfl⟩ := insert_eq_ok hinsert
      simp only [SymbolTable.serve, hinsert, settle]
      exact h.insert hnew symbol
    | error error =>
      simp only [SymbolTable.serve, hinsert, settle]
      exact h.idle rfl nofun
  | get name => exact h.idle rfl nofun

/-- What a table records after several requests. -/
theorem after (h : Records table past) (requests : List Request) :
    Records (table.after requests) (past ++ table.events requests) := by
  induction requests generalizing table past with
  | nil =>
    rw [events, List.append_nil]
    exact h
  | cons request rest ih =>
    have hrest := ih (h.serve request)
    rw [List.append_assoc] at hrest
    exact hrest

/-! ### What the answers say -/

theorem insert_eq_error_iff (h : Records table past) (name : String) (symbol : Symbol) :
    (∃ error, table.insert name symbol = .error error) ↔
      name = "" ∨ ∃ symbol' before, Holds past 0 name symbol' before := by
  rw [SymbolTable.insert_eq_error_iff, Option.isSome_iff_exists]
  simp only [h.lookup]

theorem find?_eq_none_iff (h : Records table past) (name : String) :
    table.find? name = none ↔ ∀ depth symbol before, ¬ Holds past depth name symbol before := by
  rw [Scopes.find?_eq_none_iff]
  simp only [h.lookupAt_eq_none_iff]

/-- The symbol that is found is the first one inserted in the innermost live scope. -/
theorem find?_eq_some_iff (h : Records table past) (name : String) (symbol : Symbol) :
    table.find? name = some symbol ↔ FirstInnermost past name symbol := by
  rw [Scopes.find?_eq_some_iff]
  constructor
  · rintro ⟨depth, hsymbol, hinner⟩
    obtain ⟨before, hold⟩ := (h.lookup depth name symbol).mp hsymbol
    refine ⟨depth, before, hold, fun depth' symbol' before' hold' => ?_⟩
    rcases Nat.lt_trichotomy depth depth' with hlt | rfl | hlt
    · exact .inl hlt
    · exact .inr ⟨rfl, Nat.le_of_eq (congrArg List.length (h.once hold hold'))⟩
    · exact absurd hold' (h.lookupAt_eq_none_iff.mp (hinner depth' hlt) _ _)
  · rintro ⟨depth, before, hold, hfirst⟩
    refine ⟨depth, (h.lookup depth name symbol).mpr ⟨before, hold⟩, fun inner hinner => ?_⟩
    rw [h.lookupAt_eq_none_iff]
    intro symbol' before' hold'
    rcases hfirst inner symbol' before' hold' with hlt | ⟨rfl, -⟩ <;> omega

end Records

/-! ## Tables to start with -/

namespace Records

/-- A table shows its symbols by look-ups only. -/
theorem congr (h : Records table past) {table' : SymbolTable} (hlevel : table'.level = table.level)
    (hlookup : ∀ depth name, table'.lookupAt depth name = table.lookupAt depth name) :
    Records table' past where
  level := hlevel ▸ h.level
  lookup depth name symbol := hlookup depth name ▸ h.lookup depth name symbol
  once := h.once

/-- In a single scope the names are inserted one after the other. -/
theorem scope {scope : Scope Symbol} (hnames : (scope.map Prod.fst).Nodup) :
    Records ⟨[], scope⟩ (scope.map fun entry => inserted entry.1 entry.2) := by
  induction scope using List.reverseRecOn with
  | nil => exact empty
  | append_singleton scope entry ih =>
    obtain ⟨name, symbol⟩ := entry
    rw [List.map_append, List.nodup_append] at hnames
    obtain ⟨hscope, -, hnew⟩ := hnames
    have hnone : scope.lookup name = none := by
      rw [List.lookup_eq_none_iff]
      intro other hother
      rw [bne_iff_ne]
      exact (hnew other.1 (List.mem_map_of_mem hother) name (List.mem_singleton_self _)).symm
    rw [List.map_append]
    refine ((ih hscope).insert hnone symbol).congr rfl fun depth other => ?_
    cases depth with
    | zero =>
      show (scope ++ [(name, symbol)]).lookup other = ((name, symbol) :: scope).lookup other
      rw [List.lookup_append, Scopes.lookup_cons, Scopes.lookup_cons]
      by_cases hother : other = name
      · simp [hother, hnone]
      · simp [hother]
    | succ depth => rfl

theorem start (start : Start) : Records start.table start.events := by
  cases start with
  | empty => exact empty
  | predeclared => exact scope (by decide)

end Records

/-! ## Balanced requests -/

/-- As many scopes are left as entered, and none that was not entered. -/
def Balanced (requests : List Request) : Prop :=
  requests.count .drop = requests.count .push ∧
    ∀ front ∈ requests.inits, front.count .drop ≤ front.count .push

instance (requests : List Request) : Decidable (Balanced requests) :=
  inferInstanceAs (Decidable (_ ∧ _))

theorem exists_drop_eq_ok (h : 0 < table.level) : ∃ outer, table.drop = .ok outer := by
  cases hdrop : table.drop with
  | ok outer => exact ⟨outer, rfl⟩
  | error error =>
    have hlevel := (drop_eq_error_iff table).mp ⟨error, hdrop⟩
    omega

/-- A request reaches the scopes around the innermost `depth + 1` ones only if it leaves all of
these. -/
theorem drop_all_serve {base : SymbolTable} {request : Request} {next : Nat}
    (h : table.all.drop (depth + 1) = base.all)
    (hnext : next + [request].count .drop = depth + [request].count .push) :
    (table.serve request).1.all.drop (next + 1) = base.all := by
  cases request with
  | push =>
    obtain rfl : next = depth + 1 := hnext
    exact h
  | drop =>
    obtain rfl : next + 1 = depth := hnext
    -- under the innermost scope there is still the one of the base
    have hlevel : 0 < table.level := by
      have hlength := congrArg List.length h
      rw [List.length_drop, Scopes.length_all, Scopes.length_all] at hlength
      omega
    obtain ⟨outer, hdrop⟩ := exists_drop_eq_ok hlevel
    have houter := Scopes.tail_all_of_pop? (drop_eq_ok hdrop)
    simp only [serve, hdrop, settle]
    rw [← houter, List.drop_tail]
    exact h
  | insert name symbol =>
    obtain rfl : next = depth := hnext
    cases hinsert : table.insert name symbol with
    | ok changed =>
      obtain ⟨-, rfl⟩ := insert_eq_ok hinsert
      simp only [serve, hinsert, settle]
      rw [← List.drop_tail, Scopes.tail_all_bind, List.drop_tail]
      exact h
    | error error =>
      simp only [serve, hinsert, settle]
      exact h
  | get name =>
    obtain rfl : next = depth := hnext
    exact h

/-- Requests that never drop below their start keep the scopes under it. -/
theorem drop_all_after {base : SymbolTable} {requests : List Request} {final : Nat}
    (h : table.all.drop (depth + 1) = base.all)
    (hfront : ∀ front, front <+: requests → front.count .drop ≤ depth + front.count .push)
    (hfinal : final + requests.count .drop = depth + requests.count .push) :
    (table.after requests).all.drop (final + 1) = base.all := by
  induction requests generalizing table depth with
  | nil =>
    obtain rfl : final = depth := hfinal
    exact h
  | cons request rest ih =>
    have hfirst := hfront [request] (List.prefix_append [request] rest)
    obtain ⟨next, hnext⟩ := Nat.le.dest hfirst
    rw [Nat.add_comm] at hnext
    apply ih (drop_all_serve h hnext)
    · intro front hmore
      have hcount := hfront (request :: front) (List.cons_prefix_cons.mpr ⟨rfl, hmore⟩)
      rw [← List.singleton_append, List.count_append, List.count_append] at hcount
      omega
    · rw [← List.singleton_append, List.count_append, List.count_append] at hfinal
      omega

/-- Balanced requests in a scope of their own leave no trace. -/
theorem Balanced.after_scope {body : List Request} (h : Balanced body) (table : SymbolTable) :
    table.after (.push :: (body ++ [.drop])) = table := by
  obtain ⟨hcount, hfront⟩ := h
  have hbase : table.push.all.drop (0 + 1) = table.all := rfl
  have hopen (front : List Request) (hmore : front <+: body) :
      front.count .drop ≤ 0 + front.count .push := by
    rw [Nat.zero_add]
    exact hfront front ((List.mem_inits _ _).mpr hmore)
  have hclosed : 0 + body.count .drop = 0 + body.count .push := congrArg (0 + ·) hcount
  have hall := drop_all_after hbase hopen hclosed
  have hpop := Scopes.pop?_of_tail_all (List.drop_one ▸ hall)
  have hafter : table.after (.push :: (body ++ [.drop])) =
      (serve (after table.push body) .drop).1 :=
    after_append table.push body [.drop]
  rw [hafter, serve, drop, hpop]
  rfl

/-- A symbol table is a stack of scopes in which the first insertion wins, whatever it was asked
before.  Its level is the number of scopes that were entered and not left, and only at level zero
no scope can be left.  A name is refused exactly if it is empty or was inserted in the innermost
scope, and what is refused changes nothing.  A name is found as it was inserted first in the
innermost of the open scopes in which it was inserted, and not found if there is none.  Balanced
requests in a scope of their own give the same table as before. -/
theorem answers_by_first_insertion (start : Start) (requests : List Request) :
    let table := start.table.after requests
    let past := start.events ++ start.table.events requests
    table.level + past.count left = past.count entered ∧
    ((∃ error, table.drop = .error error) ↔ table.level = 0) ∧
    (∀ name symbol, (∃ error, table.insert name symbol = .error error) ↔
      name = "" ∨ ∃ symbol' before, Holds past 0 name symbol' before) ∧
    (∀ request error, (table.serve request).2 = .refused error → (table.serve request).1 = table) ∧
    (∀ name symbol, table.find? name = some symbol ↔ FirstInnermost past name symbol) ∧
    (∀ name, table.find? name = none ↔ ∀ depth symbol before,
      ¬ Holds past depth name symbol before) ∧
    ∀ body, Balanced body → table.after (.push :: (body ++ [.drop])) = table := by
  intro table past
  have hrecords : Records table past := (Records.start start).after requests
  refine ⟨?_, drop_eq_error_iff table, hrecords.insert_eq_error_iff, serve_of_refused table,
    hrecords.find?_eq_some_iff, hrecords.find?_eq_none_iff, fun body hbody =>
      hbody.after_scope table⟩
  have hlevel := hrecords.level
  unfold height at hlevel
  omega

def shadowing : List Request :=
  [.insert "x" ⟨.variable, false⟩, .insert "x" ⟨.constant, true⟩,
    .insert "INTEGER" ⟨.type, true⟩, .push, .insert "x" ⟨.procedure, true⟩, .drop, .drop, .push,
    .insert "INTEGER" ⟨.parameter, false⟩, .insert "INTEGER" ⟨.constant, false⟩,
    .insert "" ⟨.constant, false⟩]

def excursion : List Request :=
  [.push, .push, .insert "x" ⟨.type, false⟩, .drop, .get "x", .drop, .insert "y" ⟨.module, false⟩,
    .insert "y" ⟨.type, false⟩]

theorem answers_by_first_insertion_shadowing :
    let table := Start.predeclared.table.after shadowing
    let past := Start.predeclared.events ++ Start.predeclared.table.events shadowing
    past.count entered = 2 ∧ past.count left = 1 ∧ table.level = 1 ∧
      FirstInnermost past "x" ⟨.variable, false⟩ ∧
      FirstInnermost past "INTEGER" ⟨.parameter, false⟩ ∧
      FirstInnermost past "TRUE" ⟨.constant, false⟩ ∧ Balanced excursion ∧
      table.after (.push :: (excursion ++ [.drop])) = table := by
  obtain ⟨hlevel, -, -, -, hfound, -, hscope⟩ := answers_by_first_insertion .predeclared shadowing
  refine ⟨by decide, by decide, ?_, (hfound _ _).mp (by decide), (hfound _ _).mp (by decide),
    (hfound _ _).mp (by decide), by decide, hscope excursion (by decide)⟩
  exact Nat.add_right_cancel hlevel

end Oberon.SymbolTable
