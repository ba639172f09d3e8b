/-!
# Nested scopes

A stack of scopes that is never empty: the outermost scope always stays.  Within a scope the latest
binding of a name counts, and an inner scope hides the outer ones.
-/

namespace Oberon

abbrev Scope (α : Type) :=
  List (String × α)

/-- Nested scopes: the inner ones, innermost first, and the outermost. -/
structure Scopes (α : Type) where
  inner : List (Scope α)
  outermost : Scope α
deriving DecidableEq, Repr

namespace Scopes

variable {α : Type}

def empty : Scopes α :=
  ⟨[], []⟩

def level (s : Scopes α) : Nat :=
  s.inner.length

def innermost (s : Scopes α) : Scope α :=
  s.inner.headD s.outermost

def push (s : Scopes α) : Scopes α :=
  ⟨[] :: s.inner, s.outermost⟩

/-- Leaves the innermost scope, unless it is the outermost one. -/
def pop? (s : Scopes α) : Option (Scopes α) :=
  match s.inner with
  | [] => none
  | _ :: inner => some ⟨inner, s.outermost⟩

def bind (s : Scopes α) (name : String) (value : α) : Scopes α :=
  match s.inner with
  | [] => ⟨[], (name, value) :: s.outermost⟩
  | scope :: inner => ⟨((name, value) :: scope) :: inner, s.outermost⟩

def isLocal (s : Scopes α) (name : String) : Bool :=
  (s.innermost.lookup name).isSome

/-- The binding of a name in the innermost scope that has one. -/
def find? (s : Scopes α) (name : String) : Option α :=
  (s.inner.findSome? (List.lookup name)).or (s.outermost.lookup name)

/-- A scope that was entered can be left again. -/
@[simp]
theorem pop?_push (s : Scopes α) : s.push.pop? = some s :=
  rfl

@[simp]
theorem level_push (s : Scopes α) : s.push.level = s.level + 1 :=
  rfl

@[simp]
theorem level_bind (s : Scopes α) (name : String) (value : α) :
    (s.bind name value).level = s.level := by
  unfold bind level
  split <;> simp_all

/-- An empty scope hides nothing. -/
@[simp]
theorem find?_push (s : Scopes α) (name : String) : s.push.find? name = s.find? name :=
  rfl

theorem lookup_cons (scope : Scope α) (name other : String) (value : α) :
    List.lookup other ((name, value) :: scope) =
      if other = name then some value else List.lookup other scope := by
  by_cases h : other = name
  · simp [h]
  · rw [List.lookup_cons, beq_eq_false_iff_ne.mpr h, if_neg h]

/-- A new binding is found under its name, and changes nothing else. -/
theorem find?_bind (s : Scopes α) (name other : String) (value : α) :
    (s.bind name value).find? other = if other = name then some value else s.find? other := by
  unfold bind find?
  split
  next h =>
    rw [h]
    simp only [List.findSome?_nil, Option.none_or, lookup_cons]
  next scope inner h =>
    rw [h]
    simp only [List.findSome?_cons, lookup_cons]
    by_cases hname : other = name <;> simp [hname]

end Scopes

end Oberon
