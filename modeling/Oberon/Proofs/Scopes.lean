import Oberon.Scope

/-!
# Nested scopes as a list

All scopes in a row, innermost first.  Entering a scope puts an empty one in front, leaving it
takes the first one away, and a binding changes the first one only.  A name is found in the first
scope that binds it.
-/

namespace Oberon.Scopes

variable {α : Type}

def all (s : Scopes α) : List (Scope α) :=
  s.inner ++ [s.outermost]

/-- There is one scope more than the level says. -/
@[simp]
theorem length_all (s : Scopes α) : s.all.length = s.level + 1 := by
  simp [all, level]

@[simp]
theorem tail_all_push (s : Scopes α) : s.push.all.tail = s.all :=
  rfl

@[simp]
theorem tail_all_bind (s : Scopes α) (name : String) (value : α) :
    (s.bind name value).all.tail = s.all.tail := by
  obtain ⟨inner, outermost⟩ := s
  cases inner <;> rfl

/-- A binding changes nothing for other names. -/
theorem lookup_innermost_bind (s : Scopes α) {name other : String} (value : α) (h : other ≠ name) :
    (s.bind name value).innermost.lookup other = s.innermost.lookup other := by
  obtain ⟨inner, outermost⟩ := s
  cases inner <;> exact (lookup_cons _ name other value).trans (if_neg h)

/-- Scopes are given by the list of all of them. -/
theorem ext_all {s t : Scopes α} (h : s.all = t.all) : s = t := by
  obtain ⟨hinner, houtermost⟩ := List.append_inj' h rfl
  obtain ⟨inner, outermost⟩ := s
  obtain rfl : inner = t.inner := hinner
  obtain rfl : outermost = t.outermost := List.singleton_inj.mp houtermost
  rfl

theorem level_eq_of_tail_all {s t : Scopes α} (h : s.all.tail = t.all.tail) :
    s.level = t.level := by
  have hlength := congrArg List.length h
  simpa only [List.length_tail, length_all, Nat.add_sub_cancel] using hlength

/-- Only the outermost scope cannot be left. -/
theorem pop?_of_tail_all {s t : Scopes α} (h : s.all.tail = t.all) : s.pop? = some t := by
  obtain ⟨inner, outermost⟩ := s
  cases inner with
  | nil =>
    have hlength := congrArg List.length h
    rw [length_all] at hlength
    cases hlength
  | cons scope inner => exact congrArg some (ext_all h)

/-- Popping drops the head of the list. -/
theorem tail_all_of_pop? {s t : Scopes α} (h : s.pop? = some t) : s.all.tail = t.all := by
  obtain ⟨inner, outermost⟩ := s
  cases inner with
  | nil => cases h
  | cons scope inner =>
    cases h
    rfl

theorem level_pop? {s t : Scopes α} (h : s.pop? = some t) : s.level = t.level + 1 := by
  have hlength := congrArg List.length (tail_all_of_pop? h)
  simpa only [List.length_tail, length_all, Nat.add_sub_cancel] using hlength

/-- Only the outermost scope cannot be popped. -/
theorem pop?_eq_none_iff (s : Scopes α) : s.pop? = none ↔ s.level = 0 := by
  obtain ⟨inner, outermost⟩ := s
  cases inner <;> simp [pop?, level]

/-! ## Scopes by their depth -/

/-- The binding of a name in the scope inside which there are `depth` others. -/
def lookupAt (s : Scopes α) (depth : Nat) (name : String) : Option α :=
  s.all[depth]?.bind (List.lookup name)

@[simp]
theorem lookupAt_push_zero (s : Scopes α) (name : String) : s.push.lookupAt 0 name = none :=
  rfl

/-- Under a new scope everything is one level deeper. -/
@[simp]
theorem lookupAt_push_succ (s : Scopes α) (depth : Nat) (name : String) :
    s.push.lookupAt (depth + 1) name = s.lookupAt depth name :=
  rfl

theorem lookupAt_succ {s t : Scopes α} (h : s.all.tail = t.all.tail) (depth : Nat) (name : String) :
    s.lookupAt (depth + 1) name = t.lookupAt (depth + 1) name := by
  unfold lookupAt
  rw [← List.getElem?_tail, ← List.getElem?_tail, h]

/-- Without the innermost scope everything is one level less deep. -/
theorem lookupAt_of_pop? {s t : Scopes α} (h : s.pop? = some t) (depth : Nat) (name : String) :
    t.lookupAt depth name = s.lookupAt (depth + 1) name := by
  unfold lookupAt
  rw [← List.getElem?_tail, tail_all_of_pop? h]

theorem lookupAt_zero (s : Scopes α) (name : String) :
    s.lookupAt 0 name = s.innermost.lookup name := by
  obtain ⟨inner, outermost⟩ := s
  cases inner <;> rfl

/-- A binding shows in the innermost scope. -/
theorem lookupAt_bind_zero (s : Scopes α) (name other : String) (value : α) :
    (s.bind name value).lookupAt 0 other = if other = name then some value
      else s.lookupAt 0 other := by
  obtain ⟨inner, outermost⟩ := s
  cases inner <;> exact lookup_cons _ name other value

/-- A binding does not show in the outer scopes. -/
@[simp]
theorem lookupAt_bind_succ (s : Scopes α) (depth : Nat) (name other : String) (value : α) :
    (s.bind name value).lookupAt (depth + 1) other = s.lookupAt (depth + 1) other :=
  lookupAt_succ (tail_all_bind s name value) depth other

theorem isLocal_eq (s : Scopes α) (name : String) :
    s.isLocal name = (s.lookupAt 0 name).isSome := by
  rw [isLocal, lookupAt_zero]

theorem find?_eq_findSome? (s : Scopes α) (name : String) :
    s.find? name = s.all.findSome? (List.lookup name) := by
  have hlast : [s.outermost].findSome? (List.lookup name) = s.outermost.lookup name := by
    rw [List.findSome?_cons, List.findSome?_nil]
    cases s.outermost.lookup name <;> rfl
  rw [find?, all, List.findSome?_append, hlast]

/-- A name that is not found is bound at no depth. -/
theorem find?_eq_none_iff (s : Scopes α) (name : String) :
    s.find? name = none ↔ ∀ depth, s.lookupAt depth name = none := by
  rw [find?_eq_findSome?, List.findSome?_eq_none_iff]
  unfold lookupAt
  constructor
  · intro h depth
    rw [Option.bind_eq_none_iff]
    exact fun scope hscope => h scope (List.mem_of_getElem? hscope)
  · intro h scope hscope
    obtain ⟨depth, hdepth⟩ := List.mem_iff_getElem?.mp hscope
    have hnone := h depth
    rwa [hdepth] at hnone

/-- What is found is bound at some depth and nowhere further in. -/
theorem lookupAt_of_find? {s : Scopes α} {name : String} {value : α}
    (h : s.find? name = some value) :
    ∃ depth, s.lookupAt depth name = some value ∧
      ∀ inner < depth, s.lookupAt inner name = none := by
  rw [find?_eq_findSome?, List.findSome?_eq_some_iff] at h
  obtain ⟨inside, scope, around, hall, hscope, hnone⟩ := h
  unfold lookupAt
  rw [hall]
  refine ⟨inside.length, ?_, fun depth hdepth => ?_⟩
  · rw [List.getElem?_append_right (Nat.le_refl _), Nat.sub_self]
    exact hscope
  · rw [List.getElem?_append_left hdepth, List.getElem?_eq_getElem hdepth]
    exact hnone _ (List.getElem_mem hdepth)

/-- A name is found in the innermost scope that binds it. -/
theorem find?_eq_some_iff (s : Scopes α) (name : String) (value : α) :
    s.find? name = some value ↔
      ∃ depth, s.lookupAt depth name = some value ∧
        ∀ inner < depth, s.lookupAt inner name = none := by
  refine ⟨lookupAt_of_find?, ?_⟩
  rintro ⟨depth, hvalue, hinner⟩
  cases hfound : s.find? name with
  | none =>
    rw [(find?_eq_none_iff s name).mp hfound depth] at hvalue
    cases hvalue
  | some found =>
    -- two innermost scopes are the same
    obtain ⟨depth', hvalue', hinner'⟩ := lookupAt_of_find? hfound
    rcases Nat.lt_trichotomy depth depth' with hlt | rfl | hlt
    · rw [hinner' depth hlt] at hvalue
      cases hvalue
    · rw [← hvalue', hvalue]
    · rw [hinner depth' hlt] at hvalue'
      cases hvalue'

end Oberon.Scopes
