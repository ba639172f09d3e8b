import Mathlib.Data.Rat.Floor
import Oberon.Proofs.Constant.Meaning

/-!
# Expressions of integers

Integers are evaluated in 64 bits, with a division that rounds towards zero and is corrected
afterwards.  Main statement: an expression of integers has the value that it has over all
integers, as long as no operation on the way divides by zero or leaves the 64 bits, and the first
one that does is the error.
-/

namespace Oberon

/-! ## Division in 64 bits -/

section Division

variable {left right : Int64}

/-- The machine quotient is the exact one, rounded towards zero, wherever it does not overflow. -/
theorem toInt_div (h : ¬ (left = Int64.minValue ∧ right = -1)) :
    (left / right).toInt = left.toInt.tdiv right.toInt := by
  by_cases hleft : left = Int64.minValue
  · exact Int64.toInt_div_of_ne_right left right fun hright => h ⟨hleft, hright⟩
  · exact Int64.toInt_div_of_ne_left left right hleft

theorem toInt_ne_zero (h : right ≠ 0) : right.toInt ≠ 0 := by
  intro hzero
  exact h (Int64.toInt_inj.mp hzero)

/-- The quotient has been rounded up if the remainder is on the other side of zero. -/
theorem roundedUp_iff {remainder : Int64} : roundedUp remainder right = true ↔
    remainder.toInt ≠ 0 ∧ ¬ (remainder.toInt < 0 ↔ right.toInt < 0) := by
  have hzero : remainder ≠ 0 ↔ remainder.toInt ≠ 0 := not_congr Int64.toInt_inj.symm
  have hsides : decide (remainder < 0) ≠ decide (right < 0) ↔
      ¬ (remainder.toInt < 0 ↔ right.toInt < 0) := by
    rw [Ne, decide_eq_decide, Int64.lt_iff_toInt_lt, Int64.lt_iff_toInt_lt]
    rfl
  rw [roundedUp, Bool.and_eq_true, decide_eq_true_eq, bne_iff_ne, hzero, hsides]

/-- The corrections of a division towards zero do not leave the 64 bits. -/
structure CorrectsExactly (left right : Int64) : Prop where
  quotient : (left / right - 1).toInt = (left / right).toInt - 1
  remainder : (left % right + right).toInt = (left % right).toInt + right.toInt

/-- A quotient that was rounded up can be lowered, and its remainder raised, without overflow. -/
theorem correctsExactly (hzero : right ≠ 0) (h : ¬ (left = Int64.minValue ∧ right = -1))
    (hup : roundedUp (left % right) right = true) : CorrectsExactly left right := by
  obtain ⟨hremains, hside⟩ := roundedUp_iff.mp hup
  have hright := toInt_ne_zero hzero
  rw [Int64.toInt_mod] at hremains hside
  have hless : (left.toInt.tmod right.toInt).natAbs < right.toInt.natAbs := by
    rw [Int.natAbs_tmod]
    exact Nat.mod_lt _ (Int.natAbs_pos.mpr hright)
  have hlow := right.le_toInt
  have hhigh := right.toInt_lt
  constructor
  · -- the divisor is at least two, so the quotient is at most half as large as an integer can be
    have hhalf : (left.toInt.tdiv right.toInt).natAbs ≤ 2 ^ 63 / 2 := by
      have hlow := left.le_toInt
      have hhigh := left.toInt_lt
      rw [Int.natAbs_tdiv]
      calc left.toInt.natAbs / right.toInt.natAbs ≤ left.toInt.natAbs / 2 :=
            Nat.div_le_div_left (by omega) (by decide)
        _ ≤ 2 ^ 63 / 2 := Nat.div_le_div_right (by omega)
    rw [Int64.toInt_sub, toInt_div h]
    exact Int.bmod_eq_of_le (by rw [Int64.toInt_one]; omega) (by rw [Int64.toInt_one]; omega)
  · rw [Int64.toInt_add, Int64.toInt_mod]
    exact Int.bmod_eq_of_le (by omega) (by omega)

/-- What is left of the divisor's sign and smaller than it belongs to the floor of the
quotient. -/
theorem floored_unique {a b q r : ℤ} (hsum : r + b * q = a) (hsize : r.natAbs < b.natAbs)
    (hside : r ≠ 0 → (r < 0 ↔ b < 0)) : a.fdiv b = q ∧ a.fmod b = r := by
  rcases lt_trichotomy b 0 with hneg | rfl | hpos
  · exact (Int.fdiv_fmod_unique' hneg).mpr ⟨hsum, by omega, by omega⟩
  · exact absurd hsize (Nat.not_lt_zero _)
  · exact (Int.fdiv_fmod_unique hpos).mpr ⟨hsum, by omega, by omega⟩

/-- With the correction, quotient and remainder are those of division towards minus infinity. -/
theorem toInt_floored (hzero : right ≠ 0) (h : ¬ (left = Int64.minValue ∧ right = -1)) :
    (flooredQuotient left right).toInt = left.toInt.fdiv right.toInt ∧
      (flooredRemainder left right).toInt = left.toInt.fmod right.toInt := by
  have hsum := Int.tmod_add_mul_tdiv left.toInt right.toInt
  have hless : (left.toInt.tmod right.toInt).natAbs < right.toInt.natAbs := by
    rw [Int.natAbs_tmod]
    exact Nat.mod_lt _ (Int.natAbs_pos.mpr (toInt_ne_zero hzero))
  unfold flooredQuotient flooredRemainder
  by_cases hup : roundedUp (left % right) right = true
  · have hexact := correctsExactly hzero h hup
    obtain ⟨hremains, hside⟩ := roundedUp_iff.mp hup
    rw [Int64.toInt_mod] at hremains hside
    rw [if_pos hup, if_pos hup, hexact.quotient, hexact.remainder, toInt_div h, Int64.toInt_mod]
    have hfloored := floored_unique (a := left.toInt) (b := right.toInt)
      (q := left.toInt.tdiv right.toInt - 1) (r := left.toInt.tmod right.toInt + right.toInt)
      (by rw [mul_sub]; omega) (by omega) (by omega)
    exact ⟨hfloored.1.symm, hfloored.2.symm⟩
  · have hside := mt roundedUp_iff.mpr hup
    rw [Int64.toInt_mod] at hside
    rw [if_neg hup, if_neg hup, toInt_div h, Int64.toInt_mod]
    have hfloored := floored_unique hsum hless (by tauto)
    exact ⟨hfloored.1.symm, hfloored.2.symm⟩

end Division

/-! ## Evaluation over all integers -/

inductive IntegerOperator where
  | plus
  | minus
  | times
  | div
  | mod

namespace IntegerOperator

/-- What an operator gives over all integers; whole quotients are rounded towards negative
infinity. -/
def exact : IntegerOperator → ℤ → ℤ → ℤ
  | plus, left, right => left + right
  | minus, left, right => left - right
  | times, left, right => left * right
  | div, left, right => ⌊(left : ℚ) / right⌋
  | mod, left, right => left - right * ⌊(left : ℚ) / right⌋

def operation : IntegerOperator → Operation
  | plus => .addition
  | minus => .subtraction
  | times => .multiplication
  | div => .div
  | mod => .mod

def divides : IntegerOperator → Bool
  | div | mod => true
  | _ => false

end IntegerOperator

/-- One operation of an evaluation, with the operands that it has over all integers. -/
inductive IntegerStep where
  | binary (operator : IntegerOperator) (left right : ℤ)
  | negation (operand : ℤ)

def InRange (n : ℤ) : Prop :=
  -2 ^ 63 ≤ n ∧ n ≤ 2 ^ 63 - 1

instance (n : ℤ) : Decidable (InRange n) :=
  inferInstanceAs (Decidable (_ ∧ _))

namespace IntegerStep

def result : IntegerStep → ℤ
  | binary operator left right => operator.exact left right
  | negation operand => -operand

/-- An operation that stays within the integers of 64 bits and divides by nothing that it cannot. -/
def Sound : IntegerStep → Prop
  | binary operator left right =>
    (operator.divides = true → right ≠ 0 ∧ ¬ (left = -2 ^ 63 ∧ right = -1)) ∧
      InRange (operator.exact left right)
  | negation operand => InRange (-operand)

instance : DecidablePred Sound
  | binary _ _ _ => inferInstanceAs (Decidable (_ ∧ _))
  | negation operand => inferInstanceAs (Decidable (InRange (-operand)))

def error : IntegerStep → EvalError
  | binary operator _ right =>
    if operator.divides = true ∧ right = 0 then .divisionByZero else .overflow operator.operation
  | negation _ => .overflow .negation

/-- The first operation that is not sound. -/
def offending? (steps : List IntegerStep) : Option IntegerStep :=
  steps.find? fun step => ¬ step.Sound

end IntegerStep

/-- An evaluation over all integers: the value, and the operations in the order in which they are
done. -/
structure ExactValue where
  value : ℤ
  steps : List IntegerStep

namespace ExactValue

def operand (value : ℤ) : ExactValue :=
  ⟨value, []⟩

def combine (operator : IntegerOperator) (left right : ExactValue) : ExactValue :=
  ⟨operator.exact left.value right.value,
    left.steps ++ right.steps ++ [.binary operator left.value right.value]⟩

def signed : Option Sign → ExactValue → ExactValue
  | some .minus, x => ⟨-x.value, x.steps ++ [.negation x.value]⟩
  | _, x => x

end ExactValue

def AddOperator.integer? : AddOperator → Option IntegerOperator
  | plus => some .plus
  | minus => some .minus
  | or => none

def MulOperator.integer? : MulOperator → Option IntegerOperator
  | times => some .times
  | div => some .div
  | mod => some .mod
  | _ => none

mutual

/-- The evaluation of an expression over all integers; `names` gives the names that stand for
integers.  There is none if anything but integers and their operators occurs. -/
def Expression.exactValue? (names : Qualident → Option ℤ) : Expression → Option ExactValue
  | ⟨sign, first, operations⟩ => do
    let left ← first.exactValue? names
    TermOperation.exactValue? names (.signed sign left) operations

def TermOperation.exactValue? (names : Qualident → Option ℤ) (left : ExactValue) :
    List TermOperation → Option ExactValue
  | [] => some left
  | ⟨operator, right⟩ :: operations => do
    let operator ← operator.integer?
    let right ← right.exactValue? names
    TermOperation.exactValue? names (.combine operator left right) operations

def Term.exactValue? (names : Qualident → Option ℤ) : Term → Option ExactValue
  | ⟨first, operations⟩ => do
    let left ← first.exactValue? names
    FactorOperation.exactValue? names left operations

def FactorOperation.exactValue? (names : Qualident → Option ℤ) (left : ExactValue) :
    List FactorOperation → Option ExactValue
  | [] => some left
  | ⟨operator, right⟩ :: operations => do
    let operator ← operator.integer?
    let right ← right.exactValue? names
    FactorOperation.exactValue? names (.combine operator left right) operations

def Factor.exactValue? (names : Qualident → Option ℤ) : Factor → Option ExactValue
  | .number (.integer value) => some (.operand value.toInt)
  | .number (.real _) => none
  | .string _ => none
  | .name q => (names q).map .operand
  | .parenthesized e => e.exactValue? names

end

section Operations

variable (names : Qualident → Option ℤ) (left : ExactValue)

theorem TermOperation.exactValue?_eq_foldlM (operations : List TermOperation) :
    TermOperation.exactValue? names left operations = operations.foldlM (fun left o => do
      let operator ← o.operator.integer?
      let right ← o.right.exactValue? names
      return .combine operator left right) left := by
  induction operations generalizing left with
  | nil => rfl
  | cons operation operations ih =>
    obtain ⟨operator, right⟩ := operation
    simp only [TermOperation.exactValue?, ih, List.foldlM_cons, bind_assoc, pure_bind]

theorem FactorOperation.exactValue?_eq_foldlM (operations : List FactorOperation) :
    FactorOperation.exactValue? names left operations = operations.foldlM (fun left o => do
      let operator ← o.operator.integer?
      let right ← o.right.exactValue? names
      return .combine operator left right) left := by
  induction operations generalizing left with
  | nil => rfl
  | cons operation operations ih =>
    obtain ⟨operator, right⟩ := operation
    simp only [FactorOperation.exactValue?, ih, List.foldlM_cons, bind_assoc, pure_bind]

end Operations

def Constants.integer? (constants : Constants) (q : Qualident) : Option ℤ :=
  match constants.valueOf q with
  | .ok (.integer n) => some n.toInt
  | _ => none

def Instruction.isIntegral (constants : Constants) : Instruction → Bool
  | .push (.integer _) => true
  | .push _ => false
  | .load q => (constants.integer? q).isSome
  | .sign _ => true
  | .add operator => operator.integer?.isSome
  | .multiply operator => operator.integer?.isSome

/-! ## Floors -/

theorem floor_div_eq_fdiv (a b : ℤ) : ⌊(a : ℚ) / b⌋ = a.fdiv b := by
  rcases Int.le_total 0 b with hb | hb
  · obtain ⟨n, rfl⟩ := Int.eq_ofNat_of_zero_le hb
    rw [Int.fdiv_eq_ediv_of_nonneg a hb]
    exact Rat.floor_intCast_div_natCast a n
  · obtain ⟨n, hn⟩ := Int.eq_ofNat_of_zero_le (Int.neg_nonneg_of_nonpos hb)
    have hsigns : (a : ℚ) / b = (-a : ℤ) / (n : ℕ) := by
      rw [← Int.cast_natCast n, ← hn, Int.cast_neg, Int.cast_neg, neg_div_neg_eq]
    rw [hsigns, Rat.floor_intCast_div_natCast, ← Int.fdiv_eq_ediv_of_nonneg _ n.cast_nonneg, ← hn,
      Int.neg_fdiv_neg]

namespace IntegerOperator

theorem exact_div (left right : ℤ) : exact div left right = left.fdiv right :=
  floor_div_eq_fdiv left right

theorem exact_mod (left right : ℤ) : exact mod left right = left.fmod right := by
  rw [exact, floor_div_eq_fdiv, Int.fmod_def]

/-- A remainder lies between zero and the divisor, on the side of the divisor. -/
theorem exact_mod_bounds {left right : ℤ} (h : right ≠ 0) :
    (0 ≤ exact mod left right ∧ exact mod left right < right) ∨
      (right < exact mod left right ∧ exact mod left right ≤ 0) := by
  rw [exact_mod]
  rcases lt_or_gt_of_ne h with hneg | hpos
  · exact .inr ((Int.fdiv_fmod_unique' hneg).mp ⟨rfl, rfl⟩).2
  · exact .inl ⟨Int.fmod_nonneg_of_pos left hpos, Int.fmod_lt_of_pos left hpos⟩

end IntegerOperator

/-! ## One operation -/

theorem fits_iff_inRange {n : ℤ} : fits n ↔ InRange n :=
  Iff.rfl

theorem inRange_toInt (n : Int64) : InRange n.toInt :=
  ⟨n.le_toInt, Int.le_sub_one_of_lt n.toInt_lt⟩

theorem eq_minValue_iff {n : Int64} : n = Int64.minValue ↔ n.toInt = -2 ^ 63 :=
  Int64.toInt_inj.symm

theorem eq_neg_one_iff {n : Int64} : n = -1 ↔ n.toInt = -1 :=
  Int64.toInt_inj.symm

namespace IntegerStep

/-- An operation in 64 bits that gives the exact result if the operation is sound, and complains
if not. -/
def Gives (step : IntegerStep) (result : Result) : Prop :=
  if step.Sound then ∃ n, result = .ok (.integer n) ∧ n.toInt = step.result
  else result = .error step.error

variable {step : IntegerStep}

/-- A result that is computed exactly and then tested against the range gives its step. -/
theorem gives_integerResult {operation : Operation} (hsound : step.Sound ↔ InRange step.result)
    (herror : step.error = .overflow operation) :
    step.Gives (integerResult operation step.result) := by
  unfold Gives integerResult
  simp only [fits_iff_inRange, hsound]
  by_cases hrange : InRange step.result
  · rw [if_pos hrange, if_pos hrange]
    exact ⟨_, rfl, Int64.toInt_ofInt_of_le hrange.1 (Int.lt_of_le_sub_one hrange.2)⟩
  · rw [if_neg hrange, if_neg hrange, herror]

/-- Whole division gives its step if it is exact wherever it is defined. -/
theorem gives_wholeDivision {operator : IntegerOperator} (hdivides : operator.divides = true)
    {divide : Int64 → Int64 → Int64} {left right : Int64}
    (hexact : right ≠ 0 → ¬ (left = Int64.minValue ∧ right = -1) →
      (divide left right).toInt = operator.exact left.toInt right.toInt) :
    (binary operator left.toInt right.toInt).Gives
      (wholeDivision operator.operation divide (.integer left) (.integer right)) := by
  have hzero : right = 0 ↔ right.toInt = 0 := Int64.toInt_inj.symm
  rw [Gives, wholeDivision]
  -- three outcomes: a zero divisor, the quotient that does not fit, and the exact one
  by_cases hright : right = 0
  · have herror : (binary operator left.toInt right.toInt).error = .divisionByZero :=
      if_pos ⟨hdivides, hzero.mp hright⟩
    rw [if_neg fun hsound => (hsound.1 hdivides).1 (hzero.mp hright), if_pos hright, herror]
  · have hnonzero : right.toInt ≠ 0 := mt hzero.mpr hright
    by_cases hwraps : left = Int64.minValue ∧ right = -1
    · have herror : (binary operator left.toInt right.toInt).error = .overflow operator.operation :=
        if_neg fun h => hnonzero h.2
      have hends : left.toInt = -2 ^ 63 ∧ right.toInt = -1 :=
        ⟨eq_minValue_iff.mp hwraps.1, eq_neg_one_iff.mp hwraps.2⟩
      rw [if_neg fun hsound => (hsound.1 hdivides).2 hends, if_neg hright, if_pos hwraps, herror]
    · have hvalue := hexact hright hwraps
      have hsound : (binary operator left.toInt right.toInt).Sound := by
        refine ⟨fun _ => ⟨hnonzero, fun hends => hwraps ?_⟩, hvalue ▸ inRange_toInt _⟩
        exact ⟨eq_minValue_iff.mpr hends.1, eq_neg_one_iff.mpr hends.2⟩
      rw [if_pos hsound, if_neg hright, if_neg hwraps]
      exact ⟨_, rfl, hvalue⟩

end IntegerStep

/-- Addition and subtraction of machine integers give their steps. -/
theorem AddOperator.gives_apply {operator : AddOperator} {integer : IntegerOperator}
    (h : operator.integer? = some integer) (left right : Int64) :
    (IntegerStep.binary integer left.toInt right.toInt).Gives
      (operator.apply (.integer left) (.integer right)) := by
  cases operator with
  | plus =>
    cases h
    exact IntegerStep.gives_integerResult ⟨And.right, fun hrange => ⟨nofun, hrange⟩⟩ rfl
  | minus =>
    cases h
    exact IntegerStep.gives_integerResult ⟨And.right, fun hrange => ⟨nofun, hrange⟩⟩ rfl
  | or => cases h

/-- Multiplication and whole division of machine integers give their steps. -/
theorem MulOperator.gives_apply {operator : MulOperator} {integer : IntegerOperator}
    (h : operator.integer? = some integer) (left right : Int64) :
    (IntegerStep.binary integer left.toInt right.toInt).Gives
      (operator.apply (.integer left) (.integer right)) := by
  cases operator with
  | times =>
    cases h
    exact IntegerStep.gives_integerResult ⟨And.right, fun hrange => ⟨nofun, hrange⟩⟩ rfl
  | div =>
    cases h
    refine IntegerStep.gives_wholeDivision rfl fun hzero hwraps => ?_
    rw [IntegerOperator.exact_div, (toInt_floored hzero hwraps).1]
  | mod =>
    cases h
    refine IntegerStep.gives_wholeDivision rfl fun hzero hwraps => ?_
    rw [IntegerOperator.exact_mod, (toInt_floored hzero hwraps).2]
  | divide => cases h
  | and => cases h

/-! ## Whole evaluations -/

namespace ExactValue

open IntegerStep (offending?)

variable {x y : ExactValue} {value : ℤ} {front back : List IntegerStep} {step : IntegerStep}
  {result other : Result}

/-- An evaluation in 64 bits that ends as the exact one says: with its value, or with the
complaint about its first operation that is not sound. -/
def Decides (x : ExactValue) (result : Result) : Prop :=
  match offending? x.steps with
  | none => ∃ n, result = .ok (.integer n) ∧ n.toInt = x.value
  | some step => result = .error step.error

/-- An operand has no steps that could fail. -/
theorem decides_operand (n : Int64) : (operand n.toInt).Decides (.ok (.integer n)) :=
  ⟨n, rfl, rfl⟩

/-- A single step decides its own result. -/
theorem decides_of_gives (h : step.Gives result) : Decides ⟨step.result, [step]⟩ result := by
  unfold IntegerStep.Gives at h
  unfold Decides offending?
  rw [List.find?_singleton]
  by_cases hsound : step.Sound
  · rw [if_pos hsound] at h
    simpa [hsound] using h
  · rw [if_neg hsound] at h
    simpa [hsound] using h

/-- Sound steps in front do not change what is decided behind them. -/
theorem Decides.after (h : Decides ⟨value, back⟩ result) (hfront : offending? front = none) :
    Decides ⟨value, front ++ back⟩ result := by
  unfold Decides offending? at h ⊢
  rw [List.find?_append, show front.find? _ = none from hfront, Option.none_or]
  exact h

/-- The first offending step decides the error, whatever comes behind it. -/
theorem decides_error (hfront : offending? front = some step) :
    Decides ⟨value, front ++ back⟩ (.error step.error) := by
  unfold Decides offending?
  rw [List.find?_append, show front.find? _ = some step from hfront, Option.some_or]

/-- One operation more, which is reached if all operations before it are sound. -/
theorem Decides.operation (h : x.Decides result) {next : Value → Result}
    (hnext : ∀ n : Int64, n.toInt = x.value → step.Gives (next (.integer n))) :
    Decides ⟨step.result, x.steps ++ [step]⟩ (result >>= next) := by
  rw [Decides] at h
  cases hsteps : offending? x.steps with
  | none =>
    rw [hsteps] at h
    obtain ⟨n, rfl, hn⟩ := h
    exact (decides_of_gives (hnext n hn)).after hsteps
  | some first =>
    rw [hsteps] at h
    cases h
    exact decides_error hsteps

/-- Only integers and complaints about operations on integers occur. -/
theorem Decides.eq_ok_or_eq_error (h : x.Decides result) :
    (∃ n, result = .ok (.integer n)) ∨ ∃ error, result = .error error := by
  unfold Decides at h
  split at h
  · obtain ⟨n, hresult, -⟩ := h
    exact .inl ⟨n, hresult⟩
  · exact .inr ⟨_, h⟩

/-- A sign adds at most one step. -/
theorem Decides.signed (h : x.Decides result) (sign : Option Sign) :
    (ExactValue.signed sign x).Decides (result >>= Oberon.signed sign) := by
  match sign with
  | none => cases result <;> exact h
  | some .plus => obtain ⟨n, rfl⟩ | ⟨error, rfl⟩ := h.eq_ok_or_eq_error <;> exact h
  | some .minus =>
    refine h.operation fun n hn => ?_
    rw [← hn]
    exact IntegerStep.gives_integerResult Iff.rfl rfl

/-- The steps of the left operand come first, then those of the right one, then the operation. -/
theorem Decides.combine (hx : x.Decides result) (hy : y.Decides other) {operator : IntegerOperator}
    {apply : Value → Value → Result}
    (happly : ∀ left right : Int64,
      (IntegerStep.binary operator left.toInt right.toInt).Gives
        (apply (.integer left) (.integer right))) :
    (ExactValue.combine operator x y).Decides
      (result >>= fun left => other >>= fun right => apply left right) := by
  rw [Decides] at hx
  rw [ExactValue.combine, List.append_assoc]
  cases hsteps : offending? x.steps with
  | none =>
    rw [hsteps] at hx
    obtain ⟨left, rfl, hleft⟩ := hx
    refine Decides.after (hy.operation fun right hright => ?_) hsteps
    rw [← hleft, ← hright]
    exact happly left right
  | some first =>
    rw [hsteps] at hx
    cases hx
    exact decides_error hsteps

end ExactValue

/-! ## Expressions of integers -/

/-- An exact evaluation is there, and the one in 64 bits ends as it says. -/
def Exactly (exact : Option ExactValue) (result : Result) : Prop :=
  ∃ x, exact = some x ∧ x.Decides result

/-- Operations from left to right decide the result if each one does. -/
theorem ExactValue.Decides.foldlM {α : Type} {exact : ExactValue → α → Option ExactValue}
    {step : Value → α → Result} {operations : List α}
    (hstep : ∀ o ∈ operations, ∀ {left : ExactValue} {result : Result}, left.Decides result →
      Exactly (exact left o) (result >>= (step · o)))
    {left : ExactValue} {result : Result} (hleft : left.Decides result) :
    Exactly (operations.foldlM exact left) (result >>= operations.foldlM step) := by
  induction operations generalizing left result with
  | nil =>
    refine ⟨left, rfl, ?_⟩
    cases result <;> exact hleft
  | cons o operations ih =>
    rw [List.forall_mem_cons] at hstep
    obtain ⟨next, hnext, hdecides⟩ := hstep.1 hleft
    simp only [List.foldlM_cons, hnext, ← bind_assoc]
    exact ih hstep.2 hdecides

/-- One operation between integers: its right operand is evaluated first. -/
theorem ExactValue.Decides.operation_exactly {left : ExactValue} {result : Result}
    (hleft : left.Decides result) {right : Option ExactValue} {other : Result}
    (hright : Exactly right other) {operator? : Option IntegerOperator}
    (hoperator : operator?.isSome)
    {apply : Value → Value → Result}
    (happly : ∀ operator, operator? = some operator → ∀ left right : Int64,
      (IntegerStep.binary operator left.toInt right.toInt).Gives
        (apply (.integer left) (.integer right))) :
    Exactly (do return .combine (← operator?) left (← right))
      (result >>= fun left => other >>= apply left) := by
  obtain ⟨operator, rfl⟩ := Option.isSome_iff_exists.mp hoperator
  obtain ⟨y, rfl, hy⟩ := hright
  exact ⟨_, rfl, hleft.combine hy (happly operator rfl)⟩

section Fragment

variable {constants : Constants}

theorem exactly_name {q : Qualident} (h : (constants.integer? q).isSome) :
    Exactly ((constants.integer? q).map .operand) (constants.valueOf q) := by
  unfold Constants.integer? at h ⊢
  split
  · rename_i n hvalue
    exact ⟨_, rfl, hvalue ▸ ExactValue.decides_operand n⟩
  · rename_i hother
    split at h
    · rename_i n hvalue
      exact absurd hvalue (hother n)
    · cases h

/-- Code on integers comes from an expression that can be evaluated over all integers, and its
value in 64 bits is decided by that evaluation. -/
theorem compositional_exactly : Compositional
    (fun e => (∀ i ∈ e.code, i.isIntegral constants) →
      Exactly (e.exactValue? constants.integer?) (e.value constants.valueOf))
    (fun t => (∀ i ∈ t.code, i.isIntegral constants) →
      Exactly (t.exactValue? constants.integer?) (t.value constants.valueOf))
    (fun f => (∀ i ∈ f.code, i.isIntegral constants) →
      Exactly (f.exactValue? constants.integer?) (f.value constants.valueOf)) where
  expression sign first operations hfirst hoperations h := by
    rw [Expression.code, TermOperation.codes_eq_flatMap, List.forall_mem_append,
      List.forall_mem_append, List.forall_mem_flatMap] at h
    obtain ⟨left, hleft, hdecides⟩ := hfirst h.1.1
    -- both evaluations are folds over the operations from the same left operand
    rw [Expression.exactValue?, hleft, Expression.value, ← bind_assoc]
    simp only [TermOperation.fold_eq_foldlM, TermOperation.exactValue?_eq_foldlM]
    refine ExactValue.Decides.foldlM ?_ (hdecides.signed sign)
    rintro ⟨operator, right⟩ ho _ _ hleft
    have hcode := h.2 _ ho
    rw [TermOperation.code, List.forall_mem_append, List.forall_mem_singleton] at hcode
    exact hleft.operation_exactly (hoperations _ ho hcode.1) hcode.2 fun _ =>
      AddOperator.gives_apply
  term first operations hfirst hoperations h := by
    rw [Term.code, FactorOperation.codes_eq_flatMap, List.forall_mem_append,
      List.forall_mem_flatMap] at h
    obtain ⟨left, hleft, hdecides⟩ := hfirst h.1
    rw [Term.exactValue?, hleft, Term.value]
    simp only [FactorOperation.fold_eq_foldlM, FactorOperation.exactValue?_eq_foldlM]
    refine ExactValue.Decides.foldlM ?_ hdecides
    rintro ⟨operator, right⟩ ho _ _ hleft
    have hcode := h.2 _ ho
    rw [FactorOperation.code, List.forall_mem_append, List.forall_mem_singleton] at hcode
    exact hleft.operation_exactly (hoperations _ ho hcode.1) hcode.2 fun _ =>
      MulOperator.gives_apply
  number n h := by
    cases n with
    | integer n => exact ⟨_, rfl, ExactValue.decides_operand n⟩
    | real x => cases h _ (List.mem_singleton_self _)
  -- code that is all about integers has neither reals nor strings
  string content h := by cases h _ (List.mem_singleton_self _)
  name q h := exactly_name (h _ (List.mem_singleton_self _))
  parenthesized e he h := by
    rw [Factor.code] at h
    rw [Factor.exactValue?, Factor.value]
    exact he h

end Fragment

namespace ExactValue

variable {x : ExactValue} {result : Result}

/-- There is no offending step exactly if all steps are sound. -/
theorem offending?_eq_none_iff {steps : List IntegerStep} :
    IntegerStep.offending? steps = none ↔ ∀ step ∈ steps, step.Sound := by
  simp [IntegerStep.offending?]

/-- There is a value exactly if every step is sound. -/
theorem Decides.exists_value_iff (h : x.Decides result) :
    (∃ n, result = .ok (.integer n)) ↔ ∀ step ∈ x.steps, step.Sound := by
  rw [← offending?_eq_none_iff]
  unfold Decides at h
  cases hsteps : IntegerStep.offending? x.steps with
  | none =>
    rw [hsteps] at h
    obtain ⟨n, hresult, -⟩ := h
    exact iff_of_true ⟨n, hresult⟩ rfl
  | some step =>
    rw [hsteps] at h
    cases h
    exact iff_of_false nofun nofun

/-- The machine value is the exact one. -/
theorem Decides.toInt_eq (h : x.Decides result) {n : Int64} (hresult : result = .ok (.integer n)) :
    n.toInt = x.value := by
  have hsound := offending?_eq_none_iff.mpr (h.exists_value_iff.mp ⟨n, hresult⟩)
  rw [Decides, hsound] at h
  obtain ⟨m, hm, hvalue⟩ := h
  cases hresult.symm.trans hm
  exact hvalue

/-- The error is that of the first offending step. -/
theorem Decides.eq_error_iff (h : x.Decides result) (error : EvalError) :
    result = .error error ↔ ∃ step, IntegerStep.offending? x.steps = some step ∧
      step.error = error := by
  unfold Decides at h
  cases hsteps : IntegerStep.offending? x.steps with
  | none =>
    rw [hsteps] at h
    obtain ⟨n, rfl, -⟩ := h
    exact iff_of_false nofun (by rintro ⟨_, hnone, -⟩; cases hnone)
  | some step =>
    rw [hsteps] at h
    cases h
    simp

end ExactValue

/-- An expression of integers is evaluated exactly.  It has a value if every operation is sound,
and then the value that it has over all integers; otherwise the first operation that is not sound
is the error.  Every remainder is on the side of its divisor, and dividing in 64 bits never
wraps. -/
theorem Evaluator.evaluate_integers (ev : Evaluator) (e : Expression)
    (h : ∀ instruction ∈ e.code, instruction.isIntegral ev.constants) :
    ∃ x, e.exactValue? ev.constants.integer? = some x ∧
      ((∃ n, (ev.evaluate e).1 = .ok (.integer n)) ↔ ∀ step ∈ x.steps, step.Sound) ∧
      (∀ n, (ev.evaluate e).1 = .ok (.integer n) → n.toInt = x.value) ∧
      (∀ error, (ev.evaluate e).1 = .error error ↔
        ∃ step, IntegerStep.offending? x.steps = some step ∧ step.error = error) ∧
      (∀ left right, .binary .mod left right ∈ x.steps → right ≠ 0 →
        (0 ≤ IntegerOperator.mod.exact left right ∧ IntegerOperator.mod.exact left right < right) ∨
          (right < IntegerOperator.mod.exact left right ∧
            IntegerOperator.mod.exact left right ≤ 0)) ∧
      (∀ left right : Int64, right ≠ 0 → ¬ (left = Int64.minValue ∧ right = -1) →
        (left / right).toInt = left.toInt.tdiv right.toInt ∧
          (left % right).toInt = left.toInt.tmod right.toInt ∧
          (roundedUp (left % right) right = true → CorrectsExactly left right)) := by
  obtain ⟨x, hx, hdecides⟩ := compositional_exactly.expressions e h
  rw [← Constants.evaluate_eq_value] at hdecides
  refine ⟨x, hx, hdecides.exists_value_iff, fun n => hdecides.toInt_eq,
    hdecides.eq_error_iff, ?_, ?_⟩
  · intro left right _ hright
    exact IntegerOperator.exact_mod_bounds hright
  · intro left right hright hwraps
    exact ⟨toInt_div hwraps, Int64.toInt_mod left right, correctsExactly hright hwraps⟩

/-- `n DIV 2 - 5 MOD (-3)` for a constant `n` of -7, and `(-9223372036854775807 - 1) DIV (-1) + 1
DIV 0`, where the overflow comes first. -/
theorem Evaluator.evaluate_integers_sample :
    let ev := Evaluator.initial.define "n" (.integer (-7))
    let literal (n : Int64) : Factor := .number (.integer n)
    let negative (n : Int64) : Factor := .parenthesized ⟨some .minus, ⟨literal n, []⟩, []⟩
    let rounded : Expression := ⟨none, ⟨.name ⟨none, "n"⟩, [⟨.div, literal 2⟩]⟩,
      [⟨.minus, ⟨literal 5, [⟨.mod, negative 3⟩]⟩⟩]⟩
    let lowest : Expression :=
      ⟨some .minus, ⟨literal 9223372036854775807, []⟩, [⟨.minus, ⟨literal 1, []⟩⟩]⟩
    let beyond : Expression := ⟨none, ⟨.parenthesized lowest, [⟨.div, negative 1⟩]⟩,
      [⟨.plus, ⟨literal 1, [⟨.div, literal 0⟩]⟩⟩]⟩
    (∃ n, (ev.evaluate rounded).1 = .ok (.integer n) ∧ n.toInt = -3) ∧
      (ev.evaluate beyond).1 = .error (.overflow .div) := by
  intro ev literal negative rounded lowest beyond
  constructor
  · obtain ⟨x, hx, hsound, hvalue, -⟩ := Evaluator.evaluate_integers ev rounded (by decide)
    cases (show rounded.exactValue? ev.constants.integer? = some ⟨_, _⟩ from rfl).symm.trans hx
    obtain ⟨n, hn⟩ := hsound.mpr (by decide +kernel)
    exact ⟨n, hn, (hvalue n hn).trans (by decide +kernel)⟩
  · obtain ⟨x, hx, -, -, herror, -⟩ := Evaluator.evaluate_integers ev beyond (by decide)
    cases (show beyond.exactValue? ev.constants.integer? = some ⟨_, _⟩ from rfl).symm.trans hx
    exact (herror _).mpr ⟨.binary .div (-9223372036854775808) (-1), by rfl, rfl⟩

end Oberon
