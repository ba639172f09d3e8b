import Mathlib.Data.List.Basic
import Oberon.Syntax.Parser

/-!
# Tokens that leave no trace

A section heading without declarations behind it and the semicolons around empty field lists say
nothing.  Both can be told from the tokens alone: a heading is idle if no name follows it, and a
semicolon of a record is idle if no field list of the record stands before it or none follows it
at once.  `condensed` deletes the idle tokens and nothing else.
-/

namespace Oberon

/-! ## Deleting tokens -/

/-- The records that are open behind a token, innermost first.  For each of them it is known
whether a field list has been there; only behind the names of fields there is a colon. -/
def openRecords (records : List Bool) : Token → List Bool
  | .keyword .RECORD => false :: records
  | .keyword .END => records.tail
  | .mark .colon => records.modifyHead fun _ => true
  | _ => records

def Token.isIdle (records : List Bool) (t : Token) (next : Option Token) : Bool :=
  match t, records with
  | .keyword .CONST, _ | .keyword .TYPE, _ | .keyword .VAR, _ => !next.any Parser.isIdentifier
  | .mark .semicolon, hasFields :: _ =>
    !hasFields || next = some (.mark .semicolon) || next = some (.keyword .END)
  | _, _ => false

/-- The tokens inside of `records` without the idle ones. -/
def condense (records : List Bool) : List Token → List Token
  | [] => []
  | t :: ts =>
    let others := condense (openRecords records t) ts
    if t.isIdle records ts.head? then others else t :: others

def condensed (ts : List Token) : List Token :=
  condense [] ts

def Token.mayIdle : Token → Bool
  | .keyword .CONST => true
  | .keyword .TYPE => true
  | .keyword .VAR => true
  | .mark .semicolon => true
  | _ => false

theorem Token.mayIdle_of_isIdle {records : List Bool} {t : Token} {next : Option Token}
    (h : t.isIdle records next = true) : t.mayIdle = true := by
  unfold isIdle at h
  split at h <;> simp_all [mayIdle]

/-- Condensing only leaves out. -/
theorem sublist_condense (records : List Bool) (ts : List Token) :
    (condense records ts).Sublist ts := by
  induction ts generalizing records with
  | nil => exact .slnil
  | cons t ts ih =>
    rw [condense]
    split
    · exact (ih _).cons t
    · exact (ih _).cons_cons t

/-- What is never idle is all there, in its order. -/
theorem filter_condense {p : Token → Bool} (h : ∀ t, p t = true → t.mayIdle = false)
    (records : List Bool) (ts : List Token) : (condense records ts).filter p = ts.filter p := by
  induction ts generalizing records with
  | nil => rfl
  | cons t ts ih =>
    rw [condense]
    split
    next hidle =>
      have hp : p t = false := by
        by_contra hp
        have hmay := h t (Bool.not_eq_false _ ▸ hp)
        rw [Token.mayIdle_of_isIdle hidle] at hmay
        cases hmay
      rw [ih, List.filter_cons_of_neg (by simp [hp])]
    next => rw [List.filter_cons, List.filter_cons, ih]

/-! ## Tokens that stay -/

/-- The token neither may be idle nor opens, closes or fills a record. -/
def Token.isPlain : Token → Bool
  | .keyword .CONST => false
  | .keyword .TYPE => false
  | .keyword .VAR => false
  | .keyword .RECORD => false
  | .keyword .END => false
  | .mark .semicolon => false
  | .mark .colon => false
  | _ => true

section Condense

variable {records : List Bool} {t : Token} {ts rest : List Token}

theorem condense_cons_of_not_isIdle (h : t.isIdle records ts.head? = false) :
    condense records (t :: ts) = t :: condense (openRecords records t) ts := by
  rw [condense]
  rw [h]
  rfl

theorem condense_cons_of_isPlain (h : t.isPlain = true) :
    condense records (t :: ts) = t :: condense records ts := by
  have hidle : t.isIdle records ts.head? = false := by
    unfold Token.isIdle
    split <;> simp_all [Token.isPlain]
  have hrecords : openRecords records t = records := by
    unfold openRecords
    split <;> simp_all [Token.isPlain]
  rw [condense_cons_of_not_isIdle hidle, hrecords]

/-- Plain tokens are never left out. -/
theorem condense_append_of_isPlain (h : ∀ t ∈ ts, t.isPlain = true) :
    condense records (ts ++ rest) = ts ++ condense records rest := by
  induction ts with
  | nil => rfl
  | cons t ts ih =>
    obtain ⟨ht, hts⟩ := List.forall_mem_cons.mp h
    rw [List.cons_append, condense_cons_of_isPlain ht, ih hts, List.cons_append]

theorem condense_record :
    condense records (.keyword .RECORD :: ts) =
      .keyword .RECORD :: condense (false :: records) ts :=
  rfl

theorem condense_end :
    condense records (.keyword .END :: ts) = .keyword .END :: condense records.tail ts :=
  rfl

/-- No record is open, or the innermost one has a field list already. -/
def Filled (records : List Bool) : Prop :=
  ∀ hasFields ∈ records.head?, hasFields = true

theorem filled_nil : Filled [] :=
  nofun

theorem filled_cons : Filled (true :: records) := by
  intro hasFields h
  cases h
  rfl

theorem condense_colon_of_filled (h : Filled records) :
    condense records (.mark .colon :: ts) = .mark .colon :: condense records ts := by
  cases records with
  | nil => rfl
  | cons hasFields records =>
    rw [h hasFields rfl]
    rfl

theorem condense_semicolon (h : Filled records)
    (hnext : ts.head? ≠ some (.mark .semicolon) ∧ ts.head? ≠ some (.keyword .END)) :
    condense records (.mark .semicolon :: ts) = .mark .semicolon :: condense records ts := by
  apply condense_cons_of_not_isIdle
  cases records with
  | nil => rfl
  | cons hasFields records =>
    rw [h hasFields rfl]
    simp [Token.isIdle, hnext.1, hnext.2]

theorem condense_semicolon_outside :
    condense [] (.mark .semicolon :: ts) = .mark .semicolon :: condense [] ts :=
  rfl

/-- Semicolons in front of another one or of the end of the record. -/
theorem condense_semicolon_idle
    (hnext : ts.head? = some (.mark .semicolon) ∨ ts.head? = some (.keyword .END)) :
    condense (true :: records) (.mark .semicolon :: ts) = condense (true :: records) ts := by
  have hidle : Token.isIdle (true :: records) (.mark .semicolon) ts.head? = true := by
    obtain h | h := hnext
    · rw [h]
      rfl
    · rw [h]
      rfl
  rw [condense]
  rw [hidle]
  rfl

/-- A heading stays if a declaration follows it. -/
theorem condense_heading {heading : Keyword}
    (hheading : heading = .CONST ∨ heading = .TYPE ∨ heading = .VAR)
    (hrest : ts.head?.any Parser.isIdentifier) :
    condense records (.keyword heading :: ts) = .keyword heading :: condense records ts := by
  obtain rfl | rfl | rfl := hheading
  all_goals
    rw [condense_cons_of_not_isIdle (by simp [Token.isIdle, hrest])]
    rfl

/-- A heading with nothing behind it is left out. -/
theorem condense_heading_idle {heading : Keyword}
    (hheading : heading = .CONST ∨ heading = .TYPE ∨ heading = .VAR)
    (hrest : ts.head?.any Parser.isIdentifier = false) :
    condense records (.keyword heading :: ts) = condense records ts := by
  obtain rfl | rfl | rfl := hheading
  all_goals
    rw [condense]
    simp [Token.isIdle, hrest, openRecords]

end Condense

end Oberon
