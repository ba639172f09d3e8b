import Oberon.Proofs.Syntax.Alike
import Oberon.Syntax.Reader

/-!
# Calls of one reader

A reader that counts open constructs reads what a parser with a budget reads, and leaves each
construct that it has entered.  Main statement: the answer to a call depends on the tokens that
are left and on nothing else that happened in the calls before it.
-/

namespace Oberon

namespace Cursor

/-- Advancing leaves a suffix of what was left. -/
theorem rest_advance_suffix (c : Cursor) : c.advance.rest <:+ c.rest := by
  unfold advance
  split
  · exact List.suffix_rfl
  · rename_i t rest hrest
    rw [hrest]
    exact List.suffix_cons t rest

theorem advance_eq_of_rest {c d : Cursor} (hrest : c.rest = d.rest) (hline : c.line = d.line) :
    c.advance.rest = d.advance.rest ∧ c.advance.line = d.advance.line := by
  unfold advance
  rw [hrest]
  split
  · exact ⟨hrest, hline⟩
  · exact ⟨rfl, rfl⟩

/-- Cursors with the same rest see the same line, at the end too if they remember the same. -/
theorem tokenLine_eq {c d : Cursor} (hrest : c.rest = d.rest)
    (hline : c.rest = [] → c.line = d.line) :
    c.tokenLine = d.tokenLine := by
  unfold tokenLine
  rw [← hrest]
  split
  · rename_i hnil
    exact hline hnil
  · rfl

/-- Advancing does not nest. -/
theorem depth_advance (c : Cursor) : c.advance.depth = c.depth := by
  unfold advance
  split <;> rfl

end Cursor

namespace Likeness

def sameRest : Likeness where
  Rel c d := c.rest = d.rest
  rest := id
  advance {c d} h := by
    unfold Cursor.advance
    rw [h]
    split
    · exact h
    · rfl

/-- Cursors at the same tokens; the line of the last token that was read matters only at their
end. -/
def samePosition : Likeness where
  Rel c d := c.rest = d.rest ∧ (c.rest = [] → c.line = d.line)
  rest := And.left
  advance {c d} h := by
    unfold Cursor.advance
    rw [← h.1]
    split
    · exact h
    · exact ⟨rfl, fun _ => rfl⟩

/-- Cursors in `tokens` at the same place, the left one inside of `depth` constructs. -/
def inside (tokens : List LocatedToken) (depth : Nat) : Likeness where
  Rel c d := (c.rest = d.rest ∧ c.line = d.line) ∧ c.depth = depth ∧ c.rest <:+ tokens
  rest h := h.1.1
  advance {c _} h :=
    ⟨Cursor.advance_eq_of_rest h.1.1 h.1.2, (Cursor.depth_advance c).trans h.2.1,
      (Cursor.rest_advance_suffix c).trans h.2.2⟩

end Likeness

def SyntaxError.withoutLine (e : SyntaxError) : String × String :=
  (e.expected, e.found)

namespace Parser

variable {α : Type} {R : Likeness}

/-! ## Budgets -/

theorem alike_expression (budget : Nat) : Alike R (expression budget) (expression budget) := by
  induction budget with
  | zero => exact alike_fail _
  | succ budget ih => exact ih.simpleExpression

theorem alike_type (budget : Nat) : Alike R (type budget) (type budget) := by
  induction budget with
  | zero => exact alike_fail _
  | succ budget ih => exact (alike_expression budget).typeForm ih

theorem alike_procedure (budget : Nat) : Alike R (procedure budget) (procedure budget) := by
  induction budget with
  | zero => exact alike_fail _
  | succ budget ih => exact (alike_expression budget).procedureBody (alike_type budget) ih

theorem alike_wholeModule : Alike R wholeModule wholeModule :=
  ((alike_expression _).moduleBody (alike_type _) (alike_procedure _)).whole

theorem alike_wholeExpression : Alike R wholeExpression wholeExpression :=
  (alike_expression _).whole

/-! ## Answers -/

theorem token_eq_of_rel {c d : Cursor} (h : R.Rel c d) : c.token = d.token := by
  unfold Cursor.token
  rw [R.rest h]

section Answers

variable {p q : Parser α} {c d : Cursor}

/-- Parsers that run alike give the same result, or failures that differ only in their cursors. -/
theorem Alike.runAt (h : Alike R p q) (hcd : R.Rel c d) :
    (∃ x c' d', R.Rel c' d' ∧ p.runAt c = (.ok x, c') ∧ q.runAt d = (.ok x, d')) ∨
      ∃ expected c' d', R.Rel c' d' ∧ p.runAt c = (.error (Failure.error ⟨expected, c'⟩), c') ∧
        q.runAt d = (.error (Failure.error ⟨expected, d'⟩), d') := by
  unfold Parser.runAt
  have hend := h hcd
  generalize p.run c = first at hend ⊢
  generalize q.run d = second at hend ⊢
  cases hend with
  | ok x hrelated => exact .inl ⟨x, _, _, hrelated, rfl, rfl⟩
  | error expected hrelated => exact .inr ⟨expected, _, _, hrelated, rfl, rfl⟩

/-- Like parsers leave like cursors. -/
theorem Alike.runAt_snd (h : Alike R p q) (hcd : R.Rel c d) :
    R.Rel (p.runAt c).2 (q.runAt d).2 := by
  obtain ⟨x, c', d', hrelated, hp, hq⟩ | ⟨expected, c', d', hrelated, hp, hq⟩ := h.runAt hcd <;>
  · rw [hp, hq]
    exact hrelated

/-- Like parsers give the same result if the lines agree. -/
theorem Alike.runAt_fst (h : Alike R p q) (hcd : R.Rel c d)
    (hline : ∀ {c d}, R.Rel c d → c.tokenLine = d.tokenLine) : (p.runAt c).1 = (q.runAt d).1 := by
  obtain ⟨x, c', d', hrelated, hp, hq⟩ | ⟨expected, c', d', hrelated, hp, hq⟩ := h.runAt hcd
  · rw [hp, hq]
  · rw [hp, hq, Failure.error, Failure.error, token_eq_of_rel hrelated, hline hrelated]

/-- Like parsers give the same result up to the line of an error. -/
theorem Alike.runAt_withoutLine (h : Alike R p q) (hcd : R.Rel c d) :
    (p.runAt c).1.mapError SyntaxError.withoutLine =
      (q.runAt d).1.mapError SyntaxError.withoutLine := by
  obtain ⟨x, c', d', hrelated, hp, hq⟩ | ⟨expected, c', d', hrelated, hp, hq⟩ := h.runAt hcd
  · rw [hp, hq]
  · rw [hp, hq, Failure.error, Failure.error, token_eq_of_rel hrelated]
    rfl

end Answers

end Parser

namespace Reader

open Oberon.Parser (Alike alike_fail)

variable {α : Type} {tokens : List LocatedToken}

/-! ## Counting -/

/-- A construct is left at the depth at which it was entered, also if reading it fails. -/
theorem alike_nested {what : Nesting} {item item' : Parser α} {depth : Nat}
    (hdepth : depth < maxNesting)
    (h : Alike (.inside tokens (depth + 1)) item item') :
    Alike (.inside tokens depth) (nested what item) item' := by
  intro c d hcd
  obtain ⟨hplace, rfl, hsuffix⟩ := hcd
  have hbelow : c.depth ≠ maxNesting := by omega
  have hend := h (c := c.enter) (d := d) ⟨hplace, rfl, hsuffix⟩
  change Parser.EndAlike _ (nested what item c) _
  rw [nested, if_neg hbelow]
  generalize item.run c.enter = first at hend ⊢
  generalize item'.run d = second at hend ⊢
  cases hend with
  | ok x hrelated =>
    refine .ok x ⟨hrelated.1, ?_, hrelated.2.2⟩
    rw [Cursor.leave, hrelated.2.1, Nat.add_sub_cancel]
  | error expected hrelated =>
    refine .error expected ⟨hrelated.1, ?_, hrelated.2.2⟩
    rw [Cursor.leave, hrelated.2.1, Nat.add_sub_cancel]

/-- At the limit, going further in fails on both sides. -/
theorem alike_nested_full (what : Nesting) (item : Parser α) :
    Alike (.inside tokens maxNesting) (nested what item) (Parser.fail (.lessNesting what)) := by
  intro c d hcd
  change Parser.EndAlike _ (nested what item c) _
  rw [nested, if_pos hcd.2.1]
  exact .error _ hcd

/-- What is left of the budget and the constructs that are open make up the limit. -/
theorem alike_nested_of_budget {what : Nesting} {item item' : Parser α} {budget : Nat}
    (h : budget + 1 ≤ maxNesting)
    (hitem : Alike (.inside tokens (maxNesting - budget)) item item') :
    Alike (.inside tokens (maxNesting - (budget + 1))) (nested what item) item' := by
  refine alike_nested (by omega) ?_
  rw [show maxNesting - (budget + 1) + 1 = maxNesting - budget by omega]
  exact hitem

theorem alike_expression {budget : Nat} (h : budget ≤ maxNesting) :
    Alike (.inside tokens (maxNesting - budget)) (expression (budget + 1))
      (Parser.expression budget) := by
  induction budget with
  | zero => exact alike_nested_full _ _
  | succ budget ih => exact alike_nested_of_budget h (ih (by omega)).simpleExpression

theorem alike_type {budget : Nat} (h : budget ≤ maxNesting) :
    Alike (.inside tokens (maxNesting - budget)) (type (budget + 1)) (Parser.type budget) := by
  induction budget with
  | zero => exact alike_nested_full _ _
  | succ budget ih =>
    have hbudget : budget ≤ maxNesting := by omega
    exact alike_nested_of_budget h ((alike_expression hbudget).typeForm (ih hbudget))

theorem alike_procedure {budget : Nat} (h : budget ≤ maxNesting) :
    Alike (.inside tokens (maxNesting - budget)) (procedure (budget + 1))
      (Parser.procedure budget) := by
  induction budget with
  | zero => exact alike_nested_full _ _
  | succ budget ih =>
    have hbudget : budget ≤ maxNesting := by omega
    exact alike_nested_of_budget h
      ((alike_expression hbudget).procedureBody (alike_type hbudget) (ih hbudget))

theorem alike_wholeModule : Alike (.inside tokens 0) wholeModule Parser.wholeModule :=
  ((alike_expression (Nat.le_refl maxNesting)).moduleBody (alike_type (Nat.le_refl maxNesting))
    (alike_procedure (Nat.le_refl maxNesting))).whole

theorem alike_wholeExpression : Alike (.inside tokens 0) wholeExpression Parser.wholeExpression :=
  (alike_expression (Nat.le_refl maxNesting)).whole

/-! ## Calls -/

def Call.parseAt : Call → Cursor → Except SyntaxError Node
  | module, c => (Parser.wholeModule.runAt c).1.map .root
  | expression, c => (Parser.wholeExpression.runAt c).1.map .expression

def Call.parse (call : Call) (tokens : List LocatedToken) : Except SyntaxError Node :=
  match call with
  | module => (Parser.parseModule tokens).map .root
  | expression => (Parser.parseExpression tokens).map .expression

namespace Call

variable {c d : Cursor}

/-- A call at depth 0 gives what its parser gives. -/
theorem run_fst (call : Call) (h : c.depth = 0) : (call.run c).1 = call.parseAt c := by
  have hrelated : (Likeness.inside c.rest 0).Rel c c := ⟨⟨rfl, rfl⟩, h, List.suffix_rfl⟩
  cases call with
  | module =>
    exact congrArg (Except.map Node.root)
      (alike_wholeModule.runAt_fst hrelated fun h => Cursor.tokenLine_eq h.1.1 fun _ => h.1.2)
  | expression =>
    exact congrArg (Except.map Node.expression)
      (alike_wholeExpression.runAt_fst hrelated fun h => Cursor.tokenLine_eq h.1.1 fun _ => h.1.2)

/-- A call at depth 0 comes back to depth 0 and consumes from the front. -/
theorem run_snd (call : Call) (h : c.depth = 0) :
    (call.run c).2.depth = 0 ∧ (call.run c).2.rest <:+ c.rest := by
  have hrelated : (Likeness.inside c.rest 0).Rel c c := ⟨⟨rfl, rfl⟩, h, List.suffix_rfl⟩
  cases call with
  | module => exact (alike_wholeModule.runAt_snd hrelated).2
  | expression => exact (alike_wholeExpression.runAt_snd hrelated).2

/-- A call sees only what is left, and the line at the end. -/
theorem parseAt_eq (call : Call) (hrest : c.rest = d.rest) (hline : c.rest = [] → c.line = d.line) :
    call.parseAt c = call.parseAt d := by
  have hrelated : Likeness.samePosition.Rel c d := ⟨hrest, hline⟩
  cases call with
  | module =>
    exact congrArg (Except.map Node.root)
      (Parser.alike_wholeModule.runAt_fst hrelated fun h => Cursor.tokenLine_eq h.1 h.2)
  | expression =>
    exact congrArg (Except.map Node.expression)
      (Parser.alike_wholeExpression.runAt_fst hrelated fun h => Cursor.tokenLine_eq h.1 h.2)

end Call

theorem mapError_map {ε ε' β : Type} (r : Except ε α) (f : α → β) (g : ε → ε') :
    (r.map f).mapError g = (r.mapError g).map f := by
  cases r <;> rfl

theorem Call.parseAt_withoutLine (call : Call) {c d : Cursor} (hrest : c.rest = d.rest) :
    (call.parseAt c).mapError SyntaxError.withoutLine =
      (call.parseAt d).mapError SyntaxError.withoutLine := by
  have hrelated : Likeness.sameRest.Rel c d := hrest
  cases call with
  | module =>
    rw [parseAt, parseAt, mapError_map, mapError_map,
      Parser.alike_wholeModule.runAt_withoutLine hrelated]
  | expression =>
    rw [parseAt, parseAt, mapError_map, mapError_map,
      Parser.alike_wholeExpression.runAt_withoutLine hrelated]

/-- A call on a new cursor is the function of the library. -/
theorem Call.parseAt_start (call : Call) (tokens : List LocatedToken) :
    call.parseAt (.start tokens) = call.parse tokens := by
  cases call <;> rfl

/-- A call that starts outside of all constructs ends outside of them, so any number of calls
does. -/
theorem after_outside (calls : List Call) {c : Cursor} (h : c.depth = 0) :
    (after calls c).depth = 0 ∧ (after calls c).rest <:+ c.rest := by
  induction calls generalizing c with
  | nil => exact ⟨h, List.suffix_rfl⟩
  | cons call calls ih =>
    have hcall := call.run_snd h
    have hcalls := ih hcall.1
    exact ⟨hcalls.1, hcalls.2.trans hcall.2⟩

/-- A call is answered as if it were the first one on the tokens that are left.  Calls before it,
whether they succeeded or failed, leave no construct open; if no token is left, they can be seen
in the line of the error. -/
theorem run_after (tokens : List LocatedToken) (calls : List Call) (next : Call) :
    let c := after calls (.start tokens)
    c.depth = 0 ∧ c.rest <:+ tokens ∧
      (c.rest ≠ [] → (next.run c).1 = (next.run (.start c.rest)).1) ∧
      (c.rest = [] → (next.run c).1.mapError SyntaxError.withoutLine =
        (next.run (.start [])).1.mapError SyntaxError.withoutLine) ∧
      (next.run (.start c.rest)).1 = next.parse c.rest := by
  intro c
  have houtside := after_outside calls (c := .start tokens) rfl
  have hfresh (rest : List LocatedToken) :
      (next.run (.start rest)).1 = next.parseAt (.start rest) :=
    next.run_fst rfl
  refine ⟨houtside.1, houtside.2, fun hleft => ?_, fun hnone => ?_, ?_⟩
  · rw [next.run_fst houtside.1, hfresh]
    exact next.parseAt_eq rfl fun hnone => absurd hnone hleft
  · rw [next.run_fst houtside.1, hfresh]
    exact next.parseAt_withoutLine hnone
  · rw [hfresh, next.parseAt_start]

/-- On `( 1 2 + 3` the first call fails inside the parentheses, and the second one reads `2 +
3`. -/
theorem run_after_failure :
    let tokens : List LocatedToken := [⟨.mark .leftParen, 1⟩, ⟨.integer 1, 1⟩, ⟨.integer 2, 2⟩,
      ⟨.mark .plus, 2⟩, ⟨.integer 3, 2⟩]
    let c := after [.expression] (.start tokens)
    c.rest ≠ [] ∧ (Call.expression.run c).1 =
      .ok (.expression ⟨none, ⟨.number (.integer 2), []⟩,
        [⟨.plus, ⟨.number (.integer 3), []⟩⟩]⟩) := by
  intro tokens c
  have hrest : c.rest = [⟨.integer 2, 2⟩, ⟨.mark .plus, 2⟩, ⟨.integer 3, 2⟩] := by rfl
  have hleft : c.rest ≠ [] := by
    rw [hrest]
    exact List.cons_ne_nil _ _
  refine ⟨hleft, ?_⟩
  rw [(run_after tokens [.expression] .expression).2.2.1 hleft]
  rfl

end Reader

end Oberon
