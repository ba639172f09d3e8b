import Oberon.Proofs.Grammar.Limits

/-!
# The parser accepts the grammar within its limits

A parser with a budget is sound and complete for what is derived within as many levels, by
induction on the budget.  Main statement: on tokens without an end among them, parsing a module or
an expression succeeds exactly with the tree that is derived within the limits, and there is at
most one such tree.
-/

namespace Oberon

namespace Parser

open Grammar

variable {α : Type}

/-! ## Budgets -/

/-- Whatever `expression` reads is an expression of the grammar within the budget. -/
theorem sound_expression (budget : Nat) :
    Sound (expression budget) (IsExpression.And fun e => e.tree.Fits budget) := by
  induction budget with
  | zero =>
    intro c e c' h
    exact absurd h not_reads_fail
  | succ budget ih =>
    rw [isExpression_and_succ]
    exact sound_simpleExpression ih

/-- Every expression of the grammar within the budget is read, if nothing behind it extends it. -/
theorem complete_expression (budget : Nat) :
    Complete (expression budget) (IsExpression.And fun e => e.tree.Fits budget)
      (Avoids extendsExpression) := by
  induction budget with
  | zero =>
    rintro c ts us e ⟨-, hfits⟩
    exact absurd hfits (Tree.not_within_zero rfl)
  | succ budget ih =>
    rw [isExpression_and_succ]
    exact complete_simpleExpression ih

/-- Whatever `type` reads is a type of the grammar within the budget. -/
theorem sound_type (budget : Nat) :
    Sound (type budget) (IsType.And fun t => t.tree.Fits budget) := by
  induction budget with
  | zero =>
    intro c t c' h
    exact absurd h not_reads_fail
  | succ budget ih =>
    rw [isType_and_succ]
    exact sound_typeForm sound_formalParameters (sound_expression budget) ih

/-- Formal parameters start with a parenthesis. -/
theorem opening_of_isFormalParameters (ts : List Token) (p : FormalParameters)
    (h : IsFormalParameters.And fewOpenArrays ts p) : ∃ us, ts = .mark .leftParen :: us := by
  obtain ⟨⟨_⟩, _⟩ := h
  exact ⟨_, rfl⟩

/-- Every type of the grammar within the budget is read, if nothing behind it extends it. -/
theorem complete_type (budget : Nat) :
    Complete (type budget) (IsType.And fun t => t.tree.Fits budget) (Avoids extendsType) := by
  induction budget with
  | zero =>
    rintro c ts us t ⟨-, hfits⟩
    exact absurd hfits (Tree.not_within_zero rfl)
  | succ budget ih =>
    rw [isType_and_succ]
    exact complete_typeForm complete_formalParameters opening_of_isFormalParameters
      (complete_expression budget) ih

/-- Whatever `procedure` reads is a procedure of the grammar within the budget. -/
theorem sound_procedure (budget : Nat) :
    Sound (procedure budget) (IsProcedure.And fun p => p.tree.Fits budget) := by
  induction budget with
  | zero =>
    intro c p c' h
    exact absurd h not_reads_fail
  | succ budget ih =>
    rw [isProcedure_and_succ]
    exact sound_procedureBody sound_formalParameters (sound_expression budget)
      (sound_type budget) ih

/-- Procedures start with their keyword. -/
theorem heading_of_isProcedure {budget : Nat} (ts : List Token) (p : ProcedureDeclaration)
    (h : IsProcedure.And (fun p => p.tree.Fits budget) ts p) :
    ∃ us, ts = .keyword .PROCEDURE :: us := by
  obtain ⟨⟨⟨⟨_⟩, _⟩⟩, _⟩ := h
  exact ⟨_, rfl⟩

/-- Every procedure of the grammar within the budget is read. -/
theorem complete_procedure (budget : Nat) :
    Complete (procedure budget) (IsProcedure.And fun p => p.tree.Fits budget) fun _ => True := by
  induction budget with
  | zero =>
    rintro c ts us p ⟨-, hfits⟩
    cases p
    exact absurd hfits (Tree.not_within_zero rfl)
  | succ budget ih =>
    rw [isProcedure_and_succ]
    exact complete_procedureBody complete_formalParameters opening_of_isFormalParameters
      (complete_expression budget) (complete_type budget) ih heading_of_isProcedure

theorem sound_module (budget : Nat) :
    Sound (module budget) (IsModule.And fun m => (Node.root m).tree.Fits budget) := by
  rw [isModule_and]
  exact sound_moduleBody (sound_expression budget) (sound_type budget) (sound_procedure budget)

theorem complete_module (budget : Nat) :
    Complete (module budget) (IsModule.And fun m => (Node.root m).tree.Fits budget)
      fun _ => True := by
  rw [isModule_and]
  exact complete_moduleBody (complete_expression budget) (complete_type budget)
    (complete_procedure budget) heading_of_isProcedure

/-! ## Whole inputs -/

/-- A whole text is an item and then the end. -/
theorem reads_whole {item : Parser α} {c c' : Cursor} {x : α} :
    (whole item).Reads c x c' ↔ item.Reads c x c' ∧ c'.token = .endOfFile := by
  simp only [whole, reads_bind, reads_token, reads_ite, reads_pure, not_reads_fail, and_false,
    or_false]
  constructor
  · rintro ⟨_, _, h, _, _, ⟨rfl, rfl⟩, hend, rfl, rfl⟩
    exact ⟨h, hend⟩
  · rintro ⟨h, hend⟩
    exact ⟨x, c', h, _, _, ⟨rfl, rfl⟩, hend, rfl, rfl⟩

/-- A run succeeds exactly if the parser reads something. -/
theorem runAt_eq_ok_iff {p : Parser α} {c : Cursor} {x : α} :
    (p.runAt c).1 = .ok x ↔ ∃ c', p.Reads c x c' := by
  unfold runAt Reads
  cases hrun : p.run c with
  | error failure => simp
  | ok result =>
    obtain ⟨y, c'⟩ := result
    simp

/-- A sound and complete parser accepts a whole input exactly if all of it is derived. -/
theorem whole_eq_ok_iff {item : Parser α} {rule : Rule α} {follow : List Token → Prop}
    (hsound : Sound item rule) (hcomplete : Complete item rule follow) (hfollow : follow [])
    {tokens : List LocatedToken} (hend : ∀ t ∈ tokens, t.token ≠ .endOfFile) {x : α} :
    ((whole item).runAt (.start tokens)).1 = .ok x ↔ rule (tokens.map LocatedToken.token) x := by
  rw [runAt_eq_ok_iff]
  constructor
  · rintro ⟨c', hreads⟩
    obtain ⟨hitem, hstop⟩ := reads_whole.mp hreads
    obtain ⟨ts, htokens, hrule⟩ := hsound hitem
    have hnone : c'.tokens = [] := by
      cases hrest : c'.tokens with
      | nil => rfl
      | cons t us =>
        -- the token at the cursor is one of the input, so it is not the end
        have hmem : t ∈ (Cursor.start tokens).tokens := by
          rw [htokens, hrest]
          exact List.mem_append_right _ List.mem_cons_self
        obtain ⟨located, hlocated, rfl⟩ := List.mem_map.mp hmem
        rw [Cursor.token_eq_head hrest] at hstop
        exact absurd hstop (hend located hlocated)
    rw [hnone, List.append_nil] at htokens
    rw [← htokens] at hrule
    exact hrule
  · intro hrule
    have htokens : (Cursor.start tokens).tokens = tokens.map LocatedToken.token ++ [] :=
      (List.append_nil _).symm
    obtain ⟨c', hreads, hc'⟩ := hcomplete hrule htokens hfollow
    exact ⟨c', reads_whole.mpr ⟨hreads, Cursor.token_eq_endOfFile hc'⟩⟩

/-- An outcome that is decided by which trees are derived: it is the derived tree if there is one,
which is then the only one, and an error otherwise. -/
structure Decides (outcome : Except SyntaxError α) (derived : α → Prop) : Prop where
  ok_iff : ∀ x, outcome = .ok x ↔ derived x
  unique : ∀ x y, derived x → derived y → x = y
  error_of_none : (∀ x, ¬ derived x) → ∃ e, outcome = .error e

/-- An outcome that is a tree exactly if the tree is derived decides the derivation. -/
theorem Decides.of_ok_iff {outcome : Except SyntaxError α} {derived : α → Prop}
    (h : ∀ x, outcome = .ok x ↔ derived x) : Decides outcome derived := by
  refine ⟨h, fun x y hx hy => ?_, fun hnone => ?_⟩
  · have hxy := ((h x).mpr hx).symm.trans ((h y).mpr hy)
    exact Except.ok.inj hxy
  · cases houtcome : outcome with
    | error e => exact ⟨e, rfl⟩
    | ok x => exact absurd ((h x).mp houtcome) (hnone x)

/-- Parsing succeeds exactly with the tree that the grammar derives within the limits. -/
theorem parse_decides_grammar (tokens : List LocatedToken)
    (hend : ∀ t ∈ tokens, t.token ≠ .endOfFile) :
    Decides (parseModule tokens) (fun m => IsModule (tokens.map LocatedToken.token) m ∧
        (Node.root m).tree.WithinLimits maxNesting maxOpenArrays) ∧
      Decides (parseExpression tokens) (fun e => IsExpression (tokens.map LocatedToken.token) e ∧
        (Node.expression e).tree.WithinLimits maxNesting maxOpenArrays) := by
  constructor
  · refine .of_ok_iff fun m => ?_
    rw [Tree.withinLimits_iff]
    exact whole_eq_ok_iff (sound_module maxNesting) (complete_module maxNesting) trivial hend
  · refine .of_ok_iff fun e => ?_
    rw [Tree.withinLimits_iff]
    exact whole_eq_ok_iff (sound_expression maxNesting) (complete_expression maxNesting)
      (avoids_nil _) hend

/-- The tokens of `2 * (k - 1)`. -/
def productTokens : List LocatedToken :=
  [.integer 2, .mark .times, .mark .leftParen, .identifier "k", .mark .minus, .integer 1,
    .mark .rightParen].map (⟨·, 1⟩)

def product : Expression where
  sign := none
  first := ⟨.number (.integer 2), [⟨.times, .parenthesized
    ⟨none, ⟨.name ⟨none, "k"⟩, []⟩, [⟨.minus, ⟨.number (.integer 1), []⟩⟩]⟩⟩]⟩
  operations := []

/-- The tokens of a module with that product as a constant and with a procedure inside another
one. -/
def nestedTokens : List LocatedToken :=
  [.keyword .MODULE, .identifier "M", .mark .semicolon,
    .keyword .CONST, .identifier "n", .mark .times, .mark .equal].map (⟨·, 1⟩) ++ productTokens ++
  [.mark .semicolon,
    .keyword .PROCEDURE, .identifier "P", .mark .leftParen, .identifier "a", .mark .colon,
    .keyword .ARRAY, .keyword .OF, .identifier "T", .mark .rightParen, .mark .semicolon,
    .keyword .VAR, .identifier "p", .mark .colon, .keyword .POINTER, .keyword .TO,
    .identifier "T", .mark .semicolon,
    .keyword .PROCEDURE, .identifier "Q", .mark .semicolon,
    .keyword .RETURN, .identifier "n", .keyword .END, .identifier "Q", .mark .semicolon,
    .keyword .END, .identifier "P", .mark .semicolon,
    .keyword .END, .identifier "M", .mark .dot].map (⟨·, 2⟩)

def nestedModule : Module where
  name := "M"
  imports := none
  declarations := {
    constants := [⟨⟨"n", true⟩, product⟩]
    types := []
    vars := []
    procedures := [{
      heading := ⟨⟨"P", false⟩, some ⟨[⟨false, ["a"], ⟨1, ⟨none, "T"⟩⟩⟩], none⟩⟩
      declarations := {
        constants := []
        types := []
        vars := [⟨[⟨"p", false⟩], .pointer (.named ⟨none, "T"⟩)⟩]
        procedures := [{
          heading := ⟨⟨"Q", false⟩, none⟩
          declarations := ⟨[], [], [], []⟩
          result := some ⟨none, ⟨.name ⟨none, "n"⟩, []⟩, []⟩
          endName := "Q" }] }
      result := none
      endName := "P" }] }
  endName := "M"

/-- What is parsed here is derived, and nothing else is. -/
theorem parse_decides_grammar_nested :
    (∀ t ∈ nestedTokens, t.token ≠ .endOfFile) ∧ (∀ t ∈ productTokens, t.token ≠ .endOfFile) ∧
      (∀ m, IsModule (nestedTokens.map LocatedToken.token) m ∧
        (Node.root m).tree.WithinLimits maxNesting maxOpenArrays ↔ m = nestedModule) ∧
      ∀ e, IsExpression (productTokens.map LocatedToken.token) e ∧
        (Node.expression e).tree.WithinLimits maxNesting maxOpenArrays ↔ e = product := by
  have hnested : ∀ t ∈ nestedTokens, t.token ≠ .endOfFile := by decide
  have hproduct : ∀ t ∈ productTokens, t.token ≠ .endOfFile := by decide
  have hmodule := (parse_decides_grammar nestedTokens hnested).1
  have hexpression := (parse_decides_grammar productTokens hproduct).2
  have hparseModule : parseModule nestedTokens = .ok nestedModule := rfl
  have hparseExpression : parseExpression productTokens = .ok product := rfl
  refine ⟨hnested, hproduct, fun m => ?_, fun e => ?_⟩
  · rw [← hmodule.ok_iff m, hparseModule, Except.ok.injEq, eq_comm]
  · rw [← hexpression.ok_iff e, hparseExpression, Except.ok.injEq, eq_comm]

end Parser

end Oberon
