import Oberon.Proofs.Grammar.ViablePrefix
import Oberon.Proofs.Syntax.Calls

/-!
# Syntax errors point at the right token

Main statement: a syntax error names the first token at which the tokens stop to be the beginning
of a module.  What has been read until then begins some module; and no list that goes on with the
same two tokens is one.
-/

namespace Oberon

def lastLine (tokens : List LocatedToken) : Nat :=
  tokens.getLast?.elim 1 LocatedToken.line

def Likeness.reading (tokens : List LocatedToken) : Likeness where
  Rel c d := c = d ∧ ∃ read, tokens = read ++ c.rest ∧ c.line = lastLine read
  rest h := congrArg Cursor.rest h.1
  advance {c d} h := by
    obtain ⟨rfl, read, htokens, hline⟩ := h
    refine ⟨rfl, ?_⟩
    unfold Cursor.advance
    split
    · exact ⟨read, htokens, hline⟩
    next t rest hrest =>
      refine ⟨read ++ [t], ?_, ?_⟩
      · rw [htokens, hrest, List.append_assoc]
        rfl
      · rw [lastLine, List.getLast?_concat]
        rfl

namespace Parser

open Grammar

variable {α : Type}

/-- A run that fails has stopped at a cursor, whose token it reports. -/
theorem ends_of_runAt_eq_error {p : Parser α} {c : Cursor} {e : SyntaxError}
    (h : (p.runAt c).1 = .error e) :
    ∃ expected, p.Ends c (.error expected) (p.runAt c).2 ∧
      e = Failure.error ⟨expected, (p.runAt c).2⟩ := by
  unfold runAt at h ⊢
  cases hrun : p.run c with
  | ok result =>
    rw [hrun] at h
    cases h
  | error failure =>
    rw [hrun] at h
    cases h
    exact ⟨failure.expected, hrun, rfl⟩

/-- A parser that stops with an error gives no tree. -/
theorem runAt_ne_ok_of_ends {p : Parser α} {c c' : Cursor} {expected : Expectation}
    (h : p.Ends c (.error expected) c') (x : α) : (p.runAt c).1 ≠ .ok x := by
  have hrun : p.run c = .error ⟨expected, c'⟩ := h
  rw [runAt, hrun]
  exact nofun

/-- The tokens that have been read can be seen from where the run has stopped. -/
theorem runAt_wholeModule_position (tokens : List LocatedToken) :
    ∃ read, tokens = read ++ (wholeModule.runAt (.start tokens)).2.rest ∧
      (wholeModule.runAt (.start tokens)).2.line = lastLine read := by
  have hstart : (Likeness.reading tokens).Rel (.start tokens) (.start tokens) := ⟨rfl, [], rfl, rfl⟩
  exact (alike_wholeModule.runAt_snd hstart).2

/-- A list that agrees with another one up to the second token behind `ts`. -/
theorem exists_eq_append_of_take {os ts us : List Token}
    (h : os.take (ts.length + 2) = (ts ++ us).take (ts.length + 2)) :
    ∃ rest, os = ts ++ rest ∧ rest.take 2 = us.take 2 := by
  have hsplit : (ts ++ us).take (ts.length + 2) = ts ++ us.take 2 := by
    rw [List.take_append, List.take_of_length_le (Nat.le_add_right _ _), Nat.add_sub_cancel_left]
  rw [hsplit] at h
  refine ⟨os.drop ts.length, ?_, ?_⟩
  · have hts : os.take ts.length = ts := by
      have htake := congrArg (List.take ts.length) h
      rwa [List.take_take, Nat.min_eq_left (Nat.le_add_right _ _), List.take_left] at htake
    calc os = os.take ts.length ++ os.drop ts.length := (List.take_append_drop ts.length os).symm
      _ = ts ++ os.drop ts.length := by rw [hts]
  · have hdrop := congrArg (List.drop ts.length) h
    rwa [List.drop_take, Nat.add_sub_cancel_left, List.drop_left] at hdrop

/-- A syntax error points at the right place.  Of the tokens, `k` have been read when it is found:
they begin some module.  The error gives the next token and its line, or the end of the file and
the last line.  And no token list that has the same tokens up to the second one behind those is a
module. -/
theorem error_points_at_token (tokens : List LocatedToken) (e : SyntaxError)
    (h : parseModule tokens = .error e) :
    ∃ k ≤ tokens.length, (wholeModule.runAt (.start tokens)).2.rest = tokens.drop k ∧
      (∃ us m, IsModule ((tokens.take k).map LocatedToken.token ++ us) m) ∧
      e.found = tokens[k]?.elim "end of file" (fun t => t.token.text) ∧
      e.line = tokens[k]?.elim (lastLine tokens) LocatedToken.line ∧
      ∀ others : List LocatedToken,
        (others.map LocatedToken.token).take (k + 2) =
          (tokens.map LocatedToken.token).take (k + 2) →
        ∀ m, parseModule others ≠ .ok m := by
  obtain ⟨read, htokens, hline⟩ := runAt_wholeModule_position tokens
  obtain ⟨expected, hends, rfl⟩ := ends_of_runAt_eq_error h
  obtain ⟨ts, hread, hviable, hsettled⟩ := tracks_wholeModule.run _ hends
  generalize (wholeModule.runAt (.start tokens)).2 = c at *
  subst htokens
  -- what was read is the text in front of the cursor
  obtain rfl : read.map LocatedToken.token = ts := by
    refine List.append_cancel_right (Eq.trans ?_ hread)
    exact List.map_append.symm
  refine ⟨read.length, by simp, by simp, ?_, ?_, ?_, ?_⟩
  · rw [List.take_left]
    exact hviable
  · rw [List.getElem?_append_right (Nat.le_refl _), Nat.sub_self]
    obtain ⟨rest, line, depth⟩ := c
    cases rest <;> rfl
  · rw [List.getElem?_append_right (Nat.le_refl _), Nat.sub_self]
    obtain ⟨rest, line, depth⟩ := c
    cases rest with
    | nil =>
      rw [List.append_nil]
      exact hline
    | cons t rest => rfl
  · intro others hothers
    -- the same two tokens come next, so the run on the other list ends with the same error
    rw [List.map_append, ← List.length_map (f := LocatedToken.token)] at hothers
    obtain ⟨rest, hrest, hnear⟩ := exists_eq_append_of_take hothers
    obtain ⟨_, hends', -⟩ := hsettled (d := .start others) hrest hnear
    exact runAt_ne_ok_of_ends hends'

/-- The tokens of `MODULE M; CONST c = a.5;`, where a point does not go on the name in front of
it. -/
def pointTokens : List LocatedToken :=
  [⟨.keyword .MODULE, 1⟩, ⟨.identifier "M", 1⟩, ⟨.mark .semicolon, 1⟩, ⟨.keyword .CONST, 2⟩,
    ⟨.identifier "c", 2⟩, ⟨.mark .equal, 2⟩, ⟨.identifier "a", 2⟩, ⟨.mark .dot, 3⟩, ⟨.integer 5, 4⟩,
    ⟨.mark .semicolon, 4⟩]

theorem error_points_at_token_point :
    parseModule pointTokens = .error ⟨";", ".", 3⟩ ∧
      (∃ us m, IsModule ((pointTokens.take 7).map LocatedToken.token ++ us) m) ∧
      ∀ others : List LocatedToken,
        (others.map LocatedToken.token).take 9 = (pointTokens.map LocatedToken.token).take 9 →
        ∀ m, parseModule others ≠ .ok m := by
  have herror : parseModule pointTokens = .error ⟨";", ".", 3⟩ := rfl
  obtain ⟨k, hk, hrest, hviable, -, -, hothers⟩ := error_points_at_token pointTokens _ herror
  have hlength : (wholeModule.runAt (.start pointTokens)).2.rest.length = 3 := rfl
  have hall : pointTokens.length = 10 := rfl
  rw [hrest, List.length_drop] at hlength
  obtain rfl : k = 7 := by omega
  exact ⟨herror, hviable, hothers⟩

end Parser

end Oberon
