import Oberon.Proofs.Grammar
import Oberon.Syntax.Parser

/-!
# Successful runs of parsers

`p.Reads c x c'` says that `p`, started at the cursor `c`, succeeds with `x` and stops at `c'`.  A
parser is sound for a rule if what it steps over is derived from the rule, and complete for it if
it steps over everything that is derived, provided that what follows cannot go on the derived
text.  Lines play no part: a cursor is seen through the tokens that it has in front of it.
-/

namespace Oberon

def Cursor.tokens (c : Cursor) : List Token :=
  c.rest.map LocatedToken.token

namespace Cursor

theorem token_eq_head {c : Cursor} {t : Token} {ts : List Token} (h : c.tokens = t :: ts) :
    c.token = t := by
  obtain ⟨rest, line⟩ := c
  cases rest with
  | nil => cases h
  | cons located rest => exact (List.cons.inj h).1

theorem tokens_advance {c : Cursor} {t : Token} {ts : List Token} (h : c.tokens = t :: ts) :
    c.advance.tokens = ts := by
  obtain ⟨rest, line⟩ := c
  cases rest with
  | nil => cases h
  | cons located rest => exact (List.cons.inj h).2

theorem token_eq_endOfFile {c : Cursor} (h : c.tokens = []) : c.token = .endOfFile := by
  obtain ⟨rest, line⟩ := c
  cases rest with
  | nil => rfl
  | cons located rest => cases h

/-- A token at the cursor that is not the end stands in front of the others. -/
theorem tokens_eq_cons {c : Cursor} {t : Token} (h : c.token = t) (ht : t ≠ .endOfFile) :
    c.tokens = t :: c.advance.tokens := by
  obtain ⟨rest, line⟩ := c
  cases rest with
  | nil => exact absurd h.symm ht
  | cons located rest =>
    have hlocated : located.token = t := h
    simp [tokens, advance, hlocated]

/-- The rest has as many entries as tokens. -/
theorem length_rest (c : Cursor) : c.rest.length = c.tokens.length := by
  simp [tokens]

end Cursor

namespace Parser

open Grammar

variable {α β ω : Type}

/-- The parser succeeds at `c` with the result `x` and stops at `c'`. -/
def Reads (p : Parser α) (c : Cursor) (x : α) (c' : Cursor) : Prop :=
  p.run c = .ok (x, c')

/-- What the parser steps over is derived from the rule. -/
def Sound (p : Parser α) (rule : Rule α) : Prop :=
  ∀ ⦃c x c'⦄, p.Reads c x c' → ∃ ts, c.tokens = ts ++ c'.tokens ∧ rule ts x

/-- The parser steps over what is derived from the rule, whatever follows it that satisfies
`follow`. -/
def Complete (p : Parser α) (rule : Rule α) (follow : List Token → Prop) : Prop :=
  ∀ ⦃c ts us x⦄, rule ts x → c.tokens = ts ++ us → follow us → ∃ c', p.Reads c x c' ∧ c'.tokens = us

theorem Sound.mono {p : Parser α} {rule rule' : Rule α} (h : Sound p rule)
    (hrule : ∀ ts x, rule ts x → rule' ts x) : Sound p rule' := by
  intro c x c' hreads
  obtain ⟨ts, htokens, hts⟩ := h hreads
  exact ⟨ts, htokens, hrule ts x hts⟩

/-- A complete parser is complete for less. -/
theorem Complete.mono {p : Parser α} {rule rule' : Rule α} {follow follow' : List Token → Prop}
    (h : Complete p rule follow) (hrule : ∀ ts x, rule' ts x → rule ts x)
    (hfollow : ∀ us, follow' us → follow us) : Complete p rule' follow' := by
  intro c ts us x hts htokens hus
  exact h (hrule ts x hts) htokens (hfollow us hus)

/-! ## Steps -/

@[simp]
theorem reads_pure {x y : α} {c c' : Cursor} : Reads (pure x) c y c' ↔ x = y ∧ c = c' := by
  change (Except.ok (x, c) : Except Failure (α × Cursor)) = .ok (y, c') ↔ _
  simp

/-- A sequence reads what its two parts read. -/
@[simp]
theorem reads_bind {p : Parser α} {f : α → Parser β} {c c'' : Cursor} {y : β} :
    Reads (p >>= f) c y c'' ↔ ∃ x c', p.Reads c x c' ∧ (f x).Reads c' y c'' := by
  unfold Reads
  rw [StateT.run_bind]
  cases p.run c with
  | error failure =>
    change (Except.error failure : Except Failure (β × Cursor)) = _ ↔ _
    simp
  | ok result =>
    obtain ⟨x, c'⟩ := result
    change (f x).run c' = _ ↔ _
    simp only [Except.ok.injEq, Prod.mk.injEq]
    constructor
    · intro h
      exact ⟨x, c', ⟨rfl, rfl⟩, h⟩
    · rintro ⟨_, _, ⟨rfl, rfl⟩, h⟩
      exact h

@[simp]
theorem reads_map {p : Parser α} {f : α → β} {c c' : Cursor} {y : β} :
    Reads (f <$> p) c y c' ↔ ∃ x, p.Reads c x c' ∧ f x = y := by
  rw [map_eq_pure_bind, reads_bind]
  simp

@[simp]
theorem reads_get {c c' x : Cursor} : Reads get c x c' ↔ c = x ∧ c = c' := by
  change (Except.ok (c, c) : Except Failure (Cursor × Cursor)) = .ok (x, c') ↔ _
  simp

@[simp]
theorem reads_token {c c' : Cursor} {t : Token} : Reads token c t c' ↔ c.token = t ∧ c = c' := by
  simp only [token, reads_bind, reads_get, reads_pure]
  constructor
  · rintro ⟨_, _, ⟨rfl, rfl⟩, rfl, rfl⟩
    exact ⟨rfl, rfl⟩
  · rintro ⟨rfl, rfl⟩
    exact ⟨c, c, ⟨rfl, rfl⟩, rfl, rfl⟩

/-- The token at the cursor is known before the parser goes on. -/
theorem reads_bind_token {f : Token → Parser α} {c c' : Cursor} {x : α} :
    Reads (token >>= f) c x c' ↔ (f c.token).Reads c x c' := by
  rw [reads_bind]
  constructor
  · rintro ⟨_, _, htoken, h⟩
    obtain ⟨rfl, rfl⟩ := reads_token.mp htoken
    exact h
  · intro h
    exact ⟨c.token, c, reads_token.mpr ⟨rfl, rfl⟩, h⟩

@[simp]
theorem reads_advance {c c' : Cursor} {u : Unit} : Reads advance c u c' ↔ c.advance = c' := by
  change (Except.ok (u, c.advance) : Except Failure (Unit × Cursor)) = .ok (u, c') ↔ _
  simp

@[simp]
theorem not_reads_fail {expected : Expectation} {c c' : Cursor} {x : α} :
    ¬ Reads (fail expected) c x c' := by
  intro h
  change (Except.error _ : Except Failure (α × Cursor)) = .ok (x, c') at h
  cases h

/-- A run is in one branch of a choice. -/
theorem reads_ite {b : Prop} [Decidable b] {p q : Parser α} {c c' : Cursor} {x : α} :
    Reads (if b then p else q) c x c' ↔ b ∧ p.Reads c x c' ∨ ¬ b ∧ q.Reads c x c' := by
  by_cases h : b <;> simp [h]

/-! ## Single tokens -/

/-- Accepting succeeds in every case and says whether the token was there. -/
theorem reads_accept {t : Token} {c c' : Cursor} {b : Bool} :
    Reads (accept t) c b c' ↔
      c.token = t ∧ b = true ∧ c.advance = c' ∨ c.token ≠ t ∧ b = false ∧ c = c' := by
  simp only [accept, reads_bind, reads_token, reads_ite, reads_advance, reads_pure]
  constructor
  · rintro ⟨_, _, ⟨rfl, rfl⟩, ⟨h, _, _, rfl, rfl, rfl⟩ | ⟨h, rfl, rfl⟩⟩
    · exact .inl ⟨h, rfl, rfl⟩
    · exact .inr ⟨h, rfl, rfl⟩
  · rintro (⟨h, rfl, rfl⟩ | ⟨h, rfl, rfl⟩)
    · exact ⟨_, _, ⟨rfl, rfl⟩, .inl ⟨h, (), _, rfl, rfl, rfl⟩⟩
    · exact ⟨_, _, ⟨rfl, rfl⟩, .inr ⟨h, rfl, rfl⟩⟩

/-- Accepting a token that is there steps over it. -/
theorem reads_accept_of_head {t : Token} {c : Cursor} {us : List Token} (h : c.tokens = t :: us) :
    Reads (accept t) c true c.advance :=
  reads_accept.mpr (.inl ⟨Cursor.token_eq_head h, rfl, rfl⟩)

/-- Accepting a token that is not there changes nothing. -/
theorem reads_accept_of_not_head {t : Token} {c : Cursor} (h : c.tokens.head? ≠ some t)
    (ht : t ≠ .endOfFile) : Reads (accept t) c false c := by
  refine reads_accept.mpr (.inr ⟨fun htoken => h ?_, rfl, rfl⟩)
  rw [Cursor.tokens_eq_cons htoken ht]
  rfl

/-- What accepting a token did can be seen from its answer. -/
theorem tokens_of_reads_accept {t : Token} {c c' : Cursor} {b : Bool}
    (h : Reads (accept t) c b c') (ht : t ≠ .endOfFile) :
    c.tokens = (if b then [t] else []) ++ c'.tokens := by
  obtain ⟨htoken, rfl, rfl⟩ | ⟨-, rfl, rfl⟩ := reads_accept.mp h
  · exact Cursor.tokens_eq_cons htoken ht
  · rfl

/-- Expecting succeeds exactly if the token is there. -/
theorem reads_expect {t : Token} {c c' : Cursor} {u : Unit} :
    Reads (expect t) c u c' ↔ c.token = t ∧ c.advance = c' := by
  simp only [expect, reads_bind, reads_token, reads_ite, reads_advance, not_reads_fail, and_false,
    or_false]
  constructor
  · rintro ⟨_, _, ⟨rfl, rfl⟩, h, rfl⟩
    exact ⟨h, rfl⟩
  · rintro ⟨h, rfl⟩
    exact ⟨_, _, ⟨rfl, rfl⟩, h, rfl⟩

/-- An expected token that comes next is consumed. -/
theorem reads_expect_of_head {t : Token} {c : Cursor} {us : List Token} (h : c.tokens = t :: us) :
    Reads (expect t) c () c.advance :=
  reads_expect.mpr ⟨Cursor.token_eq_head h, rfl⟩

/-- A token that was expected and read came next. -/
theorem tokens_of_reads_expect {t : Token} {c c' : Cursor} {u : Unit}
    (h : Reads (expect t) c u c') (ht : t ≠ .endOfFile) :
    c.tokens = t :: c'.tokens := by
  obtain ⟨htoken, rfl⟩ := reads_expect.mp h
  exact Cursor.tokens_eq_cons htoken ht

end Parser

end Oberon
