import Oberon.Proofs.Grammar.Soundness

/-!
# What is derived is accepted

Every parser steps over exactly what is derived from its rule, as long as what follows cannot go
on the derived text.  The parsers decide by the token at the cursor, so each lemma says which
tokens may not follow (`Avoids`), and the rules that contain a construct show that none of these
tokens follows it.
-/

namespace Oberon

/-- What follows does not start with one of the tokens that would go on. -/
def Avoids (goesOn : Token → Bool) (us : List Token) : Prop :=
  ∀ t ∈ us.head?, goesOn t = false

@[simp]
theorem avoids_nil (goesOn : Token → Bool) : Avoids goesOn [] :=
  nofun

@[simp]
theorem avoids_cons {goesOn : Token → Bool} {t : Token} {us : List Token} :
    Avoids goesOn (t :: us) ↔ goesOn t = false := by
  simp [Avoids]

/-- A list that avoids much avoids less. -/
theorem Avoids.mono {goesOn goesOn' : Token → Bool} {us : List Token} (h : Avoids goesOn us)
    (himp : ∀ t, goesOn' t = true → goesOn t = true) : Avoids goesOn' us := by
  intro t ht
  have hfalse := h t ht
  cases hgoesOn : goesOn' t with
  | false => rfl
  | true => rw [himp t hgoesOn] at hfalse; cases hfalse

theorem Avoids.single {goesOn : Token → Bool} {us : List Token} (h : Avoids goesOn us) {t : Token}
    (ht : goesOn t = true) : Avoids (· = t) us := by
  apply h.mono
  intro t' heq
  rw [of_decide_eq_true heq, ht]

/-- A list that avoids a token does not start with it. -/
theorem Avoids.head?_ne {t : Token} {us : List Token} (h : Avoids (· = t) us) :
    us.head? ≠ some t := by
  intro heq
  simpa using h t heq

namespace Parser

open Grammar

variable {α β γ ω : Type}

/-- The token of the cursor is avoided too if the end is. -/
theorem Avoids.token {goesOn : Token → Bool} {c : Cursor} (h : Avoids goesOn c.tokens)
    (hend : goesOn .endOfFile = false) : goesOn c.token = false := by
  cases htokens : c.tokens with
  | nil => rw [Cursor.token_eq_endOfFile htokens, hend]
  | cons t us =>
    rw [htokens, avoids_cons] at h
    rw [Cursor.token_eq_head htokens, h]

/-! ## Combinators -/

theorem complete_manyUpTo {starts : Token → Bool} {item : Parser α} {rule : Rule α}
    (hitem : Complete item rule fun _ => True)
    (hstarts : rule.Starts starts)
    (hend : starts .endOfFile = false) {ts us : List Token} {xs : List α}
    (h : Repeated rule ts xs) {c : Cursor} {limit : Nat} (htokens : c.tokens = ts ++ us)
    (hus : Avoids starts us) (hlimit : ts.length ≤ limit) :
    ∃ c', (manyUpTo starts item limit).Reads c xs c' ∧ c'.tokens = us := by
  -- the limit is the length of the remaining tokens, and every item takes at least one of them
  induction h generalizing c limit with
  | nil =>
    refine ⟨c, ?_, htokens⟩
    cases limit with
    | zero => simp [manyUpTo]
    | succ limit =>
      have htoken : starts c.token = false := Avoids.token (by rwa [htokens]) hend
      simp only [manyUpTo, reads_bind, reads_token]
      exact ⟨_, _, ⟨rfl, rfl⟩, by simp [htoken]⟩
  | @cons ts vs x xs first others ih =>
    obtain ⟨t, ts', rfl, ht⟩ := hstarts first
    cases limit with
    | zero => simp at hlimit
    | succ limit =>
      rw [List.append_assoc] at htokens
      obtain ⟨c₁, hfirst, hc₁⟩ := hitem first htokens trivial
      have hshort : vs.length ≤ limit := by
        simp only [List.length_append, List.length_cons] at hlimit
        omega
      obtain ⟨c₂, hothers, hc₂⟩ := ih hc₁ hshort
      refine ⟨c₂, ?_, hc₂⟩
      simp only [manyUpTo, reads_bind, reads_token]
      refine ⟨_, _, ⟨rfl, rfl⟩, ?_⟩
      rw [Cursor.token_eq_head htokens, ht, if_pos rfl]
      simp only [reads_bind, reads_pure]
      exact ⟨x, c₁, hfirst, xs, c₂, hothers, rfl, rfl⟩

/-- Items are read one by one, up to a token that starts none. -/
theorem complete_many {starts : Token → Bool} {item : Parser α} {rule : Rule α}
    (hitem : Complete item rule fun _ => True)
    (hstarts : rule.Starts starts)
    (hend : starts .endOfFile = false) :
    Complete (many starts item) (Repeated rule) (Avoids starts) := by
  intro c ts us xs hrule htokens hus
  have hlimit : ts.length ≤ c.rest.length := by
    rw [c.length_rest, htokens, List.length_append]
    omega
  obtain ⟨c', hreads, hc'⟩ := complete_manyUpTo hitem hstarts hend hrule htokens hus hlimit
  refine ⟨c', ?_, hc'⟩
  simp only [many, reads_bind, reads_get]
  exact ⟨_, _, ⟨rfl, rfl⟩, hreads⟩

/-- Operations start with an operator, or there are none. -/
theorem follow_operations {operator? : Token → Option ω} {rule : Rule α} {combine : ω → α → β}
    {follow : List Token → Prop} (hfollow : ∀ t us, (operator? t).isSome → follow (t :: us))
    {ts us : List Token} {ys : List β}
    (h : Repeated (Grammar.Operation operator? rule combine) ts ys)
    (hus : follow us) : follow (ts ++ us) := by
  cases h with
  | nil => exact hus
  | cons first _ =>
    obtain ⟨ht, _⟩ := first
    exact hfollow _ _ (by rw [ht]; rfl)

theorem complete_operationsUpTo {operator? : Token → Option ω} {operand : Parser α}
    {combine : ω → α → β} {rule : Rule α} {follow : List Token → Prop}
    (hoperand : Complete operand rule follow) (hend : operator? .endOfFile = none)
    (hfollow : ∀ t us, (operator? t).isSome → follow (t :: us)) {ts us : List Token} {ys : List β}
    (h : Repeated (Grammar.Operation operator? rule combine) ts ys) {c : Cursor} {limit : Nat}
    (htokens : c.tokens = ts ++ us) (hus : follow us)
    (hstop : Avoids (fun t => (operator? t).isSome) us) (hlimit : ts.length ≤ limit) :
    ∃ c', (operationsUpTo operator? operand combine limit).Reads c ys c' ∧ c'.tokens = us := by
  -- what follows an operand is the next operator or what follows them all
  induction h generalizing c limit with
  | nil =>
    refine ⟨c, ?_, htokens⟩
    cases limit with
    | zero => simp [operationsUpTo]
    | succ limit =>
      have htoken : (operator? c.token).isSome = false :=
        Avoids.token (by rwa [htokens]) (by rw [hend]; rfl)
      simp only [operationsUpTo, reads_bind, reads_token]
      refine ⟨_, _, ⟨rfl, rfl⟩, ?_⟩
      rw [Option.isSome_eq_false_iff, Option.isNone_iff_eq_none] at htoken
      rw [htoken]
      exact reads_pure.mpr ⟨rfl, rfl⟩
  | @cons _ vs _ ys first others ih =>
    obtain @⟨t, operator, ts, x, ht, hoperandRule⟩ := first
    cases limit with
    | zero => simp at hlimit
    | succ limit =>
      simp only [List.cons_append, List.append_assoc] at htokens
      have hrest := follow_operations hfollow others hus
      obtain ⟨c₁, hfirst, hc₁⟩ := hoperand hoperandRule (Cursor.tokens_advance htokens) hrest
      have hshort : vs.length ≤ limit := by
        simp only [List.length_append, List.length_cons] at hlimit
        omega
      obtain ⟨c₂, hothers, hc₂⟩ := ih hc₁ hshort
      refine ⟨c₂, ?_, hc₂⟩
      simp only [operationsUpTo, reads_bind, reads_token]
      refine ⟨_, _, ⟨rfl, rfl⟩, ?_⟩
      rw [Cursor.token_eq_head htokens, ht]
      simp only [reads_bind, reads_advance, reads_pure]
      exact ⟨(), _, rfl, x, c₁, hfirst, ys, c₂, hothers, rfl, rfl⟩

/-- Operations are read one by one, up to a token that is no operator. -/
theorem complete_operations {operator? : Token → Option ω} {operand : Parser α}
    {combine : ω → α → β} {rule : Rule α} {follow : List Token → Prop}
    (hoperand : Complete operand rule follow) (hend : operator? .endOfFile = none)
    (hfollow : ∀ t us, (operator? t).isSome → follow (t :: us)) :
    Complete (operations operator? operand combine)
      (Repeated (Grammar.Operation operator? rule combine))
      fun us => follow us ∧ Avoids (fun t => (operator? t).isSome) us := by
  intro c ts us ys hrule htokens hus
  have hlimit : ts.length ≤ c.rest.length := by
    rw [c.length_rest, htokens, List.length_append]
    omega
  obtain ⟨c', hreads, hc'⟩ :=
    complete_operationsUpTo hoperand hend hfollow hrule htokens hus.1 hus.2 hlimit
  refine ⟨c', ?_, hc'⟩
  simp only [operations, reads_bind, reads_get]
  exact ⟨_, _, ⟨rfl, rfl⟩, hreads⟩

/-- Separated items are one item and the others behind separators. -/
theorem Separated.to_repeated {separator : Token} {item : Rule α} {ts : List Token} {xs : List α}
    (h : Separated separator item ts xs) :
    ∃ us vs x ys, ts = us ++ vs ∧ xs = x :: ys ∧ item us x ∧
      Repeated (Grammar.Operation (separator? separator) item fun _ y => y) vs ys := by
  induction h with
  | one only => exact ⟨_, [], _, [], by simp, rfl, only, .nil⟩
  | cons first _ ih =>
    obtain ⟨us, vs, x, ys, rfl, rfl, hx, hys⟩ := ih
    have hseparator : separator? separator separator = some () := separator?_eq_some.mpr rfl
    exact ⟨_, separator :: us ++ vs, _, x :: ys, by simp, rfl, first, .cons (.mk hseparator hx) hys⟩

/-- A separated list is read up to a token that is no separator. -/
theorem complete_separated {separator : Token} {item : Parser α} {rule : Rule α}
    {follow : List Token → Prop} (hitem : Complete item rule follow)
    (hfollow : ∀ us, follow (separator :: us)) (hseparator : separator ≠ .endOfFile) :
    Complete (separated separator item) (Separated separator rule)
      fun us => follow us ∧ Avoids (· = separator) us := by
  intro c ts us xs hrule htokens hus
  obtain ⟨ts, vs, x, ys, rfl, rfl, hx, hys⟩ := Separated.to_repeated hrule
  have hend : separator? separator .endOfFile = none := if_neg hseparator.symm
  have hoperator : ∀ t us, (separator? separator t).isSome → follow (t :: us) := by
    intro t us ht
    obtain ⟨u, hu⟩ := Option.isSome_iff_exists.mp ht
    rw [separator?_eq_some.mp hu]
    exact hfollow us
  -- the only token that would go on with the list is the separator itself
  have hstop : Avoids (fun t => (separator? separator t).isSome) us := by
    refine hus.2.mono fun t ht => ?_
    obtain ⟨u, hu⟩ := Option.isSome_iff_exists.mp ht
    simpa using separator?_eq_some.mp hu
  rw [List.append_assoc] at htokens
  obtain ⟨c₁, hfirst, hc₁⟩ := hitem hx htokens (follow_operations hoperator hys hus.1)
  obtain ⟨c₂, hothers, hc₂⟩ := complete_operations hitem hend hoperator hys hc₁ ⟨hus.1, hstop⟩
  refine ⟨c₂, ?_, hc₂⟩
  simp only [separated, reads_bind, reads_pure]
  exact ⟨x, c₁, hfirst, ys, c₂, hothers, rfl, rfl⟩

/-- An option is read if it is there, and nothing if its first token is not. -/
theorem complete_optional {t : Token} {item : Parser α} {rule : Rule α} {follow : List Token → Prop}
    (hitem : Complete item (fun ts x => rule (t :: ts) x) follow)
    (hstarts : ∀ ts x, rule ts x → ∃ us, ts = t :: us) (ht : t ≠ .endOfFile) :
    Complete (optional t item) (Optional rule) fun us => follow us ∧ Avoids (· = t) us := by
  intro c ts us x hrule htokens hus
  simp only [optional, reads_bind]
  cases hrule with
  | none =>
    have hhead : c.tokens.head? ≠ some t := by
      rw [htokens]
      exact hus.2.head?_ne
    refine ⟨c, ⟨false, c, reads_accept_of_not_head hhead ht, ?_⟩, htokens⟩
    simp
  | @some ts x hrule =>
    obtain ⟨ts, rfl⟩ := hstarts _ _ hrule
    rw [List.cons_append] at htokens
    obtain ⟨c', hreads, hc'⟩ := hitem hrule (Cursor.tokens_advance htokens) hus.1
    refine ⟨c', ⟨true, c.advance, reads_accept_of_head htokens, ?_⟩, hc'⟩
    simp only [↓reduceIte, reads_bind, reads_pure]
    exact ⟨x, c', hreads, rfl, rfl⟩

/-- An item behind an opening token. -/
theorem Complete.behind {t : Token} {item : Parser α} {rule : Rule α} {follow : List Token → Prop}
    (h : Complete item rule follow) :
    Complete item (fun ts x => Behind t rule (t :: ts) x) follow :=
  h.mono (fun _ _ ⟨hx⟩ => hx) fun _ hus => hus

theorem opening_behind {t : Token} {rule : Rule α} (ts : List Token) (x : α)
    (h : Behind t rule ts x) :
    ∃ us, ts = t :: us := by
  obtain ⟨_⟩ := h
  exact ⟨_, rfl⟩

/-- What is optional starts with its opening, or it is not there. -/
theorem follow_optional {t : Token} {rule : Rule α} {goesOn : Token → Bool} {ts us : List Token}
    {x : Option α} (h : Optional rule ts x) (hopening : ∀ ts x, rule ts x → ∃ us, ts = t :: us)
    (ht : goesOn t = false) (hus : Avoids goesOn us) : Avoids goesOn (ts ++ us) := by
  cases h with
  | none => exact hus
  | some h =>
    obtain ⟨vs, rfl⟩ := hopening _ _ h
    exact avoids_cons.mpr ht

/-- Two items are read with the token between them. -/
theorem complete_joined {left : Parser α} {right : Parser β} {isLeft : Rule α} {isRight : Rule β}
    {between : Token} {combine : α → β → γ} {followLeft follow : List Token → Prop}
    (hleft : Complete left isLeft followLeft) (hright : Complete right isRight follow)
    (hbetween : ∀ us, followLeft (between :: us)) :
    Complete (do let x ← left; expect between; return combine x (← right))
      (Joined isLeft between isRight combine) follow := by
  intro c ts us z hrule htokens hus
  obtain @⟨ls, rs, x, y, hx, hy⟩ := hrule
  simp only [List.append_assoc, List.cons_append] at htokens
  obtain ⟨c₁, hc₁, htokens₁⟩ := hleft hx htokens (hbetween _)
  obtain ⟨c₂, hc₂, htokens₂⟩ := hright hy (Cursor.tokens_advance htokens₁) hus
  refine ⟨c₂, ?_, htokens₂⟩
  simp only [reads_bind, reads_pure]
  exact ⟨x, c₁, hc₁, (), _, reads_expect_of_head htokens₁, y, c₂, hc₂, rfl, rfl⟩

/-! ## Names -/

theorem complete_identifier : Complete identifier IsName fun _ => True := by
  rintro c _ us _ ⟨name⟩ htokens -
  rw [List.singleton_append] at htokens
  refine ⟨c.advance, ?_, Cursor.tokens_advance htokens⟩
  simp only [identifier, reads_bind, reads_token]
  refine ⟨_, _, ⟨rfl, rfl⟩, ?_⟩
  rw [Cursor.token_eq_head htokens]
  simp

theorem reads_identifier_of_head {c : Cursor} {name : String} {us : List Token}
    (h : c.tokens = .identifier name :: us) : ∃ c', identifier.Reads c name c' ∧ c'.tokens = us :=
  complete_identifier (.mk name) h trivial

/-- A name is read with its mark, if no mark follows that is not its own. -/
theorem complete_identDef : Complete identDef IsIdentDef (Avoids (· = .mark .times)) := by
  intro c ts us x hrule htokens hus
  simp only [identDef, reads_bind, reads_pure]
  cases hrule with
  | hidden name =>
    rw [List.singleton_append] at htokens
    obtain ⟨c₁, hname, hc₁⟩ := reads_identifier_of_head htokens
    have hmark : c₁.tokens.head? ≠ some (.mark .times) := by
      rw [hc₁]
      exact hus.head?_ne
    exact ⟨c₁, ⟨name, c₁, hname, false, c₁, reads_accept_of_not_head hmark (by simp), rfl, rfl⟩,
      hc₁⟩
  | exported name =>
    simp only [List.cons_append, List.nil_append] at htokens
    obtain ⟨c₁, hname, hc₁⟩ := reads_identifier_of_head htokens
    exact ⟨_, ⟨name, c₁, hname, true, _, reads_accept_of_head hc₁, rfl, rfl⟩,
      Cursor.tokens_advance hc₁⟩

/-- A qualified name starts with an identifier. -/
theorem token_of_isQualident {c : Cursor} {ts us : List Token} {q : Qualident}
    (h : IsQualident ts q)
    (htokens : c.tokens = ts ++ us) : ∃ name, c.token = .identifier name := by
  cases h with
  | plain name => exact ⟨name, Cursor.token_eq_head htokens⟩
  | qualified qualifier name => exact ⟨qualifier, Cursor.token_eq_head htokens⟩

/-- A name is read with its qualifier, if no point follows it. -/
theorem complete_qualident : Complete qualident IsQualident (Avoids (· = .mark .dot)) := by
  intro c ts us x hrule htokens hus
  simp only [qualident, reads_bind, reads_get]
  cases hrule with
  | plain name =>
    rw [List.singleton_append] at htokens
    obtain ⟨c₁, hname, hc₁⟩ := reads_identifier_of_head htokens
    refine ⟨c₁, ⟨name, c₁, hname, _, _, ⟨rfl, rfl⟩, ?_⟩, hc₁⟩
    split
    next hrest =>
      -- a point behind the name is excluded by what follows
      rw [Cursor.tokens, hrest] at hc₁
      rw [← hc₁] at hus
      simp at hus
    next => exact reads_pure.mpr ⟨rfl, rfl⟩
  | qualified qualifier name =>
    simp only [List.cons_append, List.nil_append] at htokens
    obtain ⟨c₁, hname, hc₁⟩ := reads_identifier_of_head htokens
    have hdot := Cursor.tokens_advance hc₁
    refine ⟨c₁.advance.advance, ⟨qualifier, c₁, hname, _, _, ⟨rfl, rfl⟩, ?_⟩,
      Cursor.tokens_advance hdot⟩
    obtain ⟨rest, line⟩ := c₁
    match rest, hc₁ with
    | ⟨t, _⟩ :: ⟨t', _⟩ :: rest, hc₁ =>
      simp only [Cursor.tokens, List.map_cons, List.cons.injEq] at hc₁
      obtain ⟨rfl, rfl, -⟩ := hc₁
      simp

theorem complete_identDefs :
    Complete identDefs (Separated (.mark .comma) IsIdentDef)
      fun us => Avoids (· = .mark .times) us ∧ Avoids (· = .mark .comma) us :=
  complete_separated complete_identDef (by simp) (by simp)

theorem complete_identifiers :
    Complete identifiers (Separated (.mark .comma) IsName) (Avoids (· = .mark .comma)) :=
  (complete_separated complete_identifier (fun _ => trivial) (by simp)).mono (fun _ _ h => h)
    fun _ h => ⟨trivial, h⟩

/-! ## Expressions -/

def extendsTerm (t : Token) : Bool :=
  t = .mark .dot || (mulOperator? t).isSome

def extendsExpression (t : Token) : Bool :=
  extendsTerm t || (addOperator? t).isSome

section Expressions

variable {expression : Parser Expression} {isExpression : Rule Expression}

/-- Each form of a factor is told by its first token. -/
theorem complete_factor
    (hexpression : Complete expression isExpression (Avoids extendsExpression)) :
    Complete (factor expression) (IsFactor isExpression) (Avoids (· = .mark .dot)) := by
  intro c ts us x hrule htokens hus
  cases hrule with
  | integer value =>
    refine ⟨c.advance, ?_, Cursor.tokens_advance htokens⟩
    rw [factor, reads_bind_token, Cursor.token_eq_head htokens]
    simp
  | real value =>
    refine ⟨c.advance, ?_, Cursor.tokens_advance htokens⟩
    rw [factor, reads_bind_token, Cursor.token_eq_head htokens]
    simp
  | string content =>
    refine ⟨c.advance, ?_, Cursor.tokens_advance htokens⟩
    rw [factor, reads_bind_token, Cursor.token_eq_head htokens]
    simp
  | @name ts q hq =>
    obtain ⟨c', hreads, hc'⟩ := complete_qualident hq htokens hus
    -- the parser sees the identifier before it reads the qualified name
    obtain ⟨name, hname⟩ := token_of_isQualident hq htokens
    refine ⟨c', ?_, hc'⟩
    rw [factor, reads_bind_token, hname]
    simp only [reads_bind, reads_pure]
    exact ⟨q, c', hreads, rfl, rfl⟩
  | @parenthesized ts e he =>
    simp only [List.cons_append, List.append_assoc, List.nil_append] at htokens
    obtain ⟨c₁, hreads, hc₁⟩ := hexpression he (Cursor.tokens_advance htokens) (avoids_cons.mpr rfl)
    refine ⟨c₁.advance, ?_, Cursor.tokens_advance hc₁⟩
    rw [factor, reads_bind_token, Cursor.token_eq_head htokens]
    simp only [reads_bind, reads_advance, reads_pure]
    exact ⟨(), _, rfl, e, c₁, hreads, (), _, reads_expect_of_head hc₁, rfl, rfl⟩

/-- A term is read up to a token that is no multiplicative operator. -/
theorem complete_term (hexpression : Complete expression isExpression (Avoids extendsExpression)) :
    Complete (term expression) (IsTerm isExpression) (Avoids extendsTerm) := by
  intro c ts us x hrule htokens hus
  obtain @⟨ts, vs, first, operations, hfirst, hothers⟩ := hrule
  have hdot : Avoids (· = .mark .dot) us :=
    hus.single rfl
  have hstop : Avoids (fun t => (mulOperator? t).isSome) us :=
    hus.mono fun t ht => by simp [extendsTerm, ht]
  have hoperator : ∀ t us, (mulOperator? t).isSome → Avoids (· = .mark .dot) (t :: us) := by
    intro t us ht
    rw [avoids_cons, decide_eq_false_iff_not]
    rintro rfl
    cases ht
  rw [isFactorOperation_eq_operation] at hothers
  rw [List.append_assoc] at htokens
  have hfactor := complete_factor hexpression
  obtain ⟨c₁, hc₁, htokens₁⟩ := hfactor hfirst htokens (follow_operations hoperator hothers hdot)
  obtain ⟨c₂, hc₂, htokens₂⟩ :=
    complete_operations hfactor rfl hoperator hothers htokens₁ ⟨hdot, hstop⟩
  refine ⟨c₂, ?_, htokens₂⟩
  simp only [term, reads_bind, reads_pure]
  exact ⟨first, c₁, hc₁, operations, c₂, hc₂, rfl, rfl⟩

/-- A sign is read if it is there; a factor behind it is not taken for one. -/
theorem complete_sign {c : Cursor} {ss us : List Token} {x : Option Sign}
    (h : Optional IsSign ss x) (htokens : c.tokens = ss ++ us)
    (hus : ∃ t vs, us = t :: vs ∧ startsFactor t = true) :
    ∃ c', sign.Reads c x c' ∧ c'.tokens = us := by
  obtain ⟨t, vs, rfl, ht⟩ := hus
  simp only [sign, reads_bind, reads_token]
  cases h with
  | none =>
    refine ⟨c, ⟨_, _, ⟨rfl, rfl⟩, ?_⟩, htokens⟩
    have hnone : sign? t = none := by
      cases t with
      | mark symbol => cases symbol <;> first | rfl | cases ht
      | _ => rfl
    rw [Cursor.token_eq_head htokens, hnone]
    simp
  | some hsign =>
    obtain ⟨sign⟩ := hsign
    rw [List.singleton_append] at htokens
    refine ⟨c.advance, ⟨_, _, ⟨rfl, rfl⟩, ?_⟩, Cursor.tokens_advance htokens⟩
    rw [Cursor.token_eq_head htokens, sign?_eq_some.mpr rfl]
    simp

/-- An expression is read up to a token that is no additive operator. -/
theorem complete_simpleExpression
    (hexpression : Complete expression isExpression (Avoids extendsExpression)) :
    Complete (simpleExpression expression) (IsSimpleExpression isExpression)
      (Avoids extendsExpression) := by
  intro c ts us x hrule htokens hus
  obtain @⟨ss, ts, vs, sign, first, operations, hsign, hfirst, hothers⟩ := hrule
  -- nothing behind the expression goes on its last term
  have hterm : Avoids extendsTerm us := hus.mono fun t ht => by simp [extendsExpression, ht]
  have hstop : Avoids (fun t => (addOperator? t).isSome) us :=
    hus.mono fun t ht => by simp [extendsExpression, ht]
  have hoperator : ∀ t us, (addOperator? t).isSome → Avoids extendsTerm (t :: us) := by
    intro t us ht
    obtain ⟨operator, hoperator⟩ := Option.isSome_iff_exists.mp ht
    rw [avoids_cons, addOperator?_eq_some.mp hoperator]
    cases operator <;> rfl
  -- a sign in front of the first term cannot be taken for a part of it
  have hstarts : ∃ t ws, ts ++ (vs ++ us) = t :: ws ∧ startsFactor t = true := by
    obtain ⟨hfactor, _⟩ := hfirst
    obtain ⟨t, ws, rfl, ht⟩ := starts_isFactor hfactor
    exact ⟨t, _, rfl, ht⟩
  rw [isTermOperation_eq_operation] at hothers
  simp only [List.append_assoc] at htokens
  have hcompleteTerm := complete_term hexpression
  obtain ⟨c₁, hc₁, htokens₁⟩ := complete_sign hsign htokens hstarts
  obtain ⟨c₂, hc₂, htokens₂⟩ :=
    hcompleteTerm hfirst htokens₁ (follow_operations hoperator hothers hterm)
  obtain ⟨c₃, hc₃, htokens₃⟩ :=
    complete_operations hcompleteTerm rfl hoperator hothers htokens₂ ⟨hterm, hstop⟩
  refine ⟨c₃, ?_, htokens₃⟩
  simp only [simpleExpression, reads_bind, reads_pure]
  exact ⟨sign, c₁, hc₁, first, c₂, hc₂, operations, c₃, hc₃, rfl, rfl⟩

end Expressions

/-! ## Parameters -/

/-- The dimensions of a formal type are counted up to the limit. -/
theorem complete_openArrays {ts us : List Token} {formal : FormalType} (h : IsFormalType ts formal)
    {c : Cursor} {limit : Nat} (htokens : c.tokens = ts ++ us) (hle : formal.openArrays ≤ limit) :
    ∃ c' qs, (openArrays limit).Reads c formal.openArrays c' ∧ c'.tokens = qs ++ us ∧
      IsQualident qs formal.name := by
  induction h generalizing c limit with
  | @name ts q hq =>
    -- no further dimension: the name is not ARRAY, whether or not the limit is used up
    have hhead : c.tokens.head? ≠ some (.keyword .ARRAY) := by
      rw [htokens]
      cases hq <;> simp
    refine ⟨c, ts, ?_, htokens, hq⟩
    cases limit with
    | zero =>
      have htoken : c.token ≠ .keyword .ARRAY := by
        intro heq
        rw [Cursor.tokens_eq_cons heq (by simp)] at hhead
        exact hhead rfl
      simp only [openArrays, reads_bind, reads_token]
      exact ⟨_, _, ⟨rfl, rfl⟩, by simp [htoken]⟩
    | succ limit =>
      simp only [openArrays, reads_bind]
      exact ⟨false, c, reads_accept_of_not_head hhead (by simp), by simp⟩
  | @openArray ts dimensions q _ ih =>
    cases limit with
    | zero => simp at hle
    | succ limit =>
      simp only [List.cons_append] at htokens
      have hof := Cursor.tokens_advance htokens
      obtain ⟨c', qs, hreads, hc', hq⟩ :=
        ih (Cursor.tokens_advance hof) (Nat.le_of_succ_le_succ hle)
      refine ⟨c', qs, ?_, hc', hq⟩
      simp only [openArrays, reads_bind]
      refine ⟨true, _, reads_accept_of_head htokens, ?_⟩
      simp only [↓reduceIte, reads_bind, reads_pure]
      exact ⟨(), _, reads_expect_of_head hof, dimensions, c', hreads, rfl, rfl⟩

/-- A formal type with few dimensions is read. -/
theorem complete_formalType :
    Complete formalType (fun ts t => IsFormalType ts t ∧ t.openArrays ≤ maxOpenArrays)
      (Avoids (· = .mark .dot)) := by
  rintro c ts us x ⟨hrule, hle⟩ htokens hus
  obtain ⟨c₁, qs, hopen, hc₁, hq⟩ := complete_openArrays hrule htokens hle
  obtain ⟨c₂, hname, hc₂⟩ := complete_qualident hq hc₁ hus
  refine ⟨c₂, ?_, hc₂⟩
  simp only [formalType, reads_bind, reads_pure]
  exact ⟨x.openArrays, c₁, hopen, x.name, c₂, hname, rfl, rfl⟩

theorem complete_parameterSection :
    Complete parameterSection (IsParameterSection.And fun s => s.type.openArrays ≤ maxOpenArrays)
      (Avoids (· = .mark .dot)) := by
  rintro c ts us x ⟨hrule, hle⟩ htokens hus
  -- both alternatives go on in the same way behind the optional `VAR`
  have hbehind (byReference : Bool) : Complete
      (do
        let names ← identifiers
        expect (.mark .colon)
        return ParameterSection.mk byReference names (← formalType))
      (Joined (Separated (.mark .comma) IsName) (.mark .colon)
        (IsFormalType.And fun t => t.openArrays ≤ maxOpenArrays) (ParameterSection.mk byReference))
      (Avoids (· = .mark .dot)) :=
    complete_joined complete_identifiers complete_formalType fun _ => avoids_cons.mpr rfl
  cases hrule with
  | @byValue ns ts names type hnames htype =>
    have hvar : c.tokens.head? ≠ some (.keyword .VAR) := by
      obtain ⟨t, vs, rfl, ht⟩ := starts_separated starts_isName hnames
      rw [htokens]
      rintro ⟨⟩
      cases ht
    obtain ⟨c₁, hc₁, htokens₁⟩ := hbehind false ⟨hnames, htype, hle⟩ htokens hus
    exact ⟨c₁, reads_bind.mpr ⟨false, c, reads_accept_of_not_head hvar (by simp), hc₁⟩, htokens₁⟩
  | @byReference ns ts names type hnames htype =>
    obtain ⟨c₁, hc₁, htokens₁⟩ :=
      hbehind true ⟨hnames, htype, hle⟩ (Cursor.tokens_advance htokens) hus
    exact ⟨c₁, reads_bind.mpr ⟨true, _, reads_accept_of_head htokens, hc₁⟩, htokens₁⟩

/-- The sections of a parameter list are read up to the closing parenthesis. -/
theorem complete_parameterSections {c : Cursor} {ts us : List Token}
    {sections : List ParameterSection} (h : IsParameterSections ts sections)
    (hle : ∀ s ∈ sections, s.type.openArrays ≤ maxOpenArrays)
    (htokens : c.tokens = ts ++ .mark .rightParen :: us) :
    ∃ c', parameterSections.Reads c sections c' ∧ c'.tokens = .mark .rightParen :: us := by
  simp only [parameterSections, reads_bind, reads_token]
  cases h with
  | none =>
    refine ⟨c, ⟨_, _, ⟨rfl, rfl⟩, ?_⟩, htokens⟩
    rw [Cursor.token_eq_head htokens]
    simp
  | some hsections =>
    have hfollow : ∀ us, Avoids (· = .mark .dot) (.mark .semicolon :: us) := by simp
    have hrules : Separated (.mark .semicolon)
        (IsParameterSection.And fun s => s.type.openArrays ≤ maxOpenArrays) ts sections := by
      rw [separated_and]
      exact ⟨hsections, hle⟩
    obtain ⟨c', hreads, hc'⟩ :=
      (complete_separated complete_parameterSection hfollow (by simp)) hrules htokens
        ⟨avoids_cons.mpr rfl, avoids_cons.mpr rfl⟩
    -- the parser tells an empty list by the parenthesis, with which no section starts
    have htoken : c.token ≠ .mark .rightParen := by
      obtain ⟨t, vs, rfl, ht⟩ := starts_separated starts_isParameterSection hsections
      rw [Cursor.token_eq_head htokens]
      rintro rfl
      cases ht
    exact ⟨c', ⟨_, _, ⟨rfl, rfl⟩, by rw [if_neg htoken]; exact hreads⟩, hc'⟩

def extendsType (t : Token) : Bool :=
  t = .mark .dot || t = .mark .colon || t = .mark .leftParen

/-- Formal parameters are read with the result type, where there is one. -/
theorem complete_formalParameters :
    Complete formalParameters
      (fun ts p => IsFormalParameters.And fewOpenArrays (.mark .leftParen :: ts) p)
      (Avoids extendsType) := by
  rintro c ts us x ⟨hrule, hle⟩ htokens hus
  obtain ⟨sections, result⟩ := x
  cases hrule with
  | @mk ss rs _ _ hsections hresult =>
    have htokens : c.tokens = ss ++ .mark .rightParen :: (rs ++ us) := by simpa using htokens
    have hdot : Avoids (· = .mark .dot) us := hus.single rfl
    have hcolon : Avoids (· = .mark .colon) us := hus.single rfl
    obtain ⟨c₁, hc₁, htokens₁⟩ := complete_parameterSections hsections hle htokens
    obtain ⟨c₂, hc₂, htokens₂⟩ :=
      (complete_optional complete_qualident.behind opening_behind (by simp)) hresult
        (Cursor.tokens_advance htokens₁) ⟨hdot, hcolon⟩
    refine ⟨c₂, ?_, htokens₂⟩
    simp only [formalParameters, reads_bind, reads_pure]
    exact ⟨sections, c₁, hc₁, (), _, reads_expect_of_head htokens₁, result, c₂, hc₂, rfl, rfl⟩

/-! ## Types -/

section Types

variable {parameters : Rule FormalParameters} {expression : Parser Expression}
  {isExpression : Rule Expression} {type : Parser TypeExpr} {isType : Rule TypeExpr}

theorem complete_baseType :
    Complete baseType (fun ts q => IsBaseType (.mark .leftParen :: ts) q) fun _ => True := by
  intro c ts us q hrule htokens _
  cases hrule with
  | @mk ts _ hq =>
    have htokens : c.tokens = ts ++ .mark .rightParen :: us := by simpa using htokens
    obtain ⟨c₁, hc₁, htokens₁⟩ := complete_qualident hq htokens (avoids_cons.mpr rfl)
    refine ⟨_, ?_, Cursor.tokens_advance htokens₁⟩
    simp only [baseType, reads_bind, reads_pure]
    exact ⟨q, c₁, hc₁, (), _, reads_expect_of_head htokens₁, rfl, rfl⟩

theorem complete_fieldList (htype : Complete type isType (Avoids extendsType)) :
    Complete (fieldList type) (IsFieldList isType) (Avoids extendsType) := by
  rw [isFieldList_eq_joined]
  exact complete_joined complete_identDefs htype fun _ => ⟨avoids_cons.mpr rfl, avoids_cons.mpr rfl⟩

/-- The field list at the cursor, if there is one. -/
theorem reads_field (htype : Complete type isType (Avoids extendsType)) {c : Cursor}
    {ts us : List Token} {field : Option FieldList} (h : Optional (IsFieldList isType) ts field)
    (htokens : c.tokens = ts ++ us) (hus : Avoids extendsType us) (hstop : Avoids isIdentifier us) :
    ∃ c', (isIdentifier c.token = true ∧
        (∃ fields, (fieldList type).Reads c fields c' ∧ some fields = field) ∨
      isIdentifier c.token = false ∧ none = field ∧ c = c') ∧ c'.tokens = us := by
  cases h with
  | none => exact ⟨c, .inr ⟨Avoids.token (by rwa [htokens]) rfl, rfl, rfl⟩, htokens⟩
  | some hfields =>
    obtain ⟨c', hreads, hc'⟩ := complete_fieldList htype hfields htokens hus
    obtain ⟨t, vs, rfl, ht⟩ := starts_isFieldList hfields
    exact ⟨c', .inl ⟨by rw [Cursor.token_eq_head htokens, ht], _, hreads, rfl⟩, hc'⟩

theorem complete_fieldListsUpTo (htype : Complete type isType (Avoids extendsType))
    {ts us : List Token} {fields : List (Option FieldList)}
    (h : Separated (.mark .semicolon) (Optional (IsFieldList isType)) ts fields) {c : Cursor}
    {limit : Nat} (htokens : c.tokens = ts ++ .keyword .END :: us) (hlimit : ts.length < limit) :
    ∃ c', (fieldListsUpTo type limit).Reads c (fields.filterMap id) c' ∧
      c'.tokens = .keyword .END :: us := by
  induction h generalizing c limit with
  | @one ts field only =>
    obtain ⟨limit, rfl⟩ := Nat.exists_eq_add_one_of_ne_zero (Nat.ne_zero_of_lt hlimit)
    obtain ⟨c₁, hhere, hc₁⟩ :=
      reads_field htype only htokens (avoids_cons.mpr rfl) (avoids_cons.mpr rfl)
    refine ⟨c₁, reads_fieldListsUpTo.mpr ⟨field, c₁, hhere, false, c₁, ?_, .inr ⟨rfl, ?_, rfl⟩⟩,
      hc₁⟩
    · exact reads_accept_of_not_head (by simp [hc₁]) (by simp)
    · cases field <;> rfl
  | @cons ts vs field fields first others ih =>
    obtain ⟨limit, rfl⟩ := Nat.exists_eq_add_one_of_ne_zero (Nat.ne_zero_of_lt hlimit)
    simp only [List.append_assoc, List.cons_append] at htokens
    obtain ⟨c₁, hhere, hc₁⟩ :=
      reads_field htype first htokens (avoids_cons.mpr rfl) (avoids_cons.mpr rfl)
    -- each round reads a semicolon at least, so the limit outlives the tokens
    have hshort : vs.length < limit := by
      simp only [List.length_append, List.length_cons] at hlimit
      omega
    obtain ⟨c₂, hothers, hc₂⟩ := ih (Cursor.tokens_advance hc₁) hshort
    refine ⟨c₂, reads_fieldListsUpTo.mpr ⟨field, c₁, hhere, true, _, reads_accept_of_head hc₁,
      .inl ⟨rfl, _, hothers, ?_⟩⟩, hc₂⟩
    cases field <;> rfl

/-- The field lists of a record are read up to its `END`, empty ones included. -/
theorem complete_fieldLists (htype : Complete type isType (Avoids extendsType)) {c : Cursor}
    {ts us : List Token} {fields : List FieldList} (h : IsFieldLists isType ts fields)
    (htokens : c.tokens = ts ++ .keyword .END :: us) :
    ∃ c', (fieldLists type).Reads c fields c' ∧ c'.tokens = .keyword .END :: us := by
  obtain ⟨h⟩ := h
  have hlimit : ts.length < c.rest.length + 1 := by
    rw [c.length_rest, htokens, List.length_append]
    omega
  obtain ⟨c', hreads, hc'⟩ := complete_fieldListsUpTo htype h htokens hlimit
  refine ⟨c', ?_, hc'⟩
  simp only [fieldLists, reads_bind, reads_get]
  exact ⟨_, _, ⟨rfl, rfl⟩, hreads⟩

/-- No parenthesis stands in front of field lists. -/
theorem IsFieldLists.follow {ts us : List Token} {fields : List FieldList}
    (h : IsFieldLists isType ts fields) (hus : Avoids (· = .mark .leftParen) us) :
    Avoids (· = .mark .leftParen) (ts ++ us) := by
  have hfield {ts us : List Token} {field : Option FieldList}
      (h : Optional (IsFieldList isType) ts field) (hus : Avoids (· = .mark .leftParen) us) :
      Avoids (· = .mark .leftParen) (ts ++ us) := by
    cases h with
    | none => exact hus
    | some hfields =>
      obtain ⟨t, vs, rfl, ht⟩ := starts_isFieldList hfields
      rw [List.cons_append, avoids_cons, decide_eq_false_iff_not]
      rintro rfl
      cases ht
  obtain ⟨only | ⟨first, _⟩⟩ := h
  · exact hfield only hus
  · rw [List.append_assoc]
    exact hfield first (avoids_cons.mpr rfl)

/-- Each form of a type is told by its first token. -/
theorem complete_typeForm
    (hparameters : Complete formalParameters (fun ts p => parameters (.mark .leftParen :: ts) p)
      (Avoids extendsType))
    (hopening : ∀ ts p, parameters ts p → ∃ us, ts = .mark .leftParen :: us)
    (hexpression : Complete expression isExpression (Avoids extendsExpression))
    (htype : Complete type isType (Avoids extendsType)) :
    Complete (typeForm expression type) (IsTypeForm parameters isExpression isType)
      (Avoids extendsType) := by
  intro c ts us x hrule htokens hus
  simp only [typeForm, reads_bind, reads_token]
  cases hrule with
  | @named ts q hq =>
    obtain ⟨c', hreads, hc'⟩ := complete_qualident hq htokens (hus.single rfl)
    obtain ⟨name, hname⟩ := token_of_isQualident hq htokens
    refine ⟨c', ⟨_, _, ⟨rfl, rfl⟩, ?_⟩, hc'⟩
    rw [hname]
    simp only [reads_bind, reads_pure]
    exact ⟨q, c', hreads, rfl, rfl⟩
  | @array ls ts lengths element hlengths helement =>
    have hcomma : ∀ us, Avoids extendsExpression (.mark .comma :: us) :=
      fun _ => avoids_cons.mpr rfl
    have hbehind : Complete
        (do
          let ls ← separated (.mark .comma) expression
          expect (.keyword .OF)
          return .array ls (← type))
        (Joined (Separated (.mark .comma) isExpression) (.keyword .OF) isType TypeExpr.array)
        (Avoids extendsType) :=
      complete_joined (complete_separated hexpression hcomma (by simp)) htype fun _ =>
        ⟨avoids_cons.mpr rfl, avoids_cons.mpr rfl⟩
    obtain ⟨c₁, hc₁, htokens₁⟩ := hbehind ⟨hlengths, helement⟩ (Cursor.tokens_advance htokens) hus
    refine ⟨c₁, ⟨_, _, ⟨rfl, rfl⟩, ?_⟩, htokens₁⟩
    rw [Cursor.token_eq_head htokens, reads_bind]
    exact ⟨(), _, reads_advance.mpr rfl, hc₁⟩
  | @record bs fs base fields hbase hfields =>
    simp only [List.cons_append, List.append_assoc, List.nil_append] at htokens
    have hbaseStarts : ∀ ts q, IsBaseType ts q → ∃ us, ts = .mark .leftParen :: us := by
      rintro _ _ ⟨_⟩
      exact ⟨_, rfl⟩
    -- without a base the fields follow, and they do not start like one
    have hfollow : Avoids (· = .mark .leftParen) (fs ++ .keyword .END :: us) :=
      IsFieldLists.follow hfields (avoids_cons.mpr rfl)
    obtain ⟨c₁, hc₁, htokens₁⟩ :=
      (complete_optional complete_baseType hbaseStarts (by simp)) hbase
        (Cursor.tokens_advance htokens)
        ⟨trivial, hfollow⟩
    obtain ⟨c₂, hc₂, htokens₂⟩ := complete_fieldLists htype hfields htokens₁
    refine ⟨_, ⟨_, _, ⟨rfl, rfl⟩, ?_⟩, Cursor.tokens_advance htokens₂⟩
    rw [Cursor.token_eq_head htokens]
    simp only [reads_bind, reads_advance, reads_pure]
    exact ⟨(), _, rfl, base, c₁, hc₁, fields, c₂, hc₂, (), _,
      reads_expect_of_head htokens₂, rfl, rfl⟩
  | @pointer ts target htarget =>
    simp only [List.cons_append] at htokens
    have hto := Cursor.tokens_advance htokens
    obtain ⟨c₁, hc₁, htokens₁⟩ := htype htarget (Cursor.tokens_advance hto) hus
    refine ⟨c₁, ⟨_, _, ⟨rfl, rfl⟩, ?_⟩, htokens₁⟩
    rw [Cursor.token_eq_head htokens]
    simp only [reads_bind, reads_advance, reads_pure]
    exact ⟨(), _, rfl, (), _, reads_expect_of_head hto, target, c₁, hc₁, rfl, rfl⟩
  | @procedure ps formal hformal =>
    rw [List.cons_append] at htokens
    have hparen : Avoids (· = .mark .leftParen) us := hus.single rfl
    obtain ⟨c₁, hc₁, htokens₁⟩ :=
      (complete_optional hparameters hopening (by simp)) hformal (Cursor.tokens_advance htokens)
        ⟨hus, hparen⟩
    refine ⟨c₁, ⟨_, _, ⟨rfl, rfl⟩, ?_⟩, htokens₁⟩
    rw [Cursor.token_eq_head htokens]
    simp only [reads_bind, reads_advance, reads_pure]
    exact ⟨(), _, rfl, formal, c₁, hc₁, rfl, rfl⟩

end Types

/-! ## Declarations -/

/-- A terminated item is read with its semicolon. -/
theorem complete_terminated {item : Parser α} {rule : Rule α} {follow : List Token → Prop}
    (hitem : Complete item rule follow) (hfollow : ∀ us, follow (.mark .semicolon :: us)) :
    Complete (terminated item) (Terminated rule) fun _ => True := by
  intro c ts us x hrule htokens _
  obtain @⟨ts, x, hx⟩ := hrule
  simp only [List.append_assoc, List.cons_append, List.nil_append] at htokens
  obtain ⟨c₁, hc₁, htokens₁⟩ := hitem hx htokens (hfollow us)
  refine ⟨_, ?_, Cursor.tokens_advance htokens₁⟩
  simp only [terminated, reads_bind, reads_pure]
  exact ⟨x, c₁, hc₁, (), _, reads_expect_of_head htokens₁, rfl, rfl⟩

/-- A section is read up to a token that is no identifier. -/
theorem complete_declarationSection {heading : Keyword} {item : Parser α} {rule : Rule α}
    {follow : List Token → Prop} (hitem : Complete item rule follow)
    (hfollow : ∀ us, follow (.mark .semicolon :: us))
    (hstarts : rule.Starts isIdentifier) :
    Complete (declarationSection heading item) (IsSection heading rule)
      fun us => Avoids isIdentifier us ∧ Avoids (· = .keyword heading) us := by
  intro c ts us xs hrule htokens hus
  simp only [declarationSection, reads_bind]
  cases hrule with
  | absent =>
    have hhead : c.tokens.head? ≠ some (.keyword heading) := by
      rw [htokens]
      exact hus.2.head?_ne
    exact ⟨c, ⟨false, c, reads_accept_of_not_head hhead (by simp), by simp⟩, htokens⟩
  | @present ts xs hrules =>
    rw [List.cons_append] at htokens
    obtain ⟨c₁, hc₁, htokens₁⟩ :=
      complete_many (complete_terminated hitem hfollow) (starts_terminated hstarts) rfl hrules
        (Cursor.tokens_advance htokens) hus.1
    exact ⟨c₁, ⟨true, _, reads_accept_of_head htokens, hc₁⟩, htokens₁⟩

/-- A section starts with its heading, or it is not there. -/
theorem IsSection.follow {heading : Keyword} {rule : Rule α} {goesOn : Token → Bool}
    {ts us : List Token} {xs : List α} (h : IsSection heading rule ts xs)
    (hheading : goesOn (.keyword heading) = false) (hus : Avoids goesOn us) :
    Avoids goesOn (ts ++ us) := by
  cases h with
  | absent => exact hus
  | present _ => exact avoids_cons.mpr hheading

section Declarations

variable {parameters : Rule FormalParameters} {expression : Parser Expression}
  {isExpression : Rule Expression} {type : Parser TypeExpr} {isType : Rule TypeExpr}
  {procedure : Parser ProcedureDeclaration} {isProcedure : Rule ProcedureDeclaration}

theorem complete_constDeclaration
    (hexpression : Complete expression isExpression (Avoids extendsExpression)) :
    Complete (constDeclaration expression) (IsConstDeclaration isExpression)
      (Avoids extendsExpression) := by
  rw [isConstDeclaration_eq_joined]
  exact complete_joined complete_identDef hexpression fun _ => avoids_cons.mpr rfl

theorem complete_typeDeclaration (htype : Complete type isType (Avoids extendsType)) :
    Complete (typeDeclaration type) (IsTypeDeclaration isType) (Avoids extendsType) := by
  rw [isTypeDeclaration_eq_joined]
  exact complete_joined complete_identDef htype fun _ => avoids_cons.mpr rfl

theorem complete_variableDeclaration (htype : Complete type isType (Avoids extendsType)) :
    Complete (variableDeclaration type) (IsVariableDeclaration isType) (Avoids extendsType) := by
  rw [isVariableDeclaration_eq_joined]
  exact complete_joined complete_identDefs htype fun _ => ⟨avoids_cons.mpr rfl, avoids_cons.mpr rfl⟩

def extendsDeclarations (t : Token) : Bool :=
  isIdentifier t || t = .keyword .CONST || t = .keyword .TYPE || t = .keyword .VAR ||
    t = .keyword .PROCEDURE

/-- Procedures start with their keyword, or there are none. -/
theorem follow_procedures {goesOn : Token → Bool} {ps us : List Token}
    {procedures : List ProcedureDeclaration}
    (hheading : ∀ ts p, isProcedure ts p → ∃ us, ts = .keyword .PROCEDURE :: us)
    (h : Repeated (Terminated isProcedure) ps procedures)
    (hkeyword : goesOn (.keyword .PROCEDURE) = false)
    (hus : Avoids goesOn us) : Avoids goesOn (ps ++ us) := by
  cases h with
  | nil => exact hus
  | cons first _ =>
    obtain ⟨hfirst⟩ := first
    obtain ⟨ws, rfl⟩ := hheading _ _ hfirst
    exact avoids_cons.mpr hkeyword

/-- The declarations of a block are read in the order of the sections. -/
theorem complete_declarations
    (hexpression : Complete expression isExpression (Avoids extendsExpression))
    (htype : Complete type isType (Avoids extendsType))
    (hprocedure : Complete procedure isProcedure fun _ => True)
    (hheading : ∀ ts p, isProcedure ts p → ∃ us, ts = .keyword .PROCEDURE :: us) :
    Complete (declarations expression type procedure)
      (IsDeclarations isExpression isType isProcedure) (Avoids extendsDeclarations) := by
  intro c ts us x hrule htokens hus
  obtain @⟨cs, ts, vs, ps, constants, types, vars, procedures, hconstants, htypes, hvars,
    hprocedures⟩ := hrule
  simp only [List.append_assoc] at htokens
  have hprocedureStarts : isProcedure.Starts (· = .keyword .PROCEDURE) := by
    intro ts p hp
    obtain ⟨us, rfl⟩ := hheading ts p hp
    exact ⟨_, us, rfl, decide_eq_true rfl⟩
  -- what follows a section starts with a later heading, or is what follows all of them
  have hps {goesOn : Token → Bool} (hgoesOn : ∀ t, goesOn t = true → extendsDeclarations t = true)
      (hkeyword : goesOn (.keyword .PROCEDURE) = false) : Avoids goesOn (ps ++ us) :=
    follow_procedures hheading hprocedures hkeyword (hus.mono hgoesOn)
  have hidentifier : ∀ t, isIdentifier t = true → extendsDeclarations t = true := by
    intro t ht
    simp [extendsDeclarations, ht]
  have hkeyword {heading : Keyword} (h : extendsDeclarations (.keyword heading) = true) :
      ∀ t, decide (t = .keyword heading) = true → extendsDeclarations t = true := by
    intro t ht
    rw [of_decide_eq_true ht, h]
  have hsemicolon : ∀ us, Avoids extendsExpression (.mark .semicolon :: us) :=
    fun _ => avoids_cons.mpr rfl
  have hsemicolonType : ∀ us, Avoids extendsType (.mark .semicolon :: us) :=
    fun _ => avoids_cons.mpr rfl
  obtain ⟨c₁, hc₁, htokens₁⟩ :=
    complete_declarationSection (complete_constDeclaration hexpression) hsemicolon
      starts_isConstDeclaration hconstants htokens
      ⟨IsSection.follow htypes rfl (IsSection.follow hvars rfl (hps hidentifier rfl)),
        IsSection.follow htypes rfl (IsSection.follow hvars rfl (hps (hkeyword rfl) rfl))⟩
  obtain ⟨c₂, hc₂, htokens₂⟩ :=
    complete_declarationSection (complete_typeDeclaration htype) hsemicolonType
      starts_isTypeDeclaration htypes htokens₁
      ⟨IsSection.follow hvars rfl (hps hidentifier rfl),
        IsSection.follow hvars rfl (hps (hkeyword rfl) rfl)⟩
  obtain ⟨c₃, hc₃, htokens₃⟩ :=
    complete_declarationSection (complete_variableDeclaration htype) hsemicolonType
      starts_isVariableDeclaration hvars htokens₂
      ⟨hps hidentifier rfl, hps (hkeyword rfl) rfl⟩
  obtain ⟨c₄, hc₄, htokens₄⟩ :=
    complete_many (complete_terminated hprocedure fun _ => trivial)
      (starts_terminated hprocedureStarts)
      rfl hprocedures htokens₃ (hus.mono (hkeyword rfl))
  refine ⟨c₄, ?_, htokens₄⟩
  simp only [declarations, reads_bind, reads_pure]
  exact ⟨constants, c₁, hc₁, types, c₂, hc₂, vars, c₃, hc₃, procedures, c₄, hc₄, rfl, rfl⟩

theorem complete_procedureHeading
    (hparameters : Complete formalParameters (fun ts p => parameters (.mark .leftParen :: ts) p)
      (Avoids extendsType))
    (hopening : ∀ ts p, parameters ts p → ∃ us, ts = .mark .leftParen :: us) {c : Cursor}
    {ts us : List Token} {x : ProcedureHeading} (h : IsProcedureHeading parameters ts x)
    (htokens : c.tokens = ts ++ .mark .semicolon :: us) :
    ∃ c', procedureHeading.Reads c x c' ∧ c'.tokens = .mark .semicolon :: us := by
  obtain @⟨ns, ps, name, formal, hname, hformal⟩ := h
  simp only [List.append_assoc, List.cons_append] at htokens
  have htimes : Avoids (· = .mark .times) (ps ++ .mark .semicolon :: us) :=
    follow_optional hformal hopening rfl (avoids_cons.mpr rfl)
  obtain ⟨c₁, hc₁, htokens₁⟩ := complete_identDef hname (Cursor.tokens_advance htokens) htimes
  obtain ⟨c₂, hc₂, htokens₂⟩ :=
    (complete_optional hparameters hopening (by simp)) hformal htokens₁
      ⟨avoids_cons.mpr rfl, avoids_cons.mpr rfl⟩
  refine ⟨c₂, ?_, htokens₂⟩
  simp only [procedureHeading, reads_bind, reads_pure]
  exact ⟨(), _, reads_expect_of_head htokens, name, c₁, hc₁, formal, c₂, hc₂, rfl, rfl⟩

/-- A procedure is read up to the name behind its `END`, whatever name that is. -/
theorem complete_procedureBody
    (hparameters : Complete formalParameters (fun ts p => parameters (.mark .leftParen :: ts) p)
      (Avoids extendsType))
    (hopening : ∀ ts p, parameters ts p → ∃ us, ts = .mark .leftParen :: us)
    (hexpression : Complete expression isExpression (Avoids extendsExpression))
    (htype : Complete type isType (Avoids extendsType))
    (hprocedure : Complete procedure isProcedure fun _ => True)
    (hheading : ∀ ts p, isProcedure ts p → ∃ us, ts = .keyword .PROCEDURE :: us) :
    Complete (procedureBody expression type procedure)
      (IsProcedureBody parameters isExpression isType isProcedure) fun _ => True := by
  intro c ts us x hrule htokens _
  obtain @⟨hs, ds, rs, heading, body, result, hheadingRule, hbody, hresult, endName⟩ := hrule
  simp only [List.append_assoc, List.cons_append, List.nil_append] at htokens
  -- the declarations end at RETURN or END
  have hfollow : Avoids extendsDeclarations (rs ++ .keyword .END :: .identifier endName :: us) :=
    follow_optional hresult opening_behind rfl (avoids_cons.mpr rfl)
  obtain ⟨c₁, hc₁, htokens₁⟩ := complete_procedureHeading hparameters hopening hheadingRule htokens
  obtain ⟨c₂, hc₂, htokens₂⟩ :=
    complete_declarations hexpression htype hprocedure hheading hbody
      (Cursor.tokens_advance htokens₁) hfollow
  obtain ⟨c₃, hc₃, htokens₃⟩ :=
    (complete_optional hexpression.behind opening_behind (by simp)) hresult htokens₂
      ⟨avoids_cons.mpr rfl, avoids_cons.mpr rfl⟩
  obtain ⟨c₄, hc₄, htokens₄⟩ := reads_identifier_of_head (Cursor.tokens_advance htokens₃)
  refine ⟨c₄, ?_, htokens₄⟩
  simp only [procedureBody, reads_bind, reads_pure]
  exact ⟨heading, c₁, hc₁, (), _, reads_expect_of_head htokens₁, body, c₂, hc₂, result,
    c₃, hc₃, (), _, reads_expect_of_head htokens₃, endName, c₄, hc₄, rfl, rfl⟩

theorem complete_importList :
    Complete importList (fun ts names => IsImportList (.keyword .IMPORT :: ts) names)
      fun _ => True := by
  intro c ts us names hrule htokens _
  cases hrule with
  | @mk ns _ hnames =>
    have htokens : c.tokens = ns ++ .mark .semicolon :: us := by simpa using htokens
    obtain ⟨c₁, hc₁, htokens₁⟩ := complete_identifiers hnames htokens (avoids_cons.mpr rfl)
    refine ⟨_, ?_, Cursor.tokens_advance htokens₁⟩
    simp only [importList, reads_bind, reads_pure]
    exact ⟨names, c₁, hc₁, (), _, reads_expect_of_head htokens₁, rfl, rfl⟩

/-- A module is read up to its last point. -/
theorem complete_moduleBody
    (hexpression : Complete expression isExpression (Avoids extendsExpression))
    (htype : Complete type isType (Avoids extendsType))
    (hprocedure : Complete procedure isProcedure fun _ => True)
    (hheading : ∀ ts p, isProcedure ts p → ∃ us, ts = .keyword .PROCEDURE :: us) :
    Complete (moduleBody expression type procedure) (IsModuleBody isExpression isType isProcedure)
      fun _ => True := by
  intro c ts us x hrule htokens _
  obtain @⟨is, ds, imports, body, name, himports, hbody, endName⟩ := hrule
  simp only [List.append_assoc, List.cons_append, List.nil_append] at htokens
  have himportStarts : ∀ ts names, IsImportList ts names → ∃ us, ts = .keyword .IMPORT :: us := by
    rintro _ _ ⟨_⟩
    exact ⟨_, rfl⟩
  -- without imports the declarations follow, and none of their sections starts with IMPORT
  have hfollow : Avoids (· = .keyword .IMPORT)
      (ds ++ .keyword .END :: .identifier endName :: .mark .dot :: us) := by
    obtain ⟨hconstants, htypes, hvars, hprocedures⟩ := hbody
    simp only [List.append_assoc]
    refine IsSection.follow hconstants rfl
      (IsSection.follow htypes rfl (IsSection.follow hvars rfl ?_))
    exact follow_procedures hheading hprocedures rfl (avoids_cons.mpr rfl)
  obtain ⟨c₁, hc₁, htokens₁⟩ := reads_identifier_of_head (Cursor.tokens_advance htokens)
  obtain ⟨c₂, hc₂, htokens₂⟩ :=
    (complete_optional complete_importList himportStarts (by simp)) himports
      (Cursor.tokens_advance htokens₁)
      ⟨trivial, hfollow⟩
  obtain ⟨c₃, hc₃, htokens₃⟩ :=
    complete_declarations hexpression htype hprocedure hheading hbody htokens₂ (avoids_cons.mpr rfl)
  obtain ⟨c₄, hc₄, htokens₄⟩ := reads_identifier_of_head (Cursor.tokens_advance htokens₃)
  refine ⟨_, ?_, Cursor.tokens_advance htokens₄⟩
  simp only [moduleBody, reads_bind, reads_pure]
  exact ⟨(), _, reads_expect_of_head htokens, name, c₁, hc₁, (), _, reads_expect_of_head htokens₁,
    imports, c₂, hc₂, body, c₃, hc₃, (), _, reads_expect_of_head htokens₃, endName, c₄, hc₄, (), _,
    reads_expect_of_head htokens₄, rfl, rfl⟩

end Declarations

end Parser

end Oberon
