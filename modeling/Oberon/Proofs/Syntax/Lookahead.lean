import Oberon.Proofs.Grammar.Combinations
import Oberon.Proofs.Syntax.Reads

/-!
# How parsers end, and what they have seen by then

A parser tracks a rule if, however it ends, what it has stepped over is derived from the rule or
can be completed to something that is; and if no more than the next two tokens have been looked
at, so that it ends in the same way on every list with these tokens.  One lemma for each step and
each combinator; the rule is the one of the whole construct, and a step leaves what the rule says
about the tokens behind it.
-/

namespace Oberon

/-- The first two tokens of a list depend on the first two tokens of each of its tails. -/
theorem take_two_append (ts : List Token) {us vs : List Token} (h : us.take 2 = vs.take 2) :
    (ts ++ us).take 2 = (ts ++ vs).take 2 := by
  have htake : ∀ ws : List Token, ws.take (2 - ts.length) = (ws.take 2).take (2 - ts.length) :=
    fun ws => by
    rw [List.take_take, Nat.min_eq_left (Nat.sub_le 2 ts.length)]
  rw [List.take_append, List.take_append, htake us, htake vs, h]

theorem Cursor.token_eq_of_take_two {c d : Cursor} (h : d.tokens.take 2 = c.tokens.take 2) :
    d.token = c.token := by
  cases hc : c.tokens with
  | nil =>
    rw [hc, List.take_nil, List.take_eq_nil_iff] at h
    rw [token_eq_endOfFile hc, token_eq_endOfFile (h.resolve_left (by decide))]
  | cons t ts =>
    cases hd : d.tokens with
    | nil =>
      rw [hc, hd] at h
      cases h
    | cons u us =>
      rw [hc, hd, List.take_succ_cons, List.take_succ_cons] at h
      rw [token_eq_head hc, token_eq_head hd]
      exact (List.cons.inj h).1

namespace Parser

open Grammar

variable {α β ω : Type}

/-! ## Ends of runs -/

/-- The parser, started at `c`, ends at `c'` with a result, or with what it expects there. -/
def Ends (p : Parser α) (c : Cursor) : Except Expectation α → Cursor → Prop
  | .ok x, c' => p.Reads c x c'
  | .error expected, c' => p.run c = .error ⟨expected, c'⟩

/-- Reading is one way to end. -/
theorem Reads.ends {p : Parser α} {c c' : Cursor} {x : α} (h : p.Reads c x c') :
    p.Ends c (.ok x) c' :=
  h

theorem Ends.of_run_eq {p q : Parser α} {c d c' : Cursor} {answer : Except Expectation α}
    (hrun : p.run c = q.run d) (h : q.Ends d answer c') : p.Ends c answer c' := by
  cases answer <;> exact hrun.trans h

/-- A sequence ends with the error of the first part or as the second part does. -/
theorem ends_bind {p : Parser α} {f : α → Parser β} {c c'' : Cursor}
    {answer : Except Expectation β} :
    (p >>= f).Ends c answer c'' ↔
      (∃ expected, answer = .error expected ∧ p.Ends c (.error expected) c'') ∨
        ∃ x c', p.Reads c x c' ∧ (f x).Ends c' answer c'' := by
  cases answer with
  | ok y => exact reads_bind.trans ⟨.inr, fun h => h.resolve_left nofun⟩
  | error expected =>
    -- the whole stops in the first part exactly if that fails
    cases hfirst : p.run c with
    | error failure =>
      have hrun : (p >>= f).run c = .error failure := by
        rw [StateT.run_bind, hfirst]
        rfl
      constructor
      · intro h
        cases hrun.symm.trans h
        exact .inl ⟨expected, rfl, hfirst⟩
      · rintro (⟨_, ⟨⟩, h⟩ | ⟨_, _, h, -⟩)
        · cases hfirst.symm.trans h
          exact hrun
        · cases hfirst.symm.trans h
    | ok result =>
      have hrun : (p >>= f).run c = (f result.1).run result.2 := by
        rw [StateT.run_bind, hfirst]
        rfl
      constructor
      · intro h
        exact .inr ⟨result.1, result.2, hfirst, h.of_run_eq hrun.symm⟩
      · rintro (⟨_, -, h⟩ | ⟨_, _, hx, h⟩)
        · cases hfirst.symm.trans h
        · cases hfirst.symm.trans hx
          exact h.of_run_eq hrun

/-! ## Tracking a rule -/

/-- What has been stepped over is derived; or, behind a failure, something that begins with it
is. -/
def Begins (rule : Rule α) (ts : List Token) : Except Expectation α → Prop
  | .ok x => rule ts x
  | .error _ => ∃ us x, rule (ts ++ us) x

/-- The parser ends in this way behind `ts` on every list that goes on with `next`. -/
def Settled (p : Parser α) (ts next : List Token) (answer : Except Expectation α) : Prop :=
  ∀ ⦃d rest⦄, d.tokens = ts ++ rest → rest.take 2 = next → ∃ d', p.Ends d answer d' ∧
    d'.tokens = rest

/-- A run from `c` keeps to the rule. -/
def TracksAt (p : Parser α) (rule : Rule α) (c : Cursor) : Prop :=
  ∀ ⦃answer c'⦄, p.Ends c answer c' →
    ∃ ts, c.tokens = ts ++ c'.tokens ∧ Begins rule ts answer ∧
      p.Settled ts (c'.tokens.take 2) answer

/-- All runs keep to the rule, which derives something. -/
structure Tracks (p : Parser α) (rule : Rule α) : Prop where
  derives : ∃ ts x, rule ts x
  run : ∀ c, TracksAt p rule c

theorem TracksAt.mono {p : Parser α} {rule rule' : Rule α} {c : Cursor} (h : TracksAt p rule c)
    (hrule : ∀ ts x, rule ts x → rule' ts x) : TracksAt p rule' c := by
  intro answer c' hends
  obtain ⟨ts, htokens, hbegins, hsettled⟩ := h hends
  refine ⟨ts, htokens, ?_, hsettled⟩
  cases answer with
  | ok x => exact hrule ts x hbegins
  | error expected =>
    obtain ⟨us, x, hx⟩ := hbegins
    exact ⟨us, x, hrule _ x hx⟩

theorem Tracks.mono {p : Parser α} {rule rule' : Rule α} (h : Tracks p rule)
    (hrule : ∀ ts x, rule ts x → rule' ts x) : Tracks p rule' := by
  obtain ⟨ts, x, hx⟩ := h.derives
  exact ⟨⟨ts, x, hrule ts x hx⟩, fun c => (h.run c).mono hrule⟩

/-- What is tracked is sound. -/
theorem Tracks.sound {p : Parser α} {rule : Rule α} (h : Tracks p rule) : Sound p rule := by
  intro c x c' hreads
  obtain ⟨ts, htokens, hrule, -⟩ := h.run c hreads.ends
  exact ⟨ts, htokens, hrule⟩

/-! ## Steps -/

theorem TracksAt.pure {rule : Rule α} {c : Cursor} {x : α} (h : rule [] x) :
    TracksAt (pure x) rule c := by
  intro answer c' hends
  cases answer with
  | error expected => cases hends
  | ok y =>
    obtain ⟨rfl, rfl⟩ := reads_pure.mp hends
    exact ⟨[], rfl, h, fun d rest hd _ => ⟨d, reads_pure.mpr ⟨rfl, rfl⟩, hd⟩⟩

theorem Tracks.pure {rule : Rule α} {x : α} (h : rule [] x) : Tracks (pure x) rule :=
  ⟨⟨[], x, h⟩, fun _ => .pure h⟩

theorem TracksAt.fail {rule : Rule α} {c : Cursor} (expected : Expectation)
    (h : ∃ ts x, rule ts x) :
    TracksAt (fail expected) rule c := by
  intro answer c' hends
  cases answer with
  | ok x => exact absurd hends not_reads_fail
  | error expected' =>
    cases hends
    exact ⟨[], rfl, h, fun d rest hd _ => ⟨d, rfl, hd⟩⟩

/-- To stop at once is fine as long as something could follow. -/
theorem Tracks.fail {rule : Rule α} (expected : Expectation) (h : ∃ ts x, rule ts x) :
    Tracks (fail expected) rule :=
  ⟨h, fun _ => .fail expected h⟩

/-- What the rule says behind the tokens of the first part is left for the second. -/
theorem Tracks.bind {p : Parser α} {f : α → Parser β} {first : Rule α} {rule : Rule β}
    (h : Tracks p first)
    (hnext : ∀ us x, first us x → Tracks (f x) fun ts y => rule (us ++ ts) y) :
    Tracks (p >>= f) rule := by
  constructor
  · obtain ⟨us, x, hx⟩ := h.derives
    obtain ⟨ts, y, hy⟩ := (hnext us x hx).derives
    exact ⟨us ++ ts, y, hy⟩
  · intro c answer c'' hends
    obtain ⟨expected, rfl, hfirst⟩ | ⟨x, c', hfirst, hsecond⟩ := ends_bind.mp hends
    · -- a failure in the first part: what it has begun is completed by both parts
      obtain ⟨ts, htokens, ⟨us, x, hx⟩, hsettled⟩ := h.run c hfirst
      obtain ⟨vs, y, hy⟩ := (hnext _ x hx).derives
      refine ⟨ts, htokens, ⟨us ++ vs, y, ?_⟩, fun d rest hd hrest => ?_⟩
      · rw [← List.append_assoc]
        exact hy
      · obtain ⟨d', hd', hrest'⟩ := hsettled hd hrest
        exact ⟨d', ends_bind.mpr (.inl ⟨expected, rfl, hd'⟩), hrest'⟩
    · obtain ⟨ts, htokens, hx, hsettled⟩ := h.run c hfirst.ends
      obtain ⟨us, htokens', hbegins, hsettled'⟩ := (hnext ts x hx).run c' hsecond
      refine ⟨ts ++ us, ?_, ?_, fun d rest hd hrest => ?_⟩
      · rw [htokens, htokens', List.append_assoc]
      · cases answer with
        | ok y => exact hbegins
        | error expected =>
          obtain ⟨vs, y, hy⟩ := hbegins
          refine ⟨vs, y, ?_⟩
          rw [List.append_assoc]
          exact hy
      · -- the first part sees the tokens of the second, or two of those behind them
        rw [List.append_assoc] at hd
        have hnear : (us ++ rest).take 2 = c'.tokens.take 2 := by
          rw [htokens']
          exact take_two_append us hrest
        obtain ⟨d', hd', hrest'⟩ := hsettled hd hnear
        obtain ⟨d'', hd'', hrest''⟩ := hsettled' hrest' hrest
        exact ⟨d'', ends_bind.mpr (.inr ⟨x, d', hd', hd''⟩), hrest''⟩

theorem Tracks.map {p : Parser α} {f : α → β} {first : Rule α} {rule : Rule β} (h : Tracks p first)
    (hmap : ∀ us x, first us x → rule us (f x)) : Tracks (f <$> p) rule := by
  rw [map_eq_pure_bind]
  refine h.bind fun us x hx => .pure ?_
  rw [List.append_nil]
  exact hmap us x hx

/-- Runs that are the same at all cursors with the same two tokens in front of them. -/
theorem TracksAt.of_run_eq {p q : Parser α} {rule : Rule α} {c : Cursor} (h : TracksAt q rule c)
    (hrun : ∀ d : Cursor, d.tokens.take 2 = c.tokens.take 2 → p.run d = q.run d) :
    TracksAt p rule c := by
  intro answer c' hends
  obtain ⟨ts, htokens, hbegins, hsettled⟩ := h (hends.of_run_eq (hrun c rfl).symm)
  refine ⟨ts, htokens, hbegins, fun d rest hd hrest => ?_⟩
  have hnear : d.tokens.take 2 = c.tokens.take 2 := by
    rw [hd, htokens]
    exact take_two_append ts hrest
  obtain ⟨d', hd', hrest'⟩ := hsettled hd hrest
  exact ⟨d', hd'.of_run_eq (hrun d hnear), hrest'⟩

/-- The token at the cursor decides how the parser goes on. -/
theorem Tracks.token {f : Token → Parser α} {rule : Rule α} (hderives : ∃ ts x, rule ts x)
    (h : ∀ t c, c.token = t → TracksAt (f t) rule c) : Tracks (token >>= f) rule := by
  refine ⟨hderives, fun c => (h c.token c rfl).of_run_eq fun d hnear => ?_⟩
  show (f d.token).run d = _
  rw [Cursor.token_eq_of_take_two hnear]

theorem TracksAt.advance {f : Unit → Parser α} {rule : Rule α} {c : Cursor} {t : Token}
    (htoken : c.token = t)
    (ht : t ≠ .endOfFile) (h : Tracks (f ()) fun ts x => rule (t :: ts) x) :
    TracksAt (advance >>= f) rule c := by
  intro answer c' hends
  obtain ⟨ts, htokens, hbegins, hsettled⟩ := h.run c.advance (hends.of_run_eq rfl)
  refine ⟨t :: ts, ?_, ?_, fun d rest hd hrest => ?_⟩
  · rw [Cursor.tokens_eq_cons htoken ht, htokens]
    rfl
  · cases answer <;> exact hbegins
  · obtain ⟨d', hd', hrest'⟩ := hsettled (Cursor.tokens_advance hd) hrest
    exact ⟨d', hd'.of_run_eq rfl, hrest'⟩

/-- A token that is accepted or not leaves the rest to be tracked in both cases. -/
theorem Tracks.accept {t : Token} {f : Bool → Parser α} {rule : Rule α} (ht : t ≠ .endOfFile)
    (hyes : Tracks (f true) fun ts x => rule (t :: ts) x) (hno : Tracks (f false) rule) :
    Tracks (accept t >>= f) rule := by
  have hassoc : Parser.accept t >>= f = Parser.token >>= fun u =>
      if u = t then Parser.advance >>= fun _ => f true else f false := by
    simp only [Parser.accept, bind_assoc]
    refine congrArg (Parser.token >>= ·) (funext fun u => ?_)
    split <;> simp only [bind_assoc, pure_bind]
  rw [hassoc]
  refine .token hno.derives fun u c hu => ?_
  by_cases heq : u = t
  · rw [if_pos heq]
    exact .advance (hu.trans heq) ht hyes
  · rw [if_neg heq]
    exact hno.run c

/-- A token that is expected is consumed, or it is the place of the error. -/
theorem Tracks.expect {t : Token} {f : Unit → Parser α} {rule : Rule α} (ht : t ≠ .endOfFile)
    (h : Tracks (f ()) fun ts x => rule (t :: ts) x) : Tracks (expect t >>= f) rule := by
  have hderives : ∃ ts x, rule ts x := by
    obtain ⟨ts, x, hx⟩ := h.derives
    exact ⟨t :: ts, x, hx⟩
  have hassoc : Parser.expect t >>= f = Parser.token >>= fun u =>
      if u = t then Parser.advance >>= f else Parser.fail (.token t) := by
    simp only [Parser.expect, bind_assoc]
    refine congrArg (Parser.token >>= ·) (funext fun u => ?_)
    split <;> rfl
  rw [hassoc]
  refine .token hderives fun u c hu => ?_
  by_cases heq : u = t
  · rw [if_pos heq]
    exact .advance (hu.trans heq) ht h
  · rw [if_neg heq]
    exact .fail _ hderives

/-! ## Combinations -/

/-- The first token decides whether the item is there. -/
theorem Tracks.optional {t : Token} {item : Parser α} {rule : Rule α} (ht : t ≠ .endOfFile)
    (h : Tracks item fun ts x => rule (t :: ts) x) : Tracks (optional t item) (Optional rule) := by
  refine .accept ht (h.bind fun us x hx => .pure ?_) (.pure .none)
  rw [List.append_nil]
  exact .some hx

theorem tracks_manyUpTo {starts : Token → Bool} {item : Parser α} {rule : Rule α}
    (h : Tracks item rule)
    (limit : Nat) : Tracks (manyUpTo starts item limit) (Repeated rule) := by
  induction limit with
  | zero => exact .pure .nil
  | succ limit ih =>
    refine .token ⟨[], [], .nil⟩ fun t c _ => ?_
    cases starts t with
    | false => exact .pure .nil
    | true =>
      have hitems : Tracks (item >>= fun first => manyUpTo starts item limit >>= fun others =>
          Pure.pure (first :: others)) (Repeated rule) := by
        refine h.bind fun us x hx => ih.bind fun vs xs hxs => .pure ?_
        rw [List.append_nil]
        exact .cons hx hxs
      exact hitems.run c

theorem tracks_operationsUpTo {operator? : Token → Option ω} {operand : Parser α}
    {combine : ω → α → β}
    {rule : Rule α} (hend : operator? .endOfFile = none) (h : Tracks operand rule) (limit : Nat) :
    Tracks (operationsUpTo operator? operand combine limit)
      (Repeated (Grammar.Operation operator? rule combine)) := by
  induction limit with
  | zero => exact .pure .nil
  | succ limit ih =>
    refine .token ⟨[], [], .nil⟩ fun t c htoken => ?_
    cases hoperator : operator? t with
    | none => exact .pure .nil
    | some operator =>
      have ht : t ≠ .endOfFile := by
        rintro rfl
        rw [hend] at hoperator
        cases hoperator
      refine .advance htoken ht (h.bind fun us x hx => ih.bind fun vs xs hxs => .pure ?_)
      rw [List.append_nil]
      exact .cons (.mk hoperator hx) hxs

/-! ## Loops -/

theorem run_token_bind {f : Token → Parser α} {c : Cursor} :
    (token >>= f).run c = (f c.token).run c :=
  rfl

/-- Continuations matter only where the first parser reads. -/
theorem run_bind_congr {p : Parser α} {f g : α → Parser β} {c : Cursor}
    (h : ∀ x c', p.Reads c x c' → (f x).run c' = (g x).run c') :
    (p >>= f).run c = (p >>= g).run c := by
  rw [StateT.run_bind, StateT.run_bind]
  cases hp : p.run c with
  | error failure => rfl
  | ok result => exact h result.1 result.2 hp

/-- A loop with a limit that is never reached, as each round takes a token: the runs at two
cursors can be given the same limit. -/
theorem Tracks.limited {p : Nat → Parser α} {rule : Rule α} {k : Nat}
    (h : ∀ limit, Tracks (p limit) rule)
    (hstable : ∀ limit c, c.rest.length + k ≤ limit → (p (limit + 1)).run c = (p limit).run c) :
    Tracks (get >>= fun c => p (c.rest.length + k)) rule := by
  have hrun : ∀ limit (c : Cursor), c.rest.length + k ≤ limit →
      (p limit).run c = (get >>= fun c : Cursor => p (c.rest.length + k)).run c := by
    intro limit c hle
    induction hle with
    | refl => rfl
    | step hle ih => exact (hstable _ c hle).trans ih
  refine ⟨(h 0).derives, fun c answer c' hends => ?_⟩
  obtain ⟨ts, htokens, hbegins, -⟩ := (h _).run c (hends.of_run_eq (hrun _ c (Nat.le_refl _)))
  refine ⟨ts, htokens, hbegins, fun d rest hd hrest => ?_⟩
  have hmax := hrun (max (c.rest.length + k) (d.rest.length + k)) c (Nat.le_max_left _ _)
  have hmax' := hrun (max (c.rest.length + k) (d.rest.length + k)) d (Nat.le_max_right _ _)
  obtain ⟨us, htokens', -, hsettled⟩ := (h _).run c (hends.of_run_eq hmax)
  obtain rfl : us = ts := List.append_cancel_right (htokens'.symm.trans htokens)
  obtain ⟨d', hd', hrest'⟩ := hsettled hd hrest
  exact ⟨d', hd'.of_run_eq hmax'.symm, hrest'⟩

/-- Sound parsers do not put tokens back. -/
theorem Sound.length_le {p : Parser α} {rule : Rule α} (h : Sound p rule) {c c' : Cursor} {x : α}
    (hreads : p.Reads c x c') : c'.rest.length ≤ c.rest.length := by
  obtain ⟨ts, htokens, -⟩ := h hreads
  rw [c.length_rest, c'.length_rest, htokens, List.length_append]
  exact Nat.le_add_left _ _

theorem length_advance_lt {c : Cursor} (h : c.token ≠ .endOfFile) :
    c.advance.rest.length < c.rest.length := by
  rw [c.length_rest, c.advance.length_rest, Cursor.tokens_eq_cons rfl h]
  exact Nat.lt_succ_self _

theorem token_of_length_le_zero {c : Cursor} (h : c.rest.length ≤ 0) : c.token = .endOfFile := by
  refine Cursor.token_eq_endOfFile (List.length_eq_zero_iff.mp ?_)
  rw [← c.length_rest]
  exact Nat.le_zero.mp h

/-- Repetitions are tracked, since every item takes a token. -/
theorem tracks_many {starts : Token → Bool} {item : Parser α} {rule : Rule α}
    (hend : starts .endOfFile = false)
    (h : Tracks item rule) (hrule : ∀ ts x, rule ts x → ts ≠ []) :
    Tracks (many starts item) (Repeated rule) := by
  refine Tracks.limited (k := 0) (tracks_manyUpTo h) fun limit => ?_
  induction limit with
  | zero =>
    intro c hlength
    show (if starts c.token = true then _ else _ : Parser (List α)).run c = _
    rw [token_of_length_le_zero hlength, hend]
    rfl
  | succ limit ih =>
    intro c hlength
    show (if starts c.token = true then _ else _ : Parser (List α)).run c =
      (if starts c.token = true then _ else _ : Parser (List α)).run c
    split
    · refine run_bind_congr fun x c' hreads => ?_
      have hshorter : c'.rest.length < c.rest.length := by
        obtain ⟨ts, htokens, hts⟩ := h.sound hreads
        rw [c.length_rest, c'.length_rest, htokens, List.length_append]
        exact Nat.lt_add_of_pos_left (List.length_pos_iff.mpr (hrule ts x hts))
      rw [StateT.run_bind, StateT.run_bind, ih c' (by omega)]
    · rfl

section Operations

variable {operator? : Token → Option ω} {operand : Parser α} {combine : ω → α → β} {c : Cursor}

theorem run_operationsUpTo_none (h : operator? c.token = none) (limit : Nat) :
    (operationsUpTo operator? operand combine (limit + 1)).run c = .ok ([], c) := by
  rw [operationsUpTo, run_token_bind, h]
  rfl

theorem run_operationsUpTo_some {operator : ω} (h : operator? c.token = some operator)
    (limit : Nat) :
    (operationsUpTo operator? operand combine (limit + 1)).run c =
      (advance >>= fun _ => operand >>= fun first =>
        operationsUpTo operator? operand combine limit >>=
        fun others => pure (combine operator first :: others)).run c := by
  rw [operationsUpTo, run_token_bind, h]

end Operations

/-- Operations are tracked, since every operator is a token. -/
theorem tracks_operations {operator? : Token → Option ω} {operand : Parser α} {combine : ω → α → β}
    {rule : Rule α} (hend : operator? .endOfFile = none) (h : Tracks operand rule) :
    Tracks (operations operator? operand combine)
      (Repeated (Grammar.Operation operator? rule combine)) := by
  -- the number of tokens bounds the rounds, so the limit of the loop plays no part
  refine Tracks.limited (k := 0) (tracks_operationsUpTo hend h) fun limit => ?_
  induction limit with
  | zero =>
    intro c hlength
    have hnone : operator? c.token = none := by rw [token_of_length_le_zero hlength, hend]
    exact run_operationsUpTo_none hnone 0
  | succ limit ih =>
    intro c hlength
    cases hoperator : operator? c.token with
    | none => rw [run_operationsUpTo_none hoperator, run_operationsUpTo_none hoperator]
    | some operator =>
      rw [run_operationsUpTo_some hoperator, run_operationsUpTo_some hoperator]
      have htoken : c.token ≠ .endOfFile := by
        intro heq
        rw [heq, hend] at hoperator
        cases hoperator
      have hadvance := length_advance_lt htoken
      refine run_bind_congr fun _ c₁ hreads => run_bind_congr fun x c' hreads' => ?_
      cases hreads
      have hle := h.sound.length_le hreads'
      rw [StateT.run_bind, StateT.run_bind, ih c' (by omega)]

/-- Separated lists are tracked item by item. -/
theorem tracks_separated {separator : Token} {item : Parser α} {rule : Rule α}
    (h : Tracks item rule)
    (hseparator : separator ≠ .endOfFile) :
    Tracks (separated separator item) (Separated separator rule) := by
  have hend : separator? separator .endOfFile = none := if_neg hseparator.symm
  refine h.bind fun us x hx => (tracks_operations hend h).bind fun vs xs hxs => .pure ?_
  rw [List.append_nil]
  exact .of_repeated hx hxs

end Parser

end Oberon
