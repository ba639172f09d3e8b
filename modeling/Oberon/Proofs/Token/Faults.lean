import Mathlib.Data.List.TakeWhile
import Oberon.Proofs.Token.Places

/-!
# Lexical faults

What can be wrong with a text at a place where a token or a comment starts.  Main statement: a
scan fails exactly if the text has a fault at a place to which the text in front of it leads, and
what it reports is that fault and its line.
-/

namespace Oberon

namespace Scanner

open Oberon.Text

variable {line last : Nat} {c : Char} {cs rest text : List Char} {t : Token}

/-! ## Comments that are not closed -/

/-- Behind `depth` open brackets the text never closes one that is not open. -/
def NeverCloses (depth : Nat) (bs : List Bracket) : Prop :=
  ∀ front ∈ bs.inits, 0 ≤ depth + level front

/-- A bracket is opened, and none in the text balances it. -/
def IsOpen (cs : List Char) : Prop :=
  ∃ bs, brackets cs = .opening :: bs ∧ NeverCloses 0 bs

theorem neverCloses_nil (depth : Nat) : NeverCloses depth [] := by
  intro front hfront
  rw [List.eq_nil_of_prefix_nil ((List.mem_inits _ _).mp hfront), level_nil]
  omega

theorem neverCloses_cons {depth : Nat} (inner : Nat) {b : Bracket} {bs : List Bracket}
    (hstep : (inner : Int) = depth + b.step) :
    NeverCloses depth (b :: bs) ↔ NeverCloses inner bs := by
  constructor
  · intro h front hfront
    rw [List.mem_inits] at hfront
    have hlevel :=
      h (b :: front) ((List.mem_inits _ _).mpr (List.cons_prefix_cons.mpr ⟨rfl, hfront⟩))
    rw [level_cons] at hlevel
    omega
  · intro h front hfront
    cases front with
    | nil =>
      rw [level_nil]
      omega
    | cons first front =>
      obtain ⟨rfl, hprefix⟩ := List.cons_prefix_cons.mp ((List.mem_inits _ _).mp hfront)
      have hlevel := h front ((List.mem_inits _ _).mpr hprefix)
      rw [level_cons]
      omega

theorem not_neverCloses_closing (bs : List Bracket) : ¬ NeverCloses 0 (.closing :: bs) := by
  intro h
  have hlevel :=
    h [.closing] ((List.mem_inits _ _).mpr (List.cons_prefix_cons.mpr ⟨rfl, List.nil_prefix⟩))
  exact absurd hlevel (by decide)

/-- The rest of a comment is missed exactly if no bracket balances what is open. -/
theorem skipComment_eq_error_iff {depth : Nat} :
    skipComment depth line cs = .error last ↔
      NeverCloses depth (brackets cs) ∧ last = line + cs.count '\n' := by
  fun_induction skipComment depth line cs with
  | case1 depth line => simp [brackets, neverCloses_nil, eq_comm]
  | case2 depth line cs ih =>
    rw [ih, brackets, neverCloses_cons (depth + 1) rfl]
    rfl
  | case3 line cs =>
    rw [brackets]
    simp [not_neverCloses_closing]
  | case4 line cs depth ih =>
    rw [ih, brackets, neverCloses_cons depth (by simp [Bracket.step])]
    rfl
  | case5 depth line c cs hopening hclosing ih =>
    rw [ih, brackets, neverCloses_cons depth (by simp [Bracket.step]), nextLine_add_count]
    · rintro tail rfl rfl
      exact hopening _ rfl rfl
    · rintro tail rfl rfl
      exact hclosing _ rfl rfl

theorem skipLayout_of_isOpen (h : IsOpen cs) :
    skipLayout cs line = .error ⟨.unterminatedComment line, line + cs.count '\n'⟩ := by
  obtain ⟨bs, hcs, hbs⟩ := h
  obtain ⟨rest, rfl, rfl⟩ := text_of_opening hcs
  have hskip : skipComment 0 line rest = .error (line + rest.count '\n') :=
    skipComment_eq_error_iff.mpr ⟨hbs, rfl⟩
  rw [skipLayout]
  split
  next hrest =>
    rw [hskip] at hrest
    cases hrest
    rfl
  next hrest =>
    rw [hskip] at hrest
    cases hrest

/-- Layout that cannot be skipped ends in an open comment. -/
theorem isOpen_of_skipLayout {failure : LexicalFailure} (h : skipLayout cs line = .error failure) :
    ∃ skipped rest, cs = skipped ++ rest ∧ IsLayout skipped ∧ IsOpen rest ∧
      failure = ⟨.unterminatedComment (line + skipped.count '\n'),
        line + skipped.count '\n' + rest.count '\n'⟩ := by
  fun_induction skipLayout cs line with
  | case1 => cases h
  | case2 line comment stop hcomment =>
    cases h
    obtain ⟨hnever, rfl⟩ := skipComment_eq_error_iff.mp hcomment
    exact ⟨[], '(' :: '*' :: comment, rfl, .nil, ⟨_, by rw [brackets], hnever⟩, rfl⟩
  | case3 line comment _ _ hcomment ih =>
    obtain ⟨first, inner, rfl, hbrackets, hinner, rfl⟩ := brackets_of_skipComment hcomment
    obtain ⟨others, rest, rfl, hothers, hopen, rfl⟩ := ih h
    have hfirst : IsComment ('(' :: '*' :: first) := ⟨inner, by rw [brackets, hbrackets], hinner⟩
    refine ⟨'(' :: '*' :: first ++ others, rest, by simp, .comment hfirst hothers, hopen, ?_⟩
    rw [List.count_append, ← Nat.add_assoc]
    rfl
  | case4 line c cs _ hblank ih =>
    obtain ⟨others, rest, rfl, hothers, hopen, rfl⟩ := ih h
    refine ⟨c :: others, rest, rfl, .blank hblank hothers, hopen, ?_⟩
    rw [nextLine_add_count]
  | case5 => cases h

end Scanner

/-! ## Numerals that are refused -/

namespace Numeral

open Scanner

variable {c : Char} {cs text : List Char}

def readFraction (fraction : List Char) : List Char :=
  if fraction.isEmpty then ['0'] else fraction

/-- The characters start with a numeral that is malformed or out of range, of which `text` is
read. -/
inductive Refused : List Char → List Char → Prop where
  /-- A hexadecimal integer that is out of range. -/
  | hexadecimal {first : Char} {digits behind : List Char}
    (hdigits : ∀ d ∈ digits, isHexDigit d = true)
    (hrange : 2 ^ 63 ≤ hexValue (first :: digits)) :
    Refused (first :: (digits ++ 'H' :: behind)) (first :: (digits ++ ['H']))
  /-- Hexadecimal digits without their `H`. -/
  | letters {first : Char} {digits behind : List Char} (hdigits : ∀ d ∈ digits, isHexDigit d = true)
    (hletter : ∃ d ∈ digits, d.isDigit = false)
    (hstop : ∀ d ∈ behind.head?, isHexDigit d = false ∧ d ≠ 'H') :
    Refused (first :: (digits ++ behind)) (first :: digits)
  /-- A decimal integer that is out of range. -/
  | decimal {first : Char} {digits behind : List Char}
    (hdigits : ∀ d ∈ first :: digits, d.isDigit = true)
    (hrange : 2 ^ 63 ≤ decimalValue (first :: digits))
    (hstop : ∀ d ∈ behind.head?, isHexDigit d = false ∧ d ≠ 'H' ∧ d ≠ '.') :
    Refused (first :: (digits ++ behind)) (first :: digits)
  /-- An exponent without digits. -/
  | exponent {first : Char} {whole fraction sign behind : List Char}
    (hwhole : ∀ d ∈ first :: whole, d.isDigit = true) (hfraction : ∀ d ∈ fraction, d.isDigit = true)
    (hsign : sign = [] ∨ sign = ['+'] ∨ sign = ['-'])
    (hstop : ∀ d ∈ behind.head?, d.isDigit = false ∧ (sign = [] → d ≠ '+' ∧ d ≠ '-')) :
    Refused (first :: (whole ++ '.' :: (fraction ++ 'E' :: (sign ++ behind))))
      (first :: (whole ++ '.' :: (readFraction fraction ++ 'E' :: sign)))
  /-- A real that is out of range. -/
  | real {first : Char} {whole fraction scale behind : List Char} {exponent : Int}
    (hwhole : ∀ d ∈ first :: whole, d.isDigit = true) (hfraction : ∀ d ∈ fraction, d.isDigit = true)
    (hscale : IsScale scale exponent)
    (hrange : (Decimal.ofDigits (first :: whole) fraction exponent).toFloat.isFinite = false)
    (hstop : ∀ d ∈ behind.head?, d.isDigit = false ∧ (scale = [] → d ≠ 'E')) :
    Refused (first :: (whole ++ '.' :: (fraction ++ (scale ++ behind))))
      (first :: (whole ++ '.' :: (readFraction fraction ++ scale)))

/-- An integer is refused exactly if it is too large. -/
theorem integer_eq_error_iff {value : Nat} {s : String} :
    integer value text cs = .error s ↔ 2 ^ 63 ≤ value ∧ s = String.ofList text := by
  have hmax : Int64.maxValue.toInt = 2 ^ 63 - 1 := by decide
  rw [integer, hmax]
  split
  next hle =>
    have hlt : ¬ 2 ^ 63 ≤ value := by omega
    refine ⟨fun h => ?_, fun h => absurd h.1 hlt⟩
    cases h
  next hlt =>
    have hle : 2 ^ 63 ≤ value := by omega
    rw [Except.error.injEq, eq_comm]
    exact ⟨fun h => ⟨hle, h⟩, fun h => h.2⟩

/-- Whether a real is finite does not depend on how its missing fraction is read. -/
theorem isFinite_readFraction (whole fraction : List Char) (exponent : Int) :
    (Decimal.ofDigits whole (readFraction fraction) exponent).toFloat.isFinite =
      (Decimal.ofDigits whole fraction exponent).toFloat.isFinite := by
  cases fraction with
  | cons => rfl
  | nil =>
    show (Decimal.ofDigits whole ['0'] exponent).toFloat.isFinite = _
    by_cases hmissing : (Decimal.ofDigits whole [] exponent).toFloat.isFinite = true
    · rw [Decimal.toFloat_ofDigits_nil (.inl hmissing)]
    · by_cases hzero : (Decimal.ofDigits whole ['0'] exponent).toFloat.isFinite = true
      · rw [Decimal.toFloat_ofDigits_nil (.inr hzero)]
      · rw [Bool.eq_false_iff.mpr hmissing, Bool.eq_false_iff.mpr hzero]

/-- A real number is refused exactly if it is not finite. -/
theorem real_eq_error_iff {whole fraction : List Char} {exponent : Int} {s : String} :
    real whole (readFraction fraction) exponent text cs = .error s ↔
      (Decimal.ofDigits whole fraction exponent).toFloat.isFinite = false ∧
        s = String.ofList text := by
  unfold real
  dsimp only
  rw [isFinite_readFraction]
  split
  next hfinite => simp [hfinite]
  next hfinite => simp [hfinite, eq_comm]

theorem takeSign_of_stop {sign : List Char} (hsign : sign = [] ∨ sign = ['+'] ∨ sign = ['-'])
    (hstop : ∀ d ∈ cs.head?, sign = [] → d ≠ '+' ∧ d ≠ '-') :
    takeSign (sign ++ cs) = (sign, cs) := by
  obtain rfl | rfl | rfl := hsign
  · rw [List.nil_append, takeSign]
    · rintro tail rfl
      exact (hstop '+' rfl rfl).1 rfl
    · rintro tail rfl
      exact (hstop '-' rfl rfl).2 rfl
  · rfl
  · rfl

/-- Numerals that should be refused are. -/
theorem read_of_refused (h : Refused (c :: cs) text) : read c cs = .error (String.ofList text) := by
  generalize hchars : c :: cs = chars at h
  cases h with
  | @hexadecimal first digits behind hdigits hrange =>
    obtain ⟨rfl, rfl⟩ := List.cons.inj hchars
    have hstop : ∀ d ∈ ('H' :: behind).head?, isHexDigit d = false := by
      rintro d ⟨⟩
      decide
    obtain ⟨htake, hdrop⟩ := takeWhile_append_of_stop hdigits hstop
    unfold read
    rw [htake, hdrop]
    exact integer_eq_error_iff.mpr ⟨hrange, rfl⟩
  | @letters first digits behind hdigits hletter hstop =>
    obtain ⟨rfl, rfl⟩ := List.cons.inj hchars
    obtain ⟨htake, hdrop⟩ := takeWhile_append_of_stop hdigits fun d hd => (hstop d hd).1
    have hall : ¬ (c :: digits).all Char.isDigit = true := by
      obtain ⟨d, hd, hdigit⟩ := hletter
      intro hall
      rw [List.all_eq_true.mp hall d (List.mem_cons_of_mem _ hd)] at hdigit
      cases hdigit
    unfold read
    rw [htake, hdrop]
    dsimp only
    -- without an `H` behind them, digits with a letter among them are no numeral
    split
    next => exact absurd rfl (hstop 'H' rfl).2
    next => rw [if_neg hall]
  | @decimal first digits behind hdigits hrange hstop =>
    obtain ⟨rfl, rfl⟩ := List.cons.inj hchars
    have hrun : ∀ d ∈ digits, isHexDigit d = true := fun d hd =>
      isHexDigit_of_isDigit (hdigits d (List.mem_cons_of_mem c hd))
    obtain ⟨htake, hdrop⟩ := takeWhile_append_of_stop hrun fun d hd => (hstop d hd).1
    unfold read
    rw [htake, hdrop]
    dsimp only
    split
    next => exact absurd rfl (hstop 'H' rfl).2.1
    next =>
      rw [if_pos (List.all_eq_true.mpr hdigits)]
      split
      next => exact absurd rfl (hstop '.' rfl).2.2
      next => exact integer_eq_error_iff.mpr ⟨hrange, rfl⟩
  | @exponent first whole fraction sign behind hwhole hfraction hsign hstop =>
    obtain ⟨rfl, rfl⟩ := List.cons.inj hchars
    have hmark : ∀ d ∈ ('E' :: (sign ++ behind)).head?, d.isDigit = false := by
      rintro d ⟨⟩
      decide
    obtain ⟨htake, hdrop⟩ := takeWhile_append_of_stop hfraction hmark
    -- nothing is read as the digits of the exponent
    have hnone : behind.takeWhile Char.isDigit = [] :=
      (takeWhile_append_of_stop (List.forall_mem_nil _) fun d hd => (hstop d hd).1).1
    rw [read_point hwhole]
    unfold readReal
    rw [htake, hdrop]
    simp [takeSign_of_stop hsign fun d hd => (hstop d hd).2, hnone, readFraction]
  | @real first whole fraction scale behind exponent hwhole hfraction hscale hrange hstop =>
    obtain ⟨rfl, rfl⟩ := List.cons.inj hchars
    rw [read_point hwhole, readReal_append _ hfraction hscale hstop]
    exact real_eq_error_iff.mpr ⟨hrange, rfl⟩

theorem head?_takeSign (cs : List Char) :
    (takeSign cs).1 = [] → ∀ d ∈ (takeSign cs).2.head?, d ≠ '+' ∧ d ≠ '-' := by
  fun_cases takeSign cs with
  | case1 => exact fun h => absurd h (List.cons_ne_nil _ _)
  | case2 => exact fun h => absurd h (List.cons_ne_nil _ _)
  | case3 rest hplus hminus =>
    rintro - d hd
    obtain ⟨tail, rfl⟩ := List.head?_eq_some_iff.mp hd
    refine ⟨?_, ?_⟩
    · rintro rfl
      exact hplus tail rfl
    · rintro rfl
      exact hminus tail rfl

/-- What is behind the point is refused only with an exponent without digits or out of range. -/
theorem refused_of_readReal {digits : List Char} {s : String}
    (hdigits : ∀ d ∈ c :: digits, d.isDigit = true)
    (h : readReal (c :: digits) cs = .error s) :
    ∃ text, s = String.ofList text ∧ Refused (c :: (digits ++ '.' :: cs)) text := by
  obtain ⟨fraction, behind, rfl, htake, hdrop, hfraction, hstop⟩ :=
    exists_run_append Char.isDigit cs
  unfold readReal at h
  rw [htake, hdrop] at h
  dsimp only at h
  split at h
  next tail =>
    obtain ⟨hsplit, hsign⟩ := takeSign_eq tail
    have hsigned := head?_takeSign tail
    generalize (takeSign tail).1 = sign at h hsplit hsign hsigned
    generalize (takeSign tail).2 = scale at h hsplit hsigned
    subst hsplit
    obtain ⟨digits, others, rfl, htake, -, hdigits', hothers⟩ :=
      exists_run_append Char.isDigit scale
    rw [htake] at h
    split at h
    -- behind an `E` either the digits are missing or the real is out of range
    next hnone =>
      cases h
      obtain rfl := List.isEmpty_iff.mp hnone
      have hrefused := Refused.exponent hdigits hfraction hsign fun d hd =>
        ⟨hothers d hd, fun hnil => hsigned hnil d hd⟩
      exact ⟨_, by simp [readFraction], hrefused⟩
    next hsome =>
      obtain ⟨hrange, rfl⟩ := real_eq_error_iff.mp h
      rw [List.isEmpty_iff] at hsome
      have hrefused := Refused.real hdigits hfraction (.written hsign hsome hdigits') hrange
        fun d hd => ⟨hothers d hd, nofun⟩
      rw [List.cons_append, List.append_assoc] at hrefused
      exact ⟨_, by simp [readFraction], hrefused⟩
  next hE =>
    obtain ⟨hrange, rfl⟩ := real_eq_error_iff.mp h
    -- without an `E` nothing but the range can be wrong
    have hnotE : ∀ d ∈ behind.head?, d ≠ 'E' := by
      rintro d hd rfl
      obtain ⟨tail, rfl⟩ := List.head?_eq_some_iff.mp hd
      exact hE tail rfl
    have hrefused := Refused.real hdigits hfraction .absent hrange fun d hd =>
      ⟨hstop d hd, fun _ => hnotE d hd⟩
    exact ⟨_, by simp [readFraction], hrefused⟩

/-- Numerals that are refused should be. -/
theorem refused_of_read {s : String} (hfirst : c.isDigit = true) (h : read c cs = .error s) :
    ∃ text, s = String.ofList text ∧ Refused (c :: cs) text := by
  obtain ⟨digits, behind, rfl, htake, hdrop, hhex, hstop⟩ := exists_run_append isHexDigit cs
  unfold read at h
  rw [htake, hdrop] at h
  dsimp only at h
  split at h
  next tail =>
    obtain ⟨hrange, rfl⟩ := integer_eq_error_iff.mp h
    exact ⟨_, rfl, .hexadecimal hhex hrange⟩
  next hH =>
    -- an `H` would have made it hexadecimal
    have hnotH : ∀ d ∈ behind.head?, d ≠ 'H' := by
      rintro d hd rfl
      obtain ⟨tail, rfl⟩ := List.head?_eq_some_iff.mp hd
      exact hH tail rfl
    split at h
    next hdecimal =>
      have hdigits := List.all_eq_true.mp hdecimal
      split at h
      next tail => exact refused_of_readReal hdigits h
      next hpoint =>
        obtain ⟨hrange, rfl⟩ := integer_eq_error_iff.mp h
        refine ⟨_, rfl, .decimal hdigits hrange fun d hd => ⟨hstop d hd, hnotH d hd, ?_⟩⟩
        rintro rfl
        obtain ⟨tail, rfl⟩ := List.head?_eq_some_iff.mp hd
        exact hpoint tail rfl
    next hletters =>
      cases h
      refine ⟨_, rfl, .letters hhex ?_ fun d hd => ⟨hstop d hd, hnotH d hd⟩⟩
      simpa [hfirst] using hletters

end Numeral

namespace Scanner

open Oberon.Text

variable {line last : Nat} {c : Char} {cs rest text : List Char} {t : Token}

/-! ## Characters that start no token -/

/-- Neither layout nor a token starts with the character. -/
structure StartsNothing (c : Char) : Prop where
  not_blank : isBlank c = false
  not_token : ∀ t text, ¬ Spelling t (c :: text)

theorem spelling_of_isIdentifierStart (h : isIdentifierStart c = true) : ∃ t, Spelling t [c] := by
  obtain ⟨text, hstarts⟩ := @starts_word c [] h
  have htext : text = [c] := by
    have hchars := hstarts.chars
    rw [List.dropWhile_nil, List.append_nil] at hchars
    exact hchars.symm
  exact ⟨_, htext ▸ hstarts.spelling⟩

theorem spelling_of_isDigit (h : c.isDigit = true) : ∃ t, Spelling t [c] := by
  have hvalue : Numeral.decimalValue [c] < 2 ^ 63 := by
    have hrange := toNat_of_isDigit h
    have hdigit : Numeral.decimalValue [c] = c.toNat - 48 := by
      simp [Numeral.decimalValue, Nat.ofDigitChars_cons]
    omega
  exact ⟨_, .decimal (List.forall_mem_singleton.mpr h) (Int64.toInt_ofNat_of_lt hvalue)⟩

/-- The classes of characters with which tokens start are all that the scanner tries. -/
theorem readToken_eq_unknown (hstart : isIdentifierStart c = false) (hdigit : c.isDigit = false)
    (hquote : c ≠ '"') (hmark : Mark.ofChar? c = none) :
    readToken line c cs = .error (.unknownCharacter c line) := by
  rw [readToken, hstart, hdigit, hmark]
  simp [hquote]

theorem StartsNothing.readToken (h : StartsNothing c) (line : Nat) (cs : List Char) :
    readToken line c cs = .error (.unknownCharacter c line) := by
  apply readToken_eq_unknown
  · rw [Bool.eq_false_iff]
    intro hstart
    obtain ⟨t, hspelling⟩ := spelling_of_isIdentifierStart hstart
    exact h.not_token t _ hspelling
  · rw [Bool.eq_false_iff]
    intro hdigit
    obtain ⟨t, hspelling⟩ := spelling_of_isDigit hdigit
    exact h.not_token t _ hspelling
  · rintro rfl
    exact h.not_token (.string "") ['"'] (.string nofun)
  · cases hmark : Mark.ofChar? c with
    | none => rfl
    | some symbol =>
      refine absurd ?_ (h.not_token (.mark symbol) [])
      rw [eq_char_of_ofChar? hmark]
      exact .mark symbol

theorem startsNothing (hblank : isBlank c = false) (hstart : isIdentifierStart c = false)
    (hdigit : c.isDigit = false) (hquote : c ≠ '"') (hmark : Mark.ofChar? c = none) :
    StartsNothing c where
  not_blank := hblank
  not_token := by
    intro t text hspelling
    -- the scanner would read the token from its own text
    obtain ⟨first, more, hchars, hreads⟩ := @Spelling.readsBefore [] t (c :: text) hspelling nofun
    obtain ⟨rfl, rfl⟩ := List.cons.inj hchars
    have hread := hreads.reads 1
    rw [readToken_eq_unknown hstart hdigit hquote hmark] at hread
    cases hread

/-! ## Faults -/

/-- What is wrong with a text that goes on like this at a place on line `line`: the error, and the
line that is reached. -/
inductive Fault (line : Nat) : List Char → LexicalFailure → Prop where
  | unterminatedComment {cs : List Char} (h : IsOpen cs) :
    Fault line cs ⟨.unterminatedComment line, line + cs.count '\n'⟩
  | multilineString {content behind : List Char} (h : ∀ c ∈ content, c ≠ '"' ∧ c ≠ '\n') :
    Fault line ('"' :: (content ++ '\n' :: behind)) ⟨.multilineString (line + 1), line + 1⟩
  | unterminatedString {content : List Char} (h : ∀ c ∈ content, c ≠ '"' ∧ c ≠ '\n') :
    Fault line ('"' :: content) ⟨.unterminatedString line, line⟩
  | invalidNumber {c : Char} {cs text : List Char} (hdigit : c.isDigit = true)
    (h : Numeral.Refused (c :: cs) text) :
    Fault line (c :: cs) ⟨.invalidNumber (String.ofList text) line, line⟩
  | unknownCharacter {c : Char} {cs : List Char} (h : StartsNothing c) :
    Fault line (c :: cs) ⟨.unknownCharacter c line, line⟩

theorem fault_of_readString {e : LexicalError} (h : readString line cs = .error e) :
    Fault line ('"' :: cs) ⟨e, e.line⟩ := by
  have hcontent : ∀ c ∈ cs.takeWhile isStringChar, c ≠ '"' ∧ c ≠ '\n' := by
    intro c hc
    have hclass := List.all_eq_true.mp List.all_takeWhile c hc
    simpa [isStringChar] using hclass
  have hchars := (List.takeWhile_append_dropWhile (p := isStringChar) (l := cs)).symm
  unfold readString at h
  generalize cs.takeWhile isStringChar = content at *
  split at h
  next hnone =>
    cases h
    rw [hnone, List.append_nil] at hchars
    subst hchars
    exact .unterminatedString hcontent
  next hline =>
    cases h
    rw [hline] at hchars
    subst hchars
    exact .multilineString hcontent
  next => cases h

/-- A token that cannot be read is one of the faults. -/
theorem fault_of_readToken {e : LexicalError} (h : readToken line c cs = .error e)
    (hblank : isBlank c = false) : Fault line (c :: cs) ⟨e, e.line⟩ := by
  unfold readToken at h
  -- the tests of the reader in their order: words, numerals, strings, marks
  split at h
  next => cases h
  next hstart =>
    split at h
    next hdigit =>
      cases hread : Numeral.read c cs with
      | ok =>
        rw [hread] at h
        cases h
      | error s =>
        rw [hread] at h
        cases h
        obtain ⟨text, rfl, hrefused⟩ := Numeral.refused_of_read hdigit hread
        exact .invalidNumber hdigit hrefused
    next hdigit =>
      split at h
      next hquote =>
        subst hquote
        exact fault_of_readString h
      next hquote =>
        split at h
        next => cases h
        next hmark =>
          cases h
          exact .unknownCharacter (startsNothing hblank (Bool.eq_false_iff.mpr hstart)
            (Bool.eq_false_iff.mpr hdigit) hquote hmark)

/-- The first fault ends the scan. -/
theorem tokens_of_error {e : LexicalError} (hblank : isBlank c = false)
    (hcomment : c = '(' → cs.head? ≠ some '*') (h : readToken line c cs = .error e) :
    tokens (c :: cs) line = .error ⟨e, e.line⟩ := by
  have hlayout := skipLayout_of_not_isBlank hblank hcomment line
  rw [tokens]
  split
  next hskip =>
    rw [hlayout] at hskip
    cases hskip
  next hskip =>
    rw [hlayout] at hskip
    cases hskip
  next hskip =>
    rw [hlayout] at hskip
    cases hskip
    split
    next hread =>
      rw [h] at hread
      cases hread
      rfl
    next hread =>
      rw [h] at hread
      cases hread

theorem readToken_quote (line : Nat) (cs : List Char) :
    readToken line '"' cs = readString line cs := by
  have hstart : isIdentifierStart '"' = false := by decide
  have hdigit : '"'.isDigit = false := by decide
  rw [readToken, hstart, hdigit]
  rfl

theorem tokens_of_isOpen (h : IsOpen cs) :
    tokens cs line = .error ⟨.unterminatedComment line, line + cs.count '\n'⟩ := by
  rw [tokens]
  split
  next hskip =>
    rw [skipLayout_of_isOpen h] at hskip
    cases hskip
    rfl
  next hskip =>
    rw [skipLayout_of_isOpen h] at hskip
    cases hskip
  next hskip =>
    rw [skipLayout_of_isOpen h] at hskip
    cases hskip

/-- Each fault is found where it stands. -/
theorem Fault.tokens_eq {failure : LexicalFailure} (h : Fault line cs failure) :
    tokens cs line = .error failure := by
  cases h with
  | unterminatedComment hopen => exact tokens_of_isOpen hopen
  | @multilineString content behind hcontent =>
    refine tokens_of_error (by decide) (fun hparen => absurd hparen (by decide)) ?_
    have hrun : ∀ c ∈ content, isStringChar c = true := fun c hc => by
      simpa [isStringChar] using hcontent c hc
    have hstop : ∀ c ∈ ('\n' :: behind).head?, isStringChar c = false := by
      rintro c ⟨⟩
      decide
    rw [readToken_quote, readString, (takeWhile_append_of_stop hrun hstop).2]
    rfl
  | @unterminatedString content hcontent =>
    refine tokens_of_error (by decide) (fun hparen => absurd hparen (by decide)) ?_
    have hrun : ∀ c ∈ content, isStringChar c = true := fun c hc => by
      simpa [isStringChar] using hcontent c hc
    rw [readToken_quote, readString, List.dropWhile_eq_nil_iff.mpr hrun]
  | invalidNumber hdigit hrefused =>
    obtain ⟨hstart, hblank, hparen⟩ := not_isIdentifierStart_of_isDigit hdigit
    refine tokens_of_error hblank (fun h => absurd h hparen) ?_
    rw [readToken, hstart, hdigit, Numeral.read_of_refused hrefused]
    rfl
  | unknownCharacter hnothing =>
    refine tokens_of_error hnothing.not_blank ?_ (hnothing.readToken line _)
    rintro rfl
    exact absurd (.mark .leftParen) (hnothing.not_token _ [])

/-! ## Scans that fail -/

/-- A scan that fails has come across a fault behind complete tokens. -/
theorem fault_of_tokens {failure : LexicalFailure} (h : tokens cs line = .error failure) :
    ∃ front rest, cs = front ++ rest ∧ Leads rest front ∧
      Fault (line + front.count '\n') rest failure := by
  fun_induction tokens cs line with
  | case1 cs line failure' hlayout =>
    cases h
    obtain ⟨skipped, rest, rfl, hskipped, hopen, rfl⟩ := isOpen_of_skipLayout hlayout
    exact ⟨skipped, rest, rfl, hskipped.leads, .unterminatedComment hopen⟩
  | case2 => cases h
  | case3 cs line c rest line' hlayout e htoken =>
    cases h
    obtain ⟨skipped, rfl, hskipped, rfl⟩ := isLayout_of_skipLayout hlayout
    exact ⟨skipped, c :: rest, rfl, hskipped.leads,
      fault_of_readToken htoken (isBlank_of_skipLayout hlayout).1⟩
  | case4 cs line c rest line' hlayout token behind htoken failure' hothers ih =>
    cases h
    obtain ⟨skipped, rfl, hskipped, rfl⟩ := isLayout_of_skipLayout hlayout
    obtain ⟨text, hstarts⟩ := starts_of_readToken htoken
    obtain ⟨front, tail, rfl, hfront, hfault⟩ := ih hothers
    -- the token is complete, so it leads to the place of the fault behind it
    have hstop := stops_of_readToken htoken hstarts (isBlank_of_skipLayout hlayout).2
    refine ⟨skipped ++ (text ++ front), tail, ?_, ?_, ?_⟩
    · rw [hstarts.chars, List.append_assoc, List.append_assoc]
    · exact hskipped.leads.append (.token hstarts.spelling hstop hfront)
    · rw [List.count_append, List.count_append,
        List.count_eq_zero.mpr hstarts.spelling.newline_not_mem, Nat.zero_add, ← Nat.add_assoc]
      exact hfault
  | case5 => cases h

/-- A scan fails exactly if the text has a fault at a place where a token or a comment may start,
up to which the text is scanned without one; what it reports is the fault on the line of the
place. -/
theorem scan_eq_error_iff (source : String) (line : Nat) (failure : LexicalFailure) :
    scan source line = .error failure ↔
      ∃ front rest, source.toList = front ++ rest ∧
        (∃ found, scan (String.ofList front) line = .ok (found, line + front.count '\n')) ∧
        Leads rest front ∧ Fault (line + front.count '\n') rest failure := by
  constructor
  · intro h
    obtain ⟨front, rest, hsource, hfront, hfault⟩ := fault_of_tokens h
    refine ⟨front, rest, hsource, ?_, hfront, hfault⟩
    obtain ⟨before, hbefore⟩ := tokens_of_leads hfront.cut line
    have hend (k : Nat) : tokens [] k = .ok ([], k) := tokens_of_layout (by rw [skipLayout])
    rw [List.append_nil, hend] at hbefore
    rw [scan, String.toList_ofList]
    exact ⟨_, hbefore⟩
  · rintro ⟨front, rest, hsource, -, hfront, hfault⟩
    obtain ⟨before, hbefore⟩ := tokens_of_leads hfront line
    rw [hfault.tokens_eq] at hbefore
    rw [scan, hsource, hbefore]
    rfl

-- The parenthesis belongs to the bracket that opens the comment, so nothing closes it.
example : scan "\"(*\" (*)\n" 3 = .error ⟨.unterminatedComment 3, 4⟩ := by
  decide +kernel

end Scanner

end Oberon
