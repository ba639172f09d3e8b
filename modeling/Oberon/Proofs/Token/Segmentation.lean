import Oberon.Proofs.Token.Layout

/-!
# What the scanner makes of a text

A text that the scanner accepts is a sequence of separators and tokens, and nothing else: every
character belongs to one of them.  A token is written as it was read, and it reaches as far as it
can.
-/

namespace Oberon

namespace Scanner

open Oberon.Text

variable {line last : Nat} {c : Char} {cs rest text : List Char} {t : Token}

/-! ## Layout that was skipped -/

theorem Balances.cons {depth inner : Nat} {b : Bracket} {bs : List Bracket} (h : Balances inner bs)
    (hstep : (inner : Int) = depth + b.step) : Balances depth (b :: bs) where
  total := by
    have htotal := h.total
    rw [level_cons]
    omega
  front := by
    intro front hfront
    cases front with
    | nil =>
      rw [level_nil]
      omega
    | cons first front =>
      obtain ⟨rfl, hprefix⟩ := List.cons_prefix_cons.mp ((List.mem_inits _ _).mp hfront)
      have hlevel := h.front front ((List.mem_inits _ _).mpr hprefix)
      rw [level_cons]
      omega

/-- The bracket that closes the comment is the last one in front of `rest`, so no bracket reaches
beyond it. -/
theorem brackets_of_skipComment {depth : Nat} (h : skipComment depth line cs = .ok (rest, last)) :
    ∃ skipped inner, cs = skipped ++ rest ∧ brackets skipped = inner ++ [.closing] ∧
      Balances depth inner ∧ last = line + skipped.count '\n' := by
  -- one case for each way in which the text of a comment goes on
  fun_induction skipComment depth line cs generalizing last with
  | case1 => cases h
  | case2 depth line cs ih =>
    obtain ⟨skipped, inner, rfl, hbrackets, hinner, rfl⟩ := ih h
    refine ⟨'(' :: '*' :: skipped, .opening :: inner, rfl, ?_, hinner.cons rfl, rfl⟩
    rw [brackets, hbrackets]
    rfl
  | case3 line cs =>
    cases h
    exact ⟨['*', ')'], [], rfl, rfl, ⟨rfl, by simp [level_nil]⟩, rfl⟩
  | case4 line cs depth ih =>
    obtain ⟨skipped, inner, rfl, hbrackets, hinner, rfl⟩ := ih h
    refine ⟨'*' :: ')' :: skipped, .closing :: inner, rfl, ?_, hinner.cons ?_, rfl⟩
    · rw [brackets, hbrackets]
      rfl
    · simp [Bracket.step]
  | case5 depth line c cs hopening hclosing ih =>
    obtain ⟨skipped, inner, rfl, hbrackets, hinner, rfl⟩ := ih h
    refine ⟨c :: skipped, .other :: inner, rfl, ?_, hinner.cons ?_,
      nextLine_add_count c skipped line⟩
    · rw [brackets, hbrackets]
      · rfl
      · rintro tail rfl rfl
        exact hopening _ rfl rfl
      · rintro tail rfl rfl
        exact hclosing _ rfl rfl
    · simp [Bracket.step]

/-- What is skipped is layout. -/
theorem isLayout_of_skipLayout (h : skipLayout cs line = .ok (rest, last)) :
    ∃ skipped, cs = skipped ++ rest ∧ IsLayout skipped ∧ last = line + skipped.count '\n' := by
  fun_induction skipLayout cs line with
  | case1 =>
    cases h
    exact ⟨[], rfl, .nil, rfl⟩
  | case2 => cases h
  | case3 line comment _ _ hcomment ih =>
    obtain ⟨first, inner, rfl, hbrackets, hinner, rfl⟩ := brackets_of_skipComment hcomment
    obtain ⟨others, rfl, hothers, rfl⟩ := ih h
    have hfirst : IsComment ('(' :: '*' :: first) := ⟨inner, by rw [brackets, hbrackets], hinner⟩
    refine ⟨'(' :: '*' :: first ++ others, ?_, .comment hfirst hothers, ?_⟩
    · simp
    · rw [List.count_append, ← Nat.add_assoc]
      rfl
  | case4 line c cs _ hblank ih =>
    obtain ⟨others, rfl, hothers, rfl⟩ := ih h
    exact ⟨c :: others, rfl, .blank hblank hothers, nextLine_add_count c others line⟩
  | case5 =>
    cases h
    exact ⟨[], rfl, .nil, rfl⟩

/-! ## Runs of characters -/

/-- Behind a run of characters of one class there is none of that class. -/
theorem head?_dropWhile (p : Char → Bool) (cs : List Char) :
    ∀ d ∈ (cs.dropWhile p).head?, p d = false := by
  intro d hd
  have hstop := List.head?_dropWhile_not p cs
  rw [Option.mem_def.mp hd] at hstop
  exact hstop

/-- A text is a run of characters of one class and what is behind it. -/
theorem exists_run_append (p : Char → Bool) (cs : List Char) :
    ∃ run behind, cs = run ++ behind ∧ cs.takeWhile p = run ∧ cs.dropWhile p = behind ∧
      (∀ d ∈ run, p d = true) ∧ ∀ d ∈ behind.head?, p d = false :=
  ⟨_, _, List.takeWhile_append_dropWhile.symm, rfl, rfl, List.all_eq_true.mp List.all_takeWhile,
    head?_dropWhile p cs⟩

theorem isIdentifierPart_of_isDigit (h : c.isDigit = true) : isIdentifierPart c = true := by
  have hascii := toNat_of_isDigit h
  have hnumeric : isNumeric c = true := by
    rw [isNumeric, if_pos (by omega)]
    exact h
  rw [isIdentifierPart, hnumeric, Bool.or_true, Bool.true_or]

theorem isIdentifierPart_of_isIdentifierStart (h : isIdentifierStart c = true) :
    isIdentifierPart c = true := by
  rw [isIdentifierStart, Bool.or_eq_true] at h
  rw [isIdentifierPart, Bool.or_eq_true, Bool.or_eq_true]
  rcases h with halphabetic | hunderscore
  · exact .inl (.inl halphabetic)
  · exact .inr hunderscore

/-- The runs of letters and digits in a token end with it: none of them goes on in what follows. -/
structure RunsEnd (text rest : List Char) : Prop where
  /-- The run of a word is the word. -/
  word : ∀ c ∈ text.head?, isIdentifierStart c = true →
    (text ++ rest).takeWhile isIdentifierPart = text
  /-- The first digits of a numeral, those of the larger base included, are all in it. -/
  digits : ∀ c ∈ text.head?, c.isDigit = true →
    (text ++ rest).takeWhile Numeral.isHexDigit = text.takeWhile Numeral.isHexDigit
  /-- The last digits of a token are not followed by another. -/
  last : ∀ d ∈ text.getLast?, d.isDigit = true → ∀ c ∈ rest.head?, c.isDigit = false

theorem runsEnd_word {word : List Char} (hstart : isIdentifierStart c = true)
    (hparts : ∀ d ∈ word, isIdentifierPart d = true)
    (hstop : ∀ d ∈ rest.head?, isIdentifierPart d = false) : RunsEnd (c :: word) rest where
  word := by
    rintro _ ⟨⟩ _
    rw [List.cons_append, List.takeWhile_cons_of_pos (isIdentifierPart_of_isIdentifierStart hstart),
      (takeWhile_append_of_stop hparts hstop).1]
  digits := by
    rintro _ ⟨⟩ hdigit
    rw [(not_isIdentifierStart_of_isDigit hdigit).1] at hstart
    cases hstart
  last := by
    intro _ _ _ d hd
    rw [Bool.eq_false_iff]
    intro hdigit
    have hpart := hstop d hd
    rw [isIdentifierPart_of_isDigit hdigit] at hpart
    cases hpart

/-- A token that is neither a word nor a numeral has no run at its ends. -/
theorem runsEnd_of_ends (hfirst : ∀ c ∈ text.head?, isIdentifierStart c = false ∧ c.isDigit = false)
    (hlast : ∀ c ∈ text.getLast?, c.isDigit = false) : RunsEnd text rest where
  word := by
    intro c hc hstart
    rw [(hfirst c hc).1] at hstart
    cases hstart
  digits := by
    intro c hc hdigit
    rw [(hfirst c hc).2] at hdigit
    cases hdigit
  last := by
    intro c hc hdigit
    rw [hlast c hc] at hdigit
    cases hdigit

/-- Of a numeral the first run, up to `more`, and the last character matter. -/
theorem runsEnd_numeral {digits more : List Char} (hfirst : c.isDigit = true)
    (hdigits : ∀ d ∈ digits, Numeral.isHexDigit d = true)
    (hstop : ∀ d ∈ (more ++ rest).head?, Numeral.isHexDigit d = false)
    (hlast : ∀ d ∈ (c :: (digits ++ more)).getLast?, d.isDigit = true →
      ∀ d ∈ rest.head?, d.isDigit = false) :
    RunsEnd (c :: (digits ++ more)) rest where
  word := by
    rintro _ ⟨⟩ hstart
    rw [(not_isIdentifierStart_of_isDigit hfirst).1] at hstart
    cases hstart
  digits := by
    rintro _ ⟨⟩ _
    have hhex := Numeral.isHexDigit_of_isDigit hfirst
    have hmore : ∀ d ∈ more.head?, Numeral.isHexDigit d = false := by
      intro d hd
      exact hstop d (List.mem_head?_append_of_mem_head? hd)
    rw [List.cons_append, List.append_assoc, List.takeWhile_cons_of_pos hhex,
      List.takeWhile_cons_of_pos hhex, (takeWhile_append_of_stop hdigits hstop).1,
      (takeWhile_append_of_stop hdigits hmore).1]
  last := hlast

/-! ## The text of a token -/

/-- `cs` starts with a token that is written as `text` and ends in front of `rest`. -/
structure Starts (t : Token) (text rest cs : List Char) : Prop where
  chars : cs = text ++ rest
  spelling : Spelling t text
  runsEnd : RunsEnd text rest

/-- A word starts with a token and goes as far as it can. -/
theorem starts_word (hstart : isIdentifierStart c = true) :
    ∃ text, Starts (wordToken (c :: cs.takeWhile isIdentifierPart)) text
      (cs.dropWhile isIdentifierPart) (c :: cs) := by
  have hparts : ∀ d ∈ cs.takeWhile isIdentifierPart, isIdentifierPart d = true :=
    List.all_eq_true.mp List.all_takeWhile
  have hchars : c :: cs = c :: cs.takeWhile isIdentifierPart ++ cs.dropWhile isIdentifierPart := by
    rw [List.cons_append, List.takeWhile_append_dropWhile]
  have hspelling : Spelling (wordToken (c :: cs.takeWhile isIdentifierPart))
      (c :: cs.takeWhile isIdentifierPart) := by
    have hlexeme := isLexeme_wordToken hstart hparts
    unfold wordToken at hlexeme ⊢
    split at hlexeme
    next word hword =>
      have hspelled := Spelling.keyword word
      rw [Keyword.ofText?_eq_some_iff.mp hword, String.toList_ofList] at hspelled
      exact hspelled
    next =>
      have hspelled := Spelling.identifier hlexeme
      rw [String.toList_ofList] at hspelled
      exact hspelled
  exact ⟨_, hchars, hspelling, runsEnd_word hstart hparts (head?_dropWhile _ _)⟩

theorem eq_char_of_ofChar? {symbol : Mark} (h : Mark.ofChar? c = some symbol) :
    c = symbol.char := by
  unfold Mark.ofChar? at h
  split at h <;> cases h <;> rfl

theorem starts_mark {symbol : Mark} (h : Mark.ofChar? c = some symbol) :
    Starts (.mark symbol) [c] cs (c :: cs) where
  chars := rfl
  spelling := by
    rw [eq_char_of_ofChar? h]
    exact .mark symbol
  runsEnd := by
    have hclass : isIdentifierStart symbol.char = false ∧ symbol.char.isDigit = false := by
      cases symbol <;> decide
    rw [eq_char_of_ofChar? h]
    apply runsEnd_of_ends
    · rintro _ ⟨⟩
      exact hclass
    · rintro _ ⟨⟩
      exact hclass.2

/-- A string starts with a token that is its text. -/
theorem starts_of_readString (h : readString line cs = .ok (t, rest)) :
    ∃ text, Starts t text rest ('"' :: cs) := by
  have hcontent : ∀ c ∈ cs.takeWhile isStringChar, c ≠ '"' ∧ c ≠ '\n' := by
    intro c hc
    have hclass := List.all_eq_true.mp List.all_takeWhile c hc
    simpa [isStringChar] using hclass
  have hchars := List.takeWhile_append_dropWhile (p := isStringChar) (l := cs)
  have hstop := head?_dropWhile isStringChar cs
  unfold readString at h
  split at h
  next => cases h
  next => cases h
  next quote tail hline hdrop =>
    cases h
    rw [hdrop] at hchars hstop
    -- what ends the content is a quote, as it is no end of a line
    have hquote : quote = '"' := by
      have hclass := hstop quote rfl
      simp only [isStringChar, Bool.and_eq_false_iff, decide_eq_false_iff_not, not_not] at hclass
      rcases hclass with rfl | rfl
      · rfl
      · exact absurd rfl hline
    subst hquote
    refine ⟨'"' :: (cs.takeWhile isStringChar ++ ['"']), ?_, ?_, ?_⟩
    · rw [List.cons_append, List.append_assoc, List.singleton_append, hchars]
    · have hspelled := @Spelling.string (String.ofList (cs.takeWhile isStringChar))
      rw [String.toList_ofList] at hspelled
      exact hspelled hcontent
    · apply runsEnd_of_ends
      · rintro _ ⟨⟩
        decide
      · intro c hc
        rw [← List.cons_append, List.getLast?_concat] at hc
        cases hc
        decide

end Scanner

namespace Numeral

open Scanner

variable {c : Char} {cs rest : List Char} {t : Token}

/-- An integer that is read has the value of its digits. -/
theorem toInt_of_integer {value : Nat} {text : List Char}
    (h : integer value text cs = .ok (t, rest)) :
    ∃ n : Int64, t = .integer n ∧ n.toInt = value ∧ rest = cs := by
  unfold integer at h
  split at h
  next hle =>
    cases h
    have hmax : Int64.maxValue.toInt = 2 ^ 63 - 1 := by decide
    exact ⟨_, rfl, Int64.toInt_ofNat_of_lt (by omega), rfl⟩
  next => cases h

/-- A real number that is read is that of its decimal. -/
theorem toFloat_of_real {whole fraction text : List Char} {exponent : Int}
    (h : real whole fraction exponent text cs = .ok (t, rest)) :
    ∃ value, t = .real value ∧ value = (Decimal.ofDigits whole fraction exponent).toFloat ∧
      value.isFinite = true ∧ rest = cs := by
  unfold real at h
  dsimp only at h
  split at h
  next hfinite =>
    cases h
    exact ⟨_, rfl, rfl, hfinite, rfl⟩
  next => cases h

theorem takeSign_eq (cs : List Char) : cs = (takeSign cs).1 ++ (takeSign cs).2 ∧
    ((takeSign cs).1 = [] ∨ (takeSign cs).1 = ['+'] ∨ (takeSign cs).1 = ['-']) := by
  fun_cases takeSign cs <;> simp

/-- The part of a real behind its point, as it is written, and its value. -/
structure RealTail (whole : List Char) (value : Float) (cs rest : List Char)
    (fraction scale : List Char)
    (exponent : Int) : Prop where
  chars : cs = fraction ++ (scale ++ rest)
  isDigit : ∀ d ∈ fraction, d.isDigit = true
  isScale : IsScale scale exponent
  value_eq : value = (Decimal.ofDigits whole fraction exponent).toFloat
  isFinite : value.isFinite = true
  stop : ∀ d ∈ rest.head?, d.isDigit = false

/-- A missing fraction was read as a zero. -/
theorem toFloat_of_fraction {whole fraction : List Char} {exponent : Int} {value : Float}
    (h : value = (Decimal.ofDigits whole (if fraction.isEmpty then ['0']
      else fraction) exponent).toFloat)
    (hfinite : value.isFinite = true) :
    value = (Decimal.ofDigits whole fraction exponent).toFloat := by
  cases fraction with
  | nil =>
    rw [h] at hfinite ⊢
    exact Decimal.toFloat_ofDigits_nil (.inr hfinite)
  | cons => exact h

theorem realTail_of_readReal {whole : List Char} (h : readReal whole cs = .ok (t, rest)) :
    ∃ value fraction scale exponent, t = .real value ∧
      RealTail whole value cs rest fraction scale exponent := by
  obtain ⟨fraction, behind, rfl, htake, hdrop, hfraction, hstop⟩ :=
    exists_run_append Char.isDigit cs
  unfold readReal at h
  rw [htake, hdrop] at h
  dsimp only at h
  split at h
  next tail =>
    obtain ⟨hsplit, hsign⟩ := takeSign_eq tail
    generalize (takeSign tail).1 = sign at h hsplit hsign
    generalize (takeSign tail).2 = scale at h hsplit
    subst hsplit
    obtain ⟨digits, others, rfl, htake, hdrop, hdigits, hothers⟩ :=
      exists_run_append Char.isDigit scale
    rw [htake, hdrop] at h
    split at h
    next => cases h
    -- an exponent has a digit, or the reader would have failed
    next hsome =>
      obtain ⟨value, rfl, hvalue, hfinite, rfl⟩ := toFloat_of_real h
      refine ⟨value, _, _, _, rfl, ?_, hfraction, .written hsign ?_ hdigits,
        toFloat_of_fraction hvalue hfinite, hfinite, hothers⟩
      · simp
      · exact fun hnil => hsome (List.isEmpty_iff.mpr hnil)
  next =>
    obtain ⟨value, rfl, hvalue, hfinite, rfl⟩ := toFloat_of_real h
    exact ⟨value, _, [], 0, rfl, rfl, hfraction, .absent,
      toFloat_of_fraction hvalue hfinite, hfinite, hstop⟩

/-- A numeral starts with a token and goes as far as it can. -/
theorem starts_of_read (hfirst : c.isDigit = true) (h : read c cs = .ok (t, rest)) :
    ∃ text, Starts t text rest (c :: cs) := by
  obtain ⟨digits, behind, rfl, htake, hdrop, hhex, hstop⟩ := exists_run_append isHexDigit cs
  unfold read at h
  rw [htake, hdrop] at h
  dsimp only at h
  split at h
  next tail =>
    obtain ⟨value, rfl, hvalue, rfl⟩ := toInt_of_integer h
    refine ⟨c :: (digits ++ ['H']), by simp, .hexadecimal hfirst hhex hvalue, ?_⟩
    -- the last character is no digit, so no run of digits ends with the text
    apply runsEnd_numeral hfirst hhex hstop
    intro d hd hdigit
    rw [← List.cons_append, List.getLast?_concat] at hd
    cases hd
    exact absurd hdigit (by decide)
  next =>
    split at h
    next hdecimal =>
      have hdigits := List.all_eq_true.mp hdecimal
      split at h
      next tail =>
        obtain ⟨value, fraction, scale, exponent, rfl, hreal⟩ := realTail_of_readReal h
        refine ⟨c :: (digits ++ '.' :: (fraction ++ scale)), ?_, ?_, ?_⟩
        · simp [hreal.chars]
        · exact .real hdigits hreal.isDigit hreal.isScale hreal.value_eq hreal.isFinite
        · exact runsEnd_numeral hfirst hhex hstop fun _ _ _ => hreal.stop
      next =>
        obtain ⟨value, rfl, hvalue, rfl⟩ := toInt_of_integer h
        refine ⟨c :: digits, rfl, .decimal hdigits hvalue, ?_⟩
        have hruns : RunsEnd (c :: (digits ++ [])) rest := by
          refine runsEnd_numeral hfirst hhex hstop ?_
          intro _ _ _ d hd
          have hclass := hstop d hd
          rw [isHexDigit, Bool.or_eq_false_iff] at hclass
          exact hclass.1
        rwa [List.append_nil] at hruns
    next => cases h

/-! ### How far numerals reach -/

/-- Digits in front of what follows are taken in any case. -/
theorem length_read_le_of_digits {digits : List Char} (hdigits : ∀ d ∈ digits, isHexDigit d = true)
    (h : read c (digits ++ cs) = .ok (t, rest)) : rest.length ≤ cs.length := by
  have hlength := length_read_le_dropWhile h
  rw [List.dropWhile_append_of_pos hdigits] at hlength
  exact Nat.le_trans hlength (length_dropWhile_le isHexDigit cs)

theorem length_readReal_le_of_scale {whole fraction scale : List Char} {exponent : Int}
    (hfraction : ∀ d ∈ fraction, d.isDigit = true) (hscale : IsScale scale exponent)
    (h : readReal whole (fraction ++ (scale ++ cs)) = .ok (t, rest)) : rest.length ≤ cs.length := by
  cases hscale with
  | absent =>
    have hlength := length_readReal_le_dropWhile h
    rw [List.nil_append, List.dropWhile_append_of_pos hfraction] at hlength
    exact Nat.le_trans hlength (length_dropWhile_le Char.isDigit cs)
  | @written sign digits hsign hsome hdigits =>
    have hmark : ∀ d ∈ ('E' :: (sign ++ digits) ++ cs).head?, d.isDigit = false := by
      rintro d ⟨⟩
      decide
    have hdrop := (takeWhile_append_of_stop hfraction hmark).2
    unfold readReal at h
    rw [hdrop] at h
    simp only [List.cons_append, List.append_assoc, takeSign_append hsign hsome hdigits] at h
    split at h
    · cases h
    · rw [rest_of_real h, List.dropWhile_append_of_pos hdigits]
      exact length_dropWhile_le Char.isDigit cs

end Numeral

namespace Scanner

open Oberon.Text

variable {line last : Nat} {c : Char} {cs rest text : List Char} {t : Token}

/-- Every token that is read starts where it is read. -/
theorem starts_of_readToken (h : readToken line c cs = .ok (t, rest)) :
    ∃ text, Starts t text rest (c :: cs) := by
  -- words, numerals, strings and marks, in the order in which they are tried
  unfold readToken at h
  split at h
  next hstart =>
    cases h
    exact starts_word hstart
  next =>
    split at h
    next hdigit =>
      cases hread : Numeral.read c cs with
      | error =>
        rw [hread] at h
        cases h
      | ok result =>
        rw [hread] at h
        cases h
        exact Numeral.starts_of_read hdigit hread
    next =>
      split at h
      next hquote =>
        subst hquote
        exact starts_of_readString h
      next =>
        split at h
        next hmark =>
          cases h
          exact ⟨[c], starts_mark hmark⟩
        next => cases h

/-! ## Tokens reach as far as they can -/

theorem read_of_readToken (hdigit : c.isDigit = true) (h : readToken line c cs = .ok (t, rest)) :
    Numeral.read c cs = .ok (t, rest) := by
  rw [readToken, (not_isIdentifierStart_of_isDigit hdigit).1, hdigit] at h
  cases hread : Numeral.read c cs with
  | error =>
    rw [hread] at h
    cases h
  | ok result =>
    rw [hread] at h
    cases h
    rfl

theorem length_readToken_le_of_word {word more : List Char} (hstart : isIdentifierStart c = true)
    (hparts : ∀ d ∈ word, isIdentifierPart d = true)
    (h : readToken line c (word ++ more) = .ok (t, rest)) : rest.length ≤ more.length := by
  rw [readToken, if_pos hstart] at h
  cases h
  rw [List.dropWhile_append_of_pos hparts]
  exact Numeral.length_dropWhile_le isIdentifierPart more

/-- Whatever token the text can start with, the scanner reads at least as far. -/
theorem Spelling.length_le {other : Token} {more : List Char} (hother : Spelling other text)
    (hchars : text ++ more = c :: cs) (h : readToken line c cs = .ok (t, rest)) :
    rest.length ≤ more.length := by
  cases hother with
  | identifier hname =>
    obtain ⟨first, word, hletters, hstart, hparts⟩ := hname.letters
    rw [hletters, List.cons_append] at hchars
    obtain ⟨rfl, rfl⟩ := List.cons.inj hchars
    exact length_readToken_le_of_word hstart hparts h
  | keyword word =>
    obtain ⟨first, letters, hletters, hstart, hparts⟩ := letters_keyword word
    rw [hletters, List.cons_append] at hchars
    obtain ⟨rfl, rfl⟩ := List.cons.inj hchars
    exact length_readToken_le_of_word hstart hparts h
  | mark symbol =>
    obtain ⟨rfl, rfl⟩ := List.cons.inj hchars
    exact length_readToken_le h
  | string hcontent =>
    rw [List.cons_append] at hchars
    obtain ⟨rfl, rfl⟩ := List.cons.inj hchars
    rw [(readsBefore_string hcontent).reads line] at h
    cases h
    exact Nat.le_refl _
  | decimal hdigits _ =>
    rw [List.cons_append] at hchars
    obtain ⟨rfl, rfl⟩ := List.cons.inj hchars
    -- the reader may go on with a larger base or a fraction, but not stop earlier
    have hread := read_of_readToken (hdigits _ List.mem_cons_self) h
    refine Numeral.length_read_le_of_digits (fun d hd => ?_) hread
    exact Numeral.isHexDigit_of_isDigit (hdigits d (List.mem_cons_of_mem _ hd))
  | hexadecimal hfirst hdigits hvalue =>
    rw [List.cons_append, List.append_assoc, List.singleton_append] at hchars
    obtain ⟨rfl, rfl⟩ := List.cons.inj hchars
    have hread := read_of_readToken hfirst h
    rw [Numeral.read_hexadecimal hdigits (integer_eq_ofNat hvalue).1] at hread
    cases hread
    exact Nat.le_refl _
  | real hwhole hfraction hscale _ _ =>
    rw [List.cons_append, List.append_assoc, List.cons_append, List.append_assoc] at hchars
    obtain ⟨rfl, rfl⟩ := List.cons.inj hchars
    have hread := read_of_readToken (hwhole _ List.mem_cons_self) h
    rw [Numeral.read_point hwhole] at hread
    exact Numeral.length_readReal_le_of_scale hfraction hscale hread

/-- A token in front of `rest` that is as long as it can be. -/
structure Maximal (text rest : List Char) : Prop extends RunsEnd text rest where
  /-- No token is written with more of the text. -/
  longest : ∀ more, more ≠ [] → more <+: rest → ∀ t, ¬ Spelling t (text ++ more)

/-- No longer text would have been a token. -/
theorem maximal_of_readToken (h : readToken line c cs = .ok (t, rest))
    (hstarts : Starts t text rest (c :: cs)) : Maximal text rest where
  toRunsEnd := hstarts.runsEnd
  longest := by
    rintro more hsome ⟨behind, rfl⟩ other hother
    have hchars : text ++ more ++ behind = c :: cs := by
      rw [List.append_assoc]
      exact hstarts.chars.symm
    have hlength := hother.length_le hchars h
    have hpositive := List.length_pos_iff.mpr hsome
    rw [List.length_append] at hlength
    omega

/-! ## Whole texts -/

/-- A text cut into separators and tokens, each token as long as it can be. -/
structure Segmented (cs : List Char) (items : List SpelledToken) (last : List Char) : Prop where
  isLayout : IsLayout last
  chars : cs = items.flatMap SpelledToken.chars ++ last
  maximal : ∀ front item back, items = front ++ item :: back →
    Maximal item.text (back.flatMap SpelledToken.chars ++ last)

/-- A longest token in front continues the segmentation. -/
theorem Segmented.cons {items : List SpelledToken} {last : List Char} (item : SpelledToken)
    (h : Segmented rest items last) (hitem : Maximal item.text rest) :
    Segmented (item.chars ++ rest) (item :: items) last where
  isLayout := h.isLayout
  chars := by rw [List.flatMap_cons, List.append_assoc, ← h.chars]
  maximal := by
    intro front other back hitems
    cases front with
    | nil =>
      obtain ⟨rfl, rfl⟩ := List.cons.inj hitems
      rw [← h.chars]
      exact hitem
    | cons _ front => exact h.maximal front other back (List.cons.inj hitems).2

/-- What is scanned is segmented into longest tokens. -/
theorem segmented_of_tokens {found : List LocatedToken} (h : tokens cs line = .ok (found, last)) :
    ∃ items tail, Segmented cs items tail ∧ found = located line items ∧
      last = line + cs.count '\n' := by
  -- the induction is that of the scanner: layout, a token, and the rest
  fun_induction tokens cs line generalizing found last with
  | case1 => cases h
  | case2 cs line last' hlayout =>
    cases h
    obtain ⟨skipped, rfl, hskipped, rfl⟩ := isLayout_of_skipLayout hlayout
    refine ⟨[], skipped, ⟨hskipped, List.append_nil _, ?_⟩, rfl, ?_⟩
    · intro front item back hitems
      exact absurd hitems.symm (List.append_ne_nil_of_right_ne_nil _ (List.cons_ne_nil _ _))
    · rw [List.append_nil]
  | case3 => cases h
  | case4 => cases h
  | case5 cs line c rest line' hlayout token behind htoken others last' hothers ih =>
    cases h
    obtain ⟨skipped, rfl, hskipped, rfl⟩ := isLayout_of_skipLayout hlayout
    obtain ⟨text, hstarts⟩ := starts_of_readToken htoken
    obtain ⟨items, tail, hsegmented, rfl, rfl⟩ := ih hothers
    have hitem := maximal_of_readToken htoken hstarts
    have hcons := hsegmented.cons ⟨skipped, token, text, hskipped, hstarts.spelling⟩ hitem
    have hchars : skipped ++ text ++ behind = skipped ++ c :: rest := by
      rw [List.append_assoc, ← hstarts.chars]
    refine ⟨_, tail, hchars ▸ hcons, ?_, ?_⟩
    · rw [located_cons]
    · rw [← hchars, List.count_append, List.count_append,
        List.count_eq_zero.mpr hstarts.spelling.newline_not_mem]
      omega

theorem le_line_of_mem_located {items : List SpelledToken} {t : LocatedToken}
    (h : t ∈ located line items) : line ≤ t.line := by
  obtain ⟨i, hi, rfl⟩ := List.mem_mapIdx.mp h
  exact Nat.le_add_right _ _

/-- Later tokens are on later lines or on the same one. -/
theorem pairwise_line_located (line : Nat) (items : List SpelledToken) :
    (located line items).Pairwise fun t u => t.line ≤ u.line := by
  induction items generalizing line with
  | nil => exact .nil
  | cons item items ih =>
    rw [located_cons]
    exact .cons (fun _ hmem => le_line_of_mem_located hmem) (ih _)

/-- Scanning loses and invents nothing: the text is a sequence of separators and of the tokens
that were found, each of them written in full, at its line, and as long as it can be. -/
theorem scan_segments {source : String} {found : List LocatedToken}
    (h : scan source line = .ok (found, last)) :
    (∃ items tail, Segmented source.toList items tail ∧ found = located line items) ∧
      (∀ t ∈ found, t.token ≠ .endOfFile) ∧ found.Pairwise (fun t u => t.line ≤ u.line) ∧
      last = line + source.toList.count '\n' := by
  obtain ⟨items, tail, hsegmented, hfound, hlast⟩ := segmented_of_tokens h
  refine ⟨⟨items, tail, hsegmented, hfound⟩, ?_, ?_, hlast⟩
  · intro t ht
    exact not_endOfFile_of_isLexeme (isLexeme_of_mem_tokens h t ht)
  · rw [hfound]
    exact pairwise_line_located line items

/-- Numerals without anything between them, a comment with brackets that overlap, and brackets
outside of it. -/
def gluedText : String :=
  "0FH12(*)\n*)*)x9"

theorem scan_segments_gluedText :
    ∃ items tail, Segmented gluedText.toList items tail ∧ located 4 items =
      [⟨.integer 15, 4⟩, ⟨.integer 12, 4⟩, ⟨.mark .times, 5⟩, ⟨.mark .rightParen, 5⟩,
        ⟨.identifier "x9", 5⟩] := by
  have h : scan gluedText 4 = .ok ([⟨.integer 15, 4⟩, ⟨.integer 12, 4⟩, ⟨.mark .times, 5⟩,
      ⟨.mark .rightParen, 5⟩, ⟨.identifier "x9", 5⟩], 5) := by decide +kernel
  obtain ⟨items, tail, hsegmented, hfound⟩ := (scan_segments h).1
  exact ⟨items, tail, hsegmented, hfound.symm⟩

end Scanner

end Oberon
