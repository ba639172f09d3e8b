import Oberon.Proofs.Token.Segmentation

/-!
# Places between tokens

A text leads to a place if it consists of blanks, comments and tokens, each token as long as the
scanner goes on with it.  At such a place the scanner starts anew: what it finds there does not
depend on the text in front, apart from the line.
-/

namespace Oberon

namespace Scanner

open Oberon.Text

variable {line last : Nat} {c : Char} {cs front rest text : List Char} {t : Token}

/-- Behind `front` a token or a comment may start, or the text ends, if `rest` follows. -/
inductive Leads (rest : List Char) : List Char → Prop where
  | nil : Leads rest []
  | blank {c : Char} {front : List Char} (h : isBlank c = true) (hfront : Leads rest front) :
    Leads rest (c :: front)
  | comment {comment front : List Char} (h : IsComment comment) (hfront : Leads rest front) :
    Leads rest (comment ++ front)
  | token {t : Token} {text front : List Char} (h : Spelling t text)
    (hstop : Stops text (front ++ rest))
    (hfront : Leads rest front) : Leads rest (text ++ front)

theorem IsLayout.leads (h : IsLayout front) : Leads rest front := by
  induction h with
  | nil => exact .nil
  | blank hblank _ ih => exact .blank hblank ih
  | comment hcomment _ ih => exact .comment hcomment ih

/-- Complete tokens may be followed by more of them. -/
theorem Leads.append {front' : List Char} (h : Leads (front' ++ rest) front)
    (h' : Leads rest front') :
    Leads rest (front ++ front') := by
  induction h with
  | nil => exact h'
  | blank hblank _ ih => exact .blank hblank ih
  | comment hcomment _ ih =>
    rw [List.append_assoc]
    exact .comment hcomment ih
  | token hspelling hstop _ ih =>
    rw [List.append_assoc]
    rw [← List.append_assoc] at hstop
    exact .token hspelling hstop ih

/-- What leads to a place leads to the end of the text that is cut off there. -/
theorem Leads.cut (h : Leads rest front) : Leads [] front := by
  induction h with
  | nil => exact .nil
  | blank hblank _ ih => exact .blank hblank ih
  | comment hcomment _ ih => exact .comment hcomment ih
  | @token t text front hspelling hstop _ ih =>
    refine .token hspelling (fun c hc => ?_) ih
    rw [List.append_nil] at hc
    exact hstop c (List.mem_head?_append_of_mem_head? hc)

/-! ## Scanning on from a place -/

theorem tokens_of_skipLayout {cs' : List Char} {line' : Nat}
    (h : skipLayout cs line = skipLayout cs' line') : tokens cs line = tokens cs' line' := by
  rw [tokens, h]
  exact (tokens.eq_1 cs' line').symm

/-- A complete token in front is found first. -/
theorem tokens_token (h : Spelling t text) (hstop : Stops text rest) :
    tokens (text ++ rest) line =
      (tokens rest line).map fun found => (⟨t, line⟩ :: found.1, found.2) := by
  obtain ⟨c, cs, rfl, hreads⟩ := h.readsBefore hstop
  -- no layout is skipped in front of a token
  have hlayout : skipLayout (c :: (cs ++ rest)) line = .ok (c :: (cs ++ rest), line) :=
    skipLayout_of_not_isBlank hreads.not_blank hreads.not_comment line
  rw [List.cons_append, tokens]
  split
  next hskip =>
    rw [hlayout] at hskip
    cases hskip
  next hskip =>
    rw [hlayout] at hskip
    cases hskip
  next hskip =>
    rw [hlayout] at hskip
    cases hskip
    split
    next hread =>
      rw [hreads.reads] at hread
      cases hread
    next hread =>
      rw [hreads.reads] at hread
      cases hread
      cases tokens rest line <;> rfl

/-- From a place on, the scanner finds what it finds there, on the lines of the place. -/
theorem tokens_of_leads (h : Leads rest front) (line : Nat) :
    ∃ before, tokens (front ++ rest) line =
      (tokens rest (line + front.count '\n')).map fun found => (before ++ found.1, found.2) := by
  induction h generalizing line with
  | nil =>
    refine ⟨[], ?_⟩
    show tokens rest line = (tokens rest line).map fun found => found
    cases tokens rest line <;> rfl
  | @blank c front hblank _ ih =>
    obtain ⟨before, hbefore⟩ := ih (nextLine c line)
    rw [nextLine_add_count] at hbefore
    exact ⟨before, (tokens_of_skipLayout (skipLayout_cons_of_isBlank hblank _ _)).trans hbefore⟩
  | @comment comment front hcomment _ ih =>
    obtain ⟨before, hbefore⟩ := ih (line + comment.count '\n')
    rw [Nat.add_assoc, ← List.count_append] at hbefore
    rw [List.append_assoc]
    exact ⟨before, (tokens_of_skipLayout (skipLayout_comment hcomment)).trans hbefore⟩
  | @token t text front hspelling hstop _ ih =>
    obtain ⟨before, hbefore⟩ := ih line
    refine ⟨⟨t, line⟩ :: before, ?_⟩
    rw [List.append_assoc, tokens_token hspelling hstop, hbefore, List.count_append,
      List.count_eq_zero.mpr hspelling.newline_not_mem, Nat.zero_add]
    cases tokens rest (line + front.count '\n') <;> rfl

/-! ## Tokens that were read -/

/-- What comes behind layout is no layout. -/
theorem isBlank_of_skipLayout (h : skipLayout cs line = .ok (c :: rest, last)) :
    isBlank c = false ∧ (c = '(' → rest.head? ≠ some '*') := by
  fun_induction skipLayout cs line with
  | case1 => cases h
  | case2 => cases h
  | case3 _ _ _ _ _ ih => exact ih h
  | case4 _ _ _ _ _ ih => exact ih h
  | case5 _ d _ hopening hblank =>
    cases h
    refine ⟨Bool.eq_false_iff.mpr hblank, ?_⟩
    rintro rfl hstar
    obtain ⟨tail, rfl⟩ := List.head?_eq_some_iff.mp hstar
    exact hopening tail rfl rfl

theorem head?_of_takeWhile_append {p : Char → Bool} (h : (text ++ rest).takeWhile p = text) :
    ∀ d ∈ rest.head?, p d = false := by
  have hall : ∀ d ∈ text, p d = true := by
    rw [← h]
    exact List.all_eq_true.mp List.all_takeWhile
  rw [List.takeWhile_append_of_pos hall] at h
  have hnone : rest.takeWhile p = [] := List.append_right_eq_self.mp h
  intro d hd
  obtain ⟨tail, rfl⟩ := List.head?_eq_some_iff.mp hd
  rw [Bool.eq_false_iff]
  intro hp
  rw [List.takeWhile_cons_of_pos hp] at hnone
  cases hnone

end Scanner

namespace Numeral

open Scanner

variable {c : Char} {cs rest text : List Char} {t : Token}

/-- An exponent behind the digits would have been read. -/
theorem head?_ne_of_readReal {whole fraction : List Char}
    (hfraction : ∀ d ∈ fraction, d.isDigit = true)
    (h : readReal whole (fraction ++ rest) = .ok (t, rest)) : rest.head? ≠ some 'E' := by
  intro hhead
  obtain ⟨tail, rfl⟩ := List.head?_eq_some_iff.mp hhead
  have hmark : ∀ d ∈ ('E' :: tail).head?, d.isDigit = false := by
    rintro d ⟨⟩
    decide
  obtain ⟨htake, hdrop⟩ := takeWhile_append_of_stop hfraction hmark
  unfold readReal at h
  rw [htake, hdrop] at h
  dsimp only at h
  split at h
  next behind hbehind =>
    obtain rfl := (List.cons.inj hbehind).2
    have hsign := length_takeSign_le tail
    have hdigits := length_dropWhile_le Char.isDigit (takeSign tail).2
    split at h
    · cases h
    · have hlength := congrArg List.length (rest_of_real h)
      rw [List.length_cons] at hlength
      omega
  next hnone => exact absurd rfl (hnone tail)

/-- A numeral is read up to a character that stops it. -/
theorem stops_of_read (hfirst : c.isDigit = true) (h : read c cs = .ok (t, rest))
    (hchars : c :: cs = text ++ rest) : Stops text rest := by
  obtain ⟨digits, behind, rfl, htake, hdrop, -, hstop⟩ := exists_run_append isHexDigit cs
  unfold read at h
  rw [htake, hdrop] at h
  dsimp only at h
  split at h
  next tail =>
    obtain ⟨value, rfl, -, rfl⟩ := toInt_of_integer h
    have htext : text ++ rest = c :: (digits ++ ['H']) ++ rest := by
      rw [← hchars]
      simp
    -- nothing goes on a hexadecimal number behind its `H`
    rw [List.append_cancel_right htext]
    intro d _
    simp [Scanner.goesOn, (not_isIdentifierStart_of_isDigit hfirst).1, hfirst, Numeral.goesOn]
  next hH =>
    split at h
    next hdecimal =>
      have hdigits := List.all_eq_true.mp hdecimal
      split at h
      next tail =>
        obtain ⟨value, fraction, scale, exponent, rfl, hreal⟩ := realTail_of_readReal h
        have htext : text ++ rest = c :: (digits ++ '.' :: (fraction ++ scale)) ++ rest := by
          rw [← hchars, hreal.chars]
          simp
        rw [List.append_cancel_right htext]
        intro d hd
        rw [goesOn_real hdigits hreal.isDigit hreal.isScale, hreal.stop d hd, Bool.false_or,
          Bool.and_eq_false_imp, decide_eq_true_eq, decide_eq_false_iff_not]
        -- only an `E` could go on a real without an exponent, and it would have been read
        rintro rfl rfl
        rw [hreal.chars, List.nil_append] at h
        exact head?_ne_of_readReal hreal.isDigit h hd
      next hpoint =>
        obtain ⟨value, rfl, -, rfl⟩ := toInt_of_integer h
        have htext : text ++ rest = c :: digits ++ rest := hchars.symm
        rw [List.append_cancel_right htext]
        intro d hd
        obtain ⟨tail, rfl⟩ := List.head?_eq_some_iff.mp hd
        -- behind the digits there is neither an `H` nor a point: the reader has looked
        have hnotH : d ≠ 'H' := by
          rintro rfl
          exact hH tail rfl
        have hnotPoint : d ≠ '.' := by
          rintro rfl
          exact hpoint tail rfl
        rw [goesOn_decimal hdigits, hstop d hd]
        simp [hnotH, hnotPoint]
    next => cases h

end Numeral

namespace Scanner

open Oberon.Text

variable {line last : Nat} {c : Char} {cs front rest text : List Char} {t : Token}

/-- A token was read as long as it goes on. -/
theorem stops_of_readToken (h : readToken line c cs = .ok (t, rest))
    (hstarts : Starts t text rest (c :: cs))
    (hcomment : c = '(' → cs.head? ≠ some '*') : Stops text rest := by
  obtain ⟨first, more, rfl, -⟩ := @Spelling.readsBefore [] t text hstarts.spelling nofun
  obtain ⟨rfl, hcs⟩ := List.cons.inj hstarts.chars
  by_cases hstart : isIdentifierStart c = true
  · intro d hd
    rw [goesOn, if_pos hstart]
    exact head?_of_takeWhile_append (hstarts.runsEnd.word c rfl hstart) d hd
  · by_cases hdigit : c.isDigit = true
    · exact Numeral.stops_of_read hdigit (read_of_readToken hdigit h) hstarts.chars
    · intro d hd
      rw [goesOn, if_neg hstart, if_neg hdigit, Bool.and_eq_false_imp, decide_eq_true_eq,
        decide_eq_false_iff_not]
      rintro hparen rfl
      obtain ⟨rfl, rfl⟩ := List.cons.inj hparen
      have hsame : cs = rest := hcs
      exact hcomment rfl (hsame ▸ hd)

end Scanner

end Oberon
