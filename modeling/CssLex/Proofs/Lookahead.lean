import CssLex.Proofs.Alike
import CssLex.Proofs.Literals

/-!
# CssLex — how far a call looks

A call depends on nothing but the policy and the text before it, and of the text it sees no more than three
code points behind what it passes. Most readers see one code point, names two, numbers and identifiers
three, and so a token is decided by three (`sees_readToken`). Two lexers in front of texts that are the same
up to there do the same, wherever they stand and whatever they have recorded (`Lexer.nextToken_local`).
-/

namespace CssLex

/-! ## Names, comments and strings

Each reader is followed by its own recursion, and a test that it makes on the way comes out the same in both
texts as long as it looks no farther than is allowed. An escape inside a name or a string is a reading of its
own, behind which the other goes on. -/

variable {c : Char} {s t : List Char}

/-- Whether digits or a whitespace go on takes one code point to see. -/
theorem sees_readEscape (p : ErrorPolicy) (s : List Char) : Sees p 1 readEscape s := by
  cases s with
  | nil => exact .nil Nat.one_pos _
  | cons c s =>
    intro t ht
    obtain ⟨u, rfl, _⟩ := ht.exists_cons
    by_cases hc : isHexDigit c = true
    · -- the digits are followed by one whitespace at most
      simp only [readEscape, hc, if_true] at ht ⊢
      rw [Reading.reach_of_taking rfl, List.length_append, Nat.add_assoc] at ht
      have hdigits := SameUpTo.takeWhile_take_eq (ht.mono (Nat.add_le_add_left (Nat.le_add_left 1 _) _))
      have hbehind := ht.behind (takeWhile_take_append_drop isHexDigit 6 (c :: s))
        (hdigits ▸ takeWhile_take_append_drop isHexDigit 6 (c :: u))
      rw [hdigits, hbehind.takeWhile_take_eq]
      exact ⟨rfl, fun _ => rfl⟩
    · simp only [readEscape, hc]
      exact ⟨rfl, fun _ => rfl⟩

/-- Whether a name goes on with an escape takes two code points to see. -/
theorem sees_readName (p : ErrorPolicy) (s : List Char) : Sees p 2 readName s := by
  fun_induction readName s with
  | case1 => exact .nil Nat.two_pos _
  | case2 c s hc ih =>
    refine .cons (ih.map (c :: ·)) fun t _ => ?_
    rw [readName, if_pos hc]
  | case3 c s hc hescape _ ih =>
    refine .cons (.bind (g := fun d s => (readName s).map (d :: ·)) readEscape_splits
      ((sees_readEscape p s).mono (by omega)) fun _ => ih.map _) fun t ht => ?_
    -- what is behind the backslash is among what is seen behind the name
    have hsame : startsEscape (c :: t) = startsEscape (c :: s) :=
      (ht.front.mono (by decide)).cons.startsEscape_eq
    rw [readName, if_neg hc, if_pos (hsame.trans hescape)]
    rfl
  | case4 c s hc hescape =>
    intro t ht
    have hstop : startsName (c :: s) = false := by simp [startsName, hc, hescape]
    have hsame := ht.front.startsName_eq
    rw [readName_of_not_startsName hstop, readName_of_not_startsName (hsame.trans hstop)]
    exact ⟨rfl, fun _ => rfl⟩

/-- Whether an asterisk closes the comment takes one code point to see. -/
theorem sees_readCommentBody (p : ErrorPolicy) (s : List Char) : Sees p 1 readCommentBody s := by
  fun_induction readCommentBody s with
  | case1 => exact .nil Nat.one_pos _
  | case2 s => exact .append (w := ['*', '/']) (.idle ['*', '/'] s) fun t _ => rfl
  | case3 c s hopen ih =>
    refine .cons (ih.map (c :: ·)) fun t ht => ?_
    have hhead := ht.head?_eq
    rw [readCommentBody]
    rintro v rfl rfl
    -- the same code point stands behind the asterisk, so the comment would have been closed
    cases s with
    | nil => contradiction
    | cons d s =>
      obtain rfl : d = '/' := by simpa using hhead.symm
      exact hopen s rfl rfl

/-- A string sees one code point: a backslash looks at the next, and the quote needs none. -/
theorem sees_readQuoted (p : ErrorPolicy) (q : Char) (s : List Char) : Sees p 1 (readQuoted q) s := by
  fun_induction readQuoted q s with
  | case1 => exact .nil Nat.one_pos _
  | case2 s => exact .cons (.idle Literal.closed s) fun t _ => readQuoted_close q t
  | case3 s hq =>
    intro t ht
    obtain ⟨u, rfl, _⟩ := ht.exists_cons
    rw [readQuoted_newline hq, readQuoted_newline hq]
    exact ⟨rfl, fun _ => rfl⟩
  -- a backslash at the end of the text; the other text has to end there as well
  | case4 hq =>
    intro t ht
    obtain ⟨u, rfl, hu⟩ := ht.exists_cons
    rw [readQuoted, if_neg hq, if_neg (by decide), if_pos rfl] at hu
    rw [hu.eq_nil]
    exact .refl _
  | case5 s hq _ ih =>
    refine .append (w := ['\\', '\n']) ih fun t _ => ?_
    show readQuoted q ('\\' :: '\n' :: t) = _
    rw [readQuoted, if_neg hq, if_neg (by decide), if_pos rfl, if_pos rfl]
    rfl
  | case6 d s hd escaped hq hline ih =>
    refine .cons (.bind (g := fun e s => (readQuoted q s).map (.push e)) readEscape_splits
      (sees_readEscape p _) fun _ => ih.map _) fun t ht => ?_
    obtain ⟨u, rfl, _⟩ := ht.exists_cons
    rw [readQuoted, if_neg hq, if_neg (by decide), if_pos rfl, if_neg hd]
    rfl
  | case7 c s hq hline hback ih =>
    exact .cons (ih.map (Literal.push c)) fun t _ => readQuoted_plain hq hline hback t

/-! ## Urls

A url looks ahead for escapes and for the end of its whitespace, which is one code point. Only the decision
between a url and a function with a string needs a second. -/

/-- What is skipped is read with the escapes in it, and those look one code point ahead. -/
theorem sees_skipDamagedUrl (p : ErrorPolicy) (s : List Char) : Sees p 1 skipDamagedUrl s := by
  fun_induction skipDamagedUrl s with
  | case1 => exact .nil Nat.one_pos _
  | case2 s =>
    refine .cons (.idle () s) fun t _ => ?_
    rw [skipDamagedUrl, if_pos rfl]
    rfl
  | case3 c s hclose hescape _ ih =>
    refine .cons (.bind (g := fun _ s => skipDamagedUrl s) readEscape_splits (sees_readEscape p s)
      fun _ => ih) fun t ht => ?_
    have hsame : startsEscape (c :: t) = startsEscape (c :: s) := ht.front.cons.startsEscape_eq
    rw [skipDamagedUrl, if_neg hclose, if_pos (hsame.trans hescape)]
    rfl
  | case4 c s hclose hescape ih =>
    refine .cons ih fun t ht => ?_
    have hsame : startsEscape (c :: t) = startsEscape (c :: s) := ht.front.cons.startsEscape_eq
    rw [skipDamagedUrl, if_neg hclose, hsame, if_neg hescape]

/-- What closes a url is seen at the first code point. -/
theorem sees_closeUrl (p : ErrorPolicy) (s : List Char) : Sees p 1 closeUrl s := by
  fun_cases closeUrl s with
  | case1 => exact .nil Nat.one_pos _
  | case2 s => exact .cons (.idle .closed s) fun t _ => rfl
  | case3 s hend hclose =>
    cases s with
    | nil => exact absurd rfl hend
    | cons c s =>
      refine .congr ((sees_skipDamagedUrl p (c :: s)).map fun _ => .damaged) fun t ht => ?_
      obtain ⟨u, rfl, _⟩ := ht.exists_cons
      rw [closeUrl]
      · nofun
      · intro v hv
        rw [(List.cons.inj hv).1] at hclose
        exact hclose s rfl

/-- The whitespace in front of a text. -/
def readSpace (s : List Char) : Reading (List Char) :=
  ⟨s.takeWhile isWhitespace, s.dropWhile isWhitespace, .taking (s.takeWhile isWhitespace)⟩

/-- A reader of whitespace by itself, so that what stands behind it is a second reading. -/
theorem readSpace_splits (s : List Char) : (readSpace s).Splits s :=
  Trace.taken_takeWhile_append isWhitespace s

/-- Whether the whitespace goes on takes one code point to see. -/
theorem sees_readSpace (p : ErrorPolicy) (s : List Char) : Sees p 1 readSpace s := by
  intro t ht
  rw [Reading.reach_of_taking (w := s.takeWhile isWhitespace) rfl] at ht
  rw [readSpace, readSpace, ht.takeWhile_eq]
  exact ⟨rfl, fun _ => rfl⟩

/-- A url looks one code point ahead, at each of its code points. -/
theorem sees_readUrlText (p : ErrorPolicy) (s : List Char) : Sees p 1 readUrlText s := by
  fun_induction readUrlText s with
  | case1 => exact .nil Nat.one_pos _
  | case2 c s hwhite =>
    refine .congr (.bind (g := fun _ s => closeUrl s) readSpace_splits (sees_readSpace p (c :: s))
      fun _ => sees_closeUrl p _) fun t ht => ?_
    obtain ⟨u, rfl, _⟩ := ht.exists_cons
    -- the run begins with the code point at hand
    rw [readUrlText, if_pos hwhite]
    simp [readSpace, hwhite]
  | case3 s hwhite =>
    refine .cons (.idle Literal.closed s) fun t _ => ?_
    rw [readUrlText, if_neg hwhite, if_pos rfl]
    rfl
  -- what damages the url is reported at once, and what is skipped behind it sees as far
  | case4 c s hwhite hclose hunexpected =>
    refine .cons (((sees_skipDamagedUrl p s).map fun _ => Literal.damaged).report
      (.unexpectedInUrl c)) fun t _ => ?_
    rw [readUrlText, if_neg hwhite, if_neg hclose, if_pos hunexpected]
    rfl
  | case5 s escaped hwhite hclose hexpected hescape ih =>
    refine .cons (.bind (g := fun d s => (readUrlText s).map (.push d)) readEscape_splits
      (sees_readEscape p s) fun _ => ih.map _) fun t ht => ?_
    have hsame : startsEscape ('\\' :: t) = startsEscape ('\\' :: s) := ht.front.cons.startsEscape_eq
    rw [readUrlText, if_neg hwhite, if_neg hclose, if_neg hexpected, if_pos rfl,
      if_pos (hsame.trans hescape)]
    rfl
  | case6 s hwhite hclose hexpected hescape =>
    refine .cons (((sees_skipDamagedUrl p s).map fun _ => Literal.damaged).report
      .escapedNewlineInUrl) fun t ht => ?_
    have hsame : startsEscape ('\\' :: t) = startsEscape ('\\' :: s) := ht.front.cons.startsEscape_eq
    rw [readUrlText, if_neg hwhite, if_neg hclose, if_neg hexpected, if_pos rfl, hsame,
      if_neg hescape]
    rfl
  | case7 c s hwhite hclose hexpected hback ih =>
    refine .cons (ih.map (Literal.push c)) fun t _ => ?_
    rw [readUrlText, if_neg hwhite, if_neg hclose, if_neg hexpected, if_neg hback]

/-- The whitespace in front of the url comes before it. -/
theorem sees_readUrl (p : ErrorPolicy) (s : List Char) : Sees p 1 readUrl s :=
  .bind (g := fun _ s => readUrlText s) readSpace_splits (sees_readSpace p s) fun _ =>
    sees_readUrlText p _

/-- Whether a string follows shows in the code point behind the whitespace. -/
theorem SameUpTo.quoteFollows_eq (h : SameUpTo ((s.takeWhile isWhitespace).length + 1) s t) :
    quoteFollows t = quoteFollows s := by
  have hrun := h.takeWhile_eq
  have hbehind := h.behind List.takeWhile_append_dropWhile
    (hrun ▸ List.takeWhile_append_dropWhile)
  rw [quoteFollows, quoteFollows, hbehind.head?_eq]

/-- One code point more than for a url: the last whitespace before a string is left. -/
theorem sees_readUrlArgument (p : ErrorPolicy) (name s : List Char) :
    Sees p 2 (readUrlArgument name) s := by
  by_cases hquote : quoteFollows s = true
  · intro t ht
    simp only [readUrlArgument, hquote, if_true] at ht ⊢
    rw [Reading.reach_of_taking rfl, List.length_dropLast] at ht
    -- all but one of the whitespace is taken, so two code points reach behind it
    have hsame : SameUpTo ((s.takeWhile isWhitespace).length + 1) s t := ht.mono (by omega)
    rw [if_pos (hsame.quoteFollows_eq.trans hquote), hsame.takeWhile_eq]
    exact ⟨rfl, fun _ => rfl⟩
  · refine .congr (f := fun s => (readUrl s).map Literal.urlToken)
      (((sees_readUrl p s).map Literal.urlToken).mono (by omega)) fun t ht => ?_
    -- a url takes the whitespace in front of it
    have hrun : (s.takeWhile isWhitespace).length ≤ (readUrl s).reach p := by
      rw [readUrl, Reading.reach_after (Trace.finishes_taking _ _), Trace.taken_taking]
      exact Nat.le_add_right _ _
    have hsame : SameUpTo ((s.takeWhile isWhitespace).length + 1) s t :=
      ht.mono (Nat.add_le_add hrun (by omega))
    rw [readUrlArgument, hsame.quoteFollows_eq, if_neg hquote]

/-! ## Numbers

The parts of a numeral look ahead one after another: a digit, a point with a digit, and an exponent with a
sign and a digit, which is the farthest. -/

theorem length_signText_le (sign : Option Sign) : (signText sign).length ≤ 1 := by
  cases sign <;> simp [signText]

theorem SameUpTo.readSign_eq (h : SameUpTo 1 s t) : (readSign t).1 = (readSign s).1 := by
  cases s with
  | nil => rw [h.eq_nil]
  | cons c s =>
    obtain ⟨u, rfl, _⟩ := h.exists_cons
    by_cases hplus : c = '+'
    · rw [hplus]
      rfl
    by_cases hminus : c = '-'
    · rw [hminus]
      rfl
    simp [readSign, hplus, hminus]

/-- Behind the sign the texts are the same for as much less. -/
theorem SameUpTo.rest_readSign {n : Nat} (h : SameUpTo ((signText (readSign s).1).length + n) s t)
    (hn : 0 < n) : SameUpTo n (readSign s).2 (readSign t).2 :=
  h.behind (signText_readSign_append s)
    ((h.mono (by omega)).readSign_eq ▸ signText_readSign_append t)

theorem SameUpTo.startsDigit_eq (h : SameUpTo 1 s t) : startsDigit t = startsDigit s := by
  rw [startsDigit, startsDigit, h.head?_eq]

/-- A point belongs to the number if a digit follows, so two code points show where the digits behind it end.
-/
theorem SameUpTo.readFraction_eq
    (h : SameUpTo ((fractionText (readFraction s).1).length + 2) s t) :
    (readFraction t).1 = (readFraction s).1 := by
  cases s with
  | nil => rw [h.eq_nil]
  | cons c s =>
    obtain ⟨u, rfl, hu⟩ := h.exists_cons
    by_cases hc : c = '.'
    · subst hc
      have hdigit := (hu.mono (Nat.le_add_left 1 _)).startsDigit_eq
      simp only [readFraction, hdigit]
      split
      · next hstart =>
        rw [readFraction, if_pos hstart, fractionText, if_neg (by simpa using readDigits_ne_nil hstart)] at hu
        exact SameUpTo.takeWhile_eq (hu.mono (by simp [readDigits]))
      · rfl
    · simp [readFraction, hc]

/-- An exponent needs a digit behind its mark and its sign, so three code points show whether there is one. -/
theorem SameUpTo.readExponent_eq
    (h : SameUpTo ((((readExponent s).1.map Exponent.text).getD []).length + 3) s t) :
    (readExponent t).1 = (readExponent s).1 := by
  cases s with
  | nil => rw [h.eq_nil]
  | cons c s =>
    obtain ⟨u, rfl, hu⟩ := h.exists_cons
    have hsign := (hu.mono (Nat.le_add_left 1 _)).readSign_eq
    have hlength := length_signText_le (readSign s).1
    by_cases hexp : (c = 'e' ∨ c = 'E') ∧ startsDigit (readSign s).2 = true
    · -- the digits are the same, and so is what ends them
      simp only [readExponent, if_pos hexp, Option.map_some, Option.getD_some, Exponent.text,
        List.cons_append, List.length_cons, List.length_append] at hu ⊢
      have hrest : SameUpTo (((readSign s).2.takeWhile Char.isDigit).length + 1) (readSign s).2
          (readSign u).2 := (hu.mono (by simp only [readDigits]; omega)).rest_readSign (by omega)
      rw [hrest.front.startsDigit_eq, if_pos hexp, hsign, readDigits,
        readDigits, hrest.takeWhile_eq]
    · -- a sign at most stands between the mark and what is no digit
      simp only [readExponent, if_neg hexp] at hu ⊢
      have hrest : SameUpTo 1 (readSign s).2 (readSign u).2 :=
        (hu.mono (by omega)).rest_readSign Nat.one_pos
      rw [hrest.startsDigit_eq, if_neg hexp]

/-- A numeral is decided by three code points behind it, which an exponent with a sign may take. -/
theorem SameUpTo.readNumeral_eq (h : SameUpTo ((readNumeral s).1.text.length + 3) s t) :
    (readNumeral t).1 = (readNumeral s).1 := by
  simp only [readNumeral, Numeral.text, List.length_append, Nat.add_assoc] at h ⊢
  -- part for part: what is behind a part is the same up to where the parts behind it see
  have hsign := (h.mono (by omega)).readSign_eq
  have hbehindSign := h.rest_readSign (by omega)
  have hwhole : (readDigits (readSign t).2).1 = (readDigits (readSign s).2).1 :=
    SameUpTo.takeWhile_eq (hbehindSign.mono (by simp only [readDigits]; omega))
  have hbehindWhole := hbehindSign.behind (readDigits_append _) (hwhole ▸ readDigits_append _)
  have hfraction := (hbehindWhole.mono (by omega)).readFraction_eq
  have hbehindFraction := hbehindWhole.behind (fractionText_readFraction_append _)
    (hfraction ▸ fractionText_readFraction_append _)
  rw [hsign, hwhole, hfraction, hbehindFraction.readExponent_eq]

/-- The numeral in front of a text. -/
def numeralReading (s : List Char) : Reading Numeral :=
  ⟨(readNumeral s).1, (readNumeral s).2, .taking (readNumeral s).1.text⟩

/-- A numeral as a reading of its own, which takes what it spells. -/
theorem numeralReading_splits (s : List Char) : (numeralReading s).Splits s := by
  rw [Reading.Splits, numeralReading, Trace.taken_taking, text_readNumeral_append]

/-- A numeral looks as far as its exponent. -/
theorem sees_numeralReading (p : ErrorPolicy) (s : List Char) : Sees p 3 numeralReading s := by
  intro t ht
  rw [Reading.reach_of_taking (w := (readNumeral s).1.text) rfl] at ht
  rw [numeralReading, numeralReading, ht.readNumeral_eq]
  exact ⟨rfl, fun _ => rfl⟩

/-! ## Tokens

The readers are put together to `readToken`. Which of them reads is decided by tests that see three code
points, and those are among what is seen behind the token. -/

/-- What stands behind the digits of a number: a unit, a percent sign or neither. -/
def numericEnding (m : Numeral) (s : List Char) : Reading Token :=
  if startsIdent s then (readName s).map fun unit => .dimension m.toNumeric (.ofList unit)
  else
    match s with
    | '%' :: t => ⟨.percentage m.toNumeric, t, [.take '%']⟩
    | t => ⟨.number m.toNumeric, t, []⟩

theorem numericEnding_of_neither (m : Numeral) (hident : startsIdent s = false)
    (hpercent : s.head? ≠ some '%') : numericEnding m s = ⟨.number m.toNumeric, s, []⟩ := by
  unfold numericEnding
  rw [if_neg (by simp [hident])]
  split
  · simp at hpercent
  · rfl

/-- Behind the digits three code points show whether a unit begins. -/
theorem sees_numericEnding (p : ErrorPolicy) (m : Numeral) (s : List Char) :
    Sees p 3 (numericEnding m) s := by
  by_cases hident : startsIdent s = true
  · refine .congr (f := fun s => (readName s).map fun unit => .dimension m.toNumeric (.ofList unit))
      (((sees_readName p s).map _).mono (by omega)) fun t ht => ?_
    unfold numericEnding
    rw [ht.front.startsIdent_eq, if_pos hident]
  rw [Bool.not_eq_true] at hident
  by_cases hpercent : s.head? = some '%'
  · obtain ⟨s, rfl⟩ := List.head?_eq_some_iff.1 hpercent
    exact .cons (.idle (.percentage m.toNumeric) s) fun t _ => rfl
  · refine .congr (.idle (.number m.toNumeric) s) fun t ht => ?_
    have hhead := ht.head?_eq
    exact numericEnding_of_neither m (ht.front.startsIdent_eq.trans hident)
      (hhead ▸ hpercent)

theorem sees_readNumeric (p : ErrorPolicy) (s : List Char) : Sees p 3 readNumeric s :=
  .congr (.bind (g := numericEnding) numeralReading_splits (sees_numeralReading p s)
    fun _ => sees_numericEnding p _ _) fun _ _ => rfl

/-- What stands behind an identifier: the opening of a function or a url, or neither. -/
def identEnding (name s : List Char) : Reading Token :=
  match s with
  | '(' :: t =>
    if isUrlName name then (readUrlArgument name t).after [.take '(']
    else ⟨.function (.ofList name), t, [.take '(']⟩
  | t => ⟨.ident (.ofList name), t, []⟩

/-- Behind a name the parenthesis shows at once, and what it opens sees two code points. -/
theorem sees_identEnding (p : ErrorPolicy) (name s : List Char) : Sees p 2 (identEnding name) s := by
  by_cases hparen : s.head? = some '('
  · obtain ⟨s, rfl⟩ := List.head?_eq_some_iff.1 hparen
    by_cases hurl : isUrlName name = true
    · exact .cons (sees_readUrlArgument p name s) fun t _ => if_pos hurl
    · refine .cons (.idle (Token.function (.ofList name)) s) fun t _ => ?_
      rw [identEnding, if_neg hurl]
      rfl
  · refine .congr (.idle (.ident (.ofList name)) s) fun t ht => ?_
    have hhead := ht.head?_eq
    unfold identEnding
    split
    · exact absurd hhead.symm hparen
    · rfl

theorem sees_readIdentLike (p : ErrorPolicy) (s : List Char) : Sees p 2 readIdentLike s :=
  .congr (.bind (g := identEnding) readName_splits (sees_readName p s)
    fun _ => sees_identEnding p _ _) fun _ _ => rfl

/-- A hash looks for a name, and for an identifier to tell its kind. -/
theorem sees_readHash (p : ErrorPolicy) (s : List Char) : Sees p 3 readHash s := by
  by_cases hname : startsName s = true
  · refine .congr (((sees_readName p s).map fun name =>
      .hash (if startsIdent s then HashKind.id else .unrestricted) (.ofList name)).mono (by omega))
      fun t ht => ?_
    have hsame := ht.front
    rw [readHash, if_pos ((hsame.mono (by omega)).startsName_eq.trans hname), hsame.startsIdent_eq]
  · refine .congr (.idle (.delim '#') s) fun t ht => ?_
    rw [readHash, (ht.front.mono (by decide)).startsName_eq, if_neg hname]

/-- An at-keyword looks for an identifier. -/
theorem sees_readAtKeyword (p : ErrorPolicy) (s : List Char) : Sees p 3 readAtKeyword s := by
  by_cases hident : startsIdent s = true
  · refine .congr (((sees_readName p s).map fun name => .atKeyword (.ofList name)).mono (by omega))
      fun t ht => ?_
    rw [readAtKeyword, if_pos (ht.front.startsIdent_eq.trans hident)]
  · refine .congr (.idle (.delim '@') s) fun t ht => ?_
    rw [readAtKeyword, ht.front.startsIdent_eq, if_neg hident]

/-- What is read of a mark that begins nothing longer. -/
theorem readMark_of_single (hback : c ≠ '\\') (hquote : c ≠ '"' ∧ c ≠ '\'') (hname : c ≠ '#' ∧ c ≠ '@')
    (hcdo : c = '<' → ¬ ['!', '-', '-'] <+: s) (hcdc : c = '-' → ¬ ['-', '>'] <+: s) :
    readMark c s = ⟨((Punctuation.ofChar? c).map Token.punctuation).getD (.delim c), s, []⟩ := by
  unfold readMark
  split
  · exact absurd rfl hback
  · exact absurd rfl hquote.1
  · exact absurd rfl hquote.2
  · exact absurd rfl hname.1
  · exact absurd rfl hname.2
  · exact absurd ⟨_, rfl⟩ (hcdo rfl)
  · exact absurd ⟨_, rfl⟩ (hcdc rfl)
  · split
    · next h => rw [h]; rfl
    · next h => rw [h]; rfl

/-- A mark is decided by at most three code points behind it, those of `<!--`. -/
theorem sees_readMark (p : ErrorPolicy) (c : Char) (s : List Char) : Sees p 3 (readMark c) s := by
  by_cases hback : c = '\\'
  · subst hback
    exact (Sees.idle (Token.delim '\\') s).report .escapedNewline
  by_cases hdouble : c = '"'
  · subst hdouble
    exact ((sees_readQuoted p '"' s).map Literal.stringToken).mono (by omega)
  by_cases hsingle : c = '\''
  · subst hsingle
    exact ((sees_readQuoted p '\'' s).map Literal.stringToken).mono (by omega)
  by_cases hhash : c = '#'
  · subst hhash
    exact sees_readHash p s
  by_cases hkeyword : c = '@'
  · subst hkeyword
    exact sees_readAtKeyword p s
  by_cases hcdo : c = '<' ∧ ['!', '-', '-'] <+: s
  · obtain ⟨rfl, s, rfl⟩ := hcdo
    exact .append (w := ['!', '-', '-']) (.idle .cdo s) fun t _ => rfl
  by_cases hcdc : c = '-' ∧ ['-', '>'] <+: s
  · obtain ⟨rfl, s, rfl⟩ := hcdc
    exact .append (w := ['-', '>']) (.idle .cdc s) fun t _ => rfl
  -- no longer mark begins here, and so none does in the other text
  · refine .congr (.idle (((Punctuation.ofChar? c).map Token.punctuation).getD (.delim c)) s)
      fun t ht => ?_
    have hsame := ht.front
    refine readMark_of_single hback ⟨hdouble, hsingle⟩ ⟨hhash, hkeyword⟩ ?_ ?_
    · intro hc hopens
      exact hcdo ⟨hc, (SameUpTo.isPrefix_iff (w := ['!', '-', '-']) hsame).1 hopens⟩
    · intro hc hcloses
      exact hcdc ⟨hc, (SameUpTo.isPrefix_iff (hsame.mono (by decide))).1 hcloses⟩

/-- **A token is decided by three code points behind what is taken.** -/
theorem sees_readToken (p : ErrorPolicy) (s : List Char) : Sees p 3 readToken s := by
  by_cases hcomment : startsComment s = true
  · obtain ⟨s, rfl⟩ := startsComment_iff.1 hcomment
    exact .append (w := ['/', '*']) (((sees_readCommentBody p s).mono (by omega)).map
      fun body => .comment (.ofList ('/' :: '*' :: body))) fun t _ => rfl
  cases s with
  | nil => exact .nil (by decide) _
  | cons c s =>
    by_cases hwhite : isWhitespace c = true
    · refine .congr (((sees_readSpace p (c :: s)).mono (by omega)).map
        fun run => .whitespace (.ofList run)) fun t ht => ?_
      have hsame := (ht.front.mono (by decide)).startsComment_eq
      obtain ⟨u, rfl, _⟩ := ht.exists_cons
      rw [readToken, hsame, if_neg hcomment, if_pos hwhite]
      rfl
    by_cases hnumber : startsNumber (c :: s) = true
    · exact .congr (sees_readNumeric p (c :: s)) fun t ht =>
        readToken_of_startsNumber (ht.front.startsNumber_eq.trans hnumber)
    by_cases hident : startsIdent (c :: s) = true
    · exact .congr ((sees_readIdentLike p (c :: s)).mono (by omega)) fun t ht =>
        readToken_of_startsIdent (ht.front.startsIdent_eq.trans hident)
    · -- what the code point does not begin it does not begin in the other text either
      refine .cons (sees_readMark p c s) fun t ht => ?_
      have hsame : SameUpTo 3 (c :: s) (c :: t) := (ht.mono (by omega : 2 ≤ _)).cons
      refine readToken_mark ?_ (by simpa using hwhite) ?_ ?_
      · rw [(hsame.mono (by decide)).startsComment_eq]
        simpa using hcomment
      · rw [hsame.startsNumber_eq]
        simpa using hnumber
      · rw [hsame.startsIdent_eq]
        simpa using hident

/-! ## Calls

What a reader sees becomes what a call sees. Of two lexers the places and the recorded errors may differ, so
errors are compared by their kinds and by how much was passed before them. -/

namespace Trace

/-- The errors of a trace, each with how many code points are taken before it. -/
def reports : Trace → List (Nat × ErrorKind)
  | [] => []
  | .take _ :: t => (reports t).map fun r => (r.1 + 1, r.2)
  | .report kind :: t => (0, kind) :: reports t

/-- An error is reported after no more than all that is taken. -/
theorem le_length_taken_of_mem_reports {t : Trace} {r : Nat × ErrorKind} (h : r ∈ reports t) :
    r.1 ≤ (taken t).length := by
  induction t generalizing r with
  | nil => simp [reports] at h
  | cons e t ih =>
    cases e with
    | take c =>
      obtain ⟨r', hr', rfl⟩ := List.mem_map.1 h
      exact Nat.succ_le_succ (ih hr')
    | report kind =>
      rcases List.mem_cons.1 h with rfl | h
      · exact Nat.zero_le _
      · exact ih h

end Trace

namespace Cursor

/-- The error that is recorded when so many code points have been passed. -/
def errorAt (c : Cursor) (r : Nat × ErrorKind) : ParseError :=
  (c.advance r.1).errorHere r.2

/-- What is recorded of a trace under a policy. -/
def recorded : ErrorPolicy → Trace → List (Nat × ErrorKind)
  | .strict, _ => []
  | .lenient, t => t.reports

/-- The same of what a policy lets be recorded. -/
theorem le_length_taken_of_mem_recorded {p : ErrorPolicy} {t : Trace} {r : Nat × ErrorKind}
    (h : r ∈ recorded p t) : r.1 ≤ (Trace.taken t).length := by
  cases p with
  | strict => simp [recorded] at h
  | lenient => exact Trace.le_length_taken_of_mem_reports h

/-- What a trace adds to the record, under either policy. The places are those that the cursor comes to. -/
theorem errors_play (c : Cursor) (t : Trace) :
    (c.play t).2.errors.toList = c.errors.toList ++ (recorded c.policy t).map c.errorAt := by
  cases hp : c.policy with
  | strict => rw [errors_play_strict hp, recorded, List.map_nil, List.append_nil]
  | lenient =>
    show _ = c.errors.toList ++ t.reports.map c.errorAt
    induction t generalizing c with
    | nil => simp [Trace.reports]
    | cons e t ih =>
      cases e with
      | take x =>
        -- one code point more has been passed
        have hshift : (fun r => c.errorAt (r.1 + 1, r.2)) = (c.advance 1).errorAt := by
          funext r
          rw [errorAt, errorAt, Nat.add_comm, advance_add]
        rw [play_take, ih (c.advance 1) hp, Trace.reports, List.map_map, ← hshift]
        rfl
      | report kind =>
        have hlater := ih { c with errors := c.errors.push (c.errorHere kind) } hp
        rw [play_report_lenient hp, hlater, Array.toList_push, List.append_assoc, Trace.reports,
          List.map_cons, errorAt, advance_zero]
        rfl

/-- Which error is the answer, if any, is a matter of the policy and the trace. -/
theorem kind_play_eq {c d : Cursor} (h : d.policy = c.policy) (t : Trace) :
    (d.play t).1.mapError (·.kind) = (c.play t).1.mapError (·.kind) := by
  cases hp : c.policy with
  | lenient => rw [(play_lenient hp t).1, (play_lenient (h.trans hp) t).1]
  | strict =>
    rcases Trace.taking_or_report t with ht | ⟨w, kind, u, ht⟩
    · rw [ht, play_taking_only, play_taking_only]
    · have hc : (c.advance w.length).policy = .strict := hp
      have hd : (d.advance w.length).policy = .strict := h.trans hp
      rw [ht, play_taking, play_taking, play_report_strict hc, play_report_strict hd]
      rfl

/-- Readings that are alike have the same answer, or errors of the same kind. -/
theorem kind_run_eq {α : Type} {c d : Cursor} {read : List Char → Reading α} (h : d.policy = c.policy)
    (halike : Alike c.policy (read c.rest) (read d.rest)) :
    (d.run read).1.mapError (·.kind) = (c.run read).1.mapError (·.kind) := by
  have hplay : d.play (read d.rest).trace = d.play (read c.rest).trace := by
    rw [← play_followed, ← play_followed d (read c.rest).trace, h, halike.followed]
  have hkind := kind_play_eq h (read c.rest).trace
  simp only [run, hplay]
  -- either neither answer is an error, and the values are the same, or both are
  cases hc : (c.play (read c.rest).trace).1 with
  | ok u =>
    rw [halike.value ((c.play_eq_ok_iff _).1 hc)]
    cases hd : (d.play (read c.rest).trace).1 with
    | ok u => rfl
    | error e =>
      rw [hc, hd] at hkind
      injection hkind
  | error e =>
    cases hd : (d.play (read c.rest).trace).1 with
    | ok u =>
      rw [hc, hd] at hkind
      injection hkind
    | error e' =>
      rw [hc, hd] at hkind
      injection hkind with hsame
      exact congrArg Except.error hsame

end Cursor

namespace Lexer

/-- What a call adds to the record are the errors among its events. -/
theorem errors_nextToken (l : Lexer) :
    l.nextToken.2.errors.toList =
      l.errors.toList ++ (Cursor.recorded l.cursor.policy l.events).map l.cursor.errorAt := by
  have hplay : (l.cursor.play l.events).2 = l.nextToken.2.cursor := by
    rw [events, Cursor.play_followed]
    rfl
  have herrors := l.cursor.errors_play l.events
  rwa [hplay] at herrors

/-- **A call sees three code points behind what it passes.** Two lexers of one policy stand in front of
texts that are the same up to there, at any places and with any errors recorded. Then the second call
passes as many code points as the first, gives the same token or an error of the same kind, and records
the same errors in the same order, each after as many code points. -/
theorem nextToken_local {l m : Lexer} {n : Nat} (hpolicy : m.cursor.policy = l.cursor.policy)
    (hpassed : l.nextToken.2.cursor.position = l.cursor.position + n)
    (hsame : m.cursor.rest.take (n + 3) = l.cursor.rest.take (n + 3)) :
    m.nextToken.2.cursor.position = m.cursor.position + n ∧
      m.nextToken.2.cursor.rest = m.cursor.rest.drop n ∧
      m.nextToken.1.mapError (·.kind) = l.nextToken.1.mapError (·.kind) ∧
      ∃ reports : List (Nat × ErrorKind), (∀ r ∈ reports, r.1 ≤ n) ∧
        l.nextToken.2.errors.toList = l.errors.toList ++ reports.map l.cursor.errorAt ∧
        m.nextToken.2.errors.toList = m.errors.toList ++ reports.map m.cursor.errorAt := by
  have hn : (Trace.taken l.events).length = n :=
    Nat.add_left_cancel ((position_nextToken l).symm.trans hpassed)
  have halike : Alike l.cursor.policy (readToken l.cursor.rest) (readToken m.cursor.rest) := by
    refine sees_readToken _ _ _ ?_
    show SameUpTo ((Trace.taken l.events).length + 3) _ _
    rw [hn]
    exact hsame.symm
  -- from here on everything is told by the events, and these are the same
  have hevents : m.events = l.events := by
    rw [events, hpolicy, halike.followed]
    rfl
  refine ⟨?_, ?_, Cursor.kind_run_eq hpolicy halike, Cursor.recorded l.cursor.policy l.events, ?_,
    l.errors_nextToken, ?_⟩
  · rw [position_nextToken, hevents, hn]
  · rw [rest_nextToken, passed_eq, hevents, hn]
  · intro r hr
    rw [← hn]
    exact Cursor.le_length_taken_of_mem_recorded hr
  · rw [errors_nextToken, hevents, hpolicy]

/-- A string that a newline cuts off is seen to be so by the newline, which is left. -/
theorem nextToken_local_of_newline :
    let l := ofCursor (.ofText "\"ab\nc=1" .lenient)
    let m : Lexer := ⟨⟨"\"ab\nc=2;".toList, 7, ⟨3, 4⟩, .lenient, #[⟨.unclosedUrl, ⟨2, 0⟩⟩]⟩, true⟩
    l.nextToken.2.cursor.position = l.cursor.position + 3 ∧
      m.cursor.rest.take 6 = l.cursor.rest.take 6 ∧
      m.nextToken.2.cursor.position = m.cursor.position + 3 ∧
      m.nextToken.1.mapError (·.kind) = l.nextToken.1.mapError (·.kind) := by
  intro l m
  have hpassed : l.nextToken.2.cursor.position = l.cursor.position + 3 := by decide +kernel
  have hsame : m.cursor.rest.take 6 = l.cursor.rest.take 6 := by decide +kernel
  obtain ⟨hposition, _, hkind, _⟩ := nextToken_local (l := l) (m := m) rfl hpassed hsame
  exact ⟨hpassed, hsame, hposition, hkind⟩

/-- Two code points would not be enough: of `<!-x` the `<` is passed, and all of `<!--`. -/
example : ["<!-x", "<!--"].map (fun text => (ofCursor (.ofText text .strict)).passed.length) = [1, 4] := by
  decide +kernel

end Lexer

end CssLex
