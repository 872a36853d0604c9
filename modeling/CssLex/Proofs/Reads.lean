import CssLex.Token.Read

/-!
# CssLex — everything that a token can be

`readToken` decides between its readers one after another. `Reads s r` lists the outcomes side by side,
each with what has to hold of the text `s` for it, so that no proof has to walk the decisions again. The
list is complete (`reads_readToken`), and each outcome excludes the others (`Reads.readToken_eq`): it
serves to find out what was read as well as to show what will be.
-/

namespace CssLex

/-! ## What the beginnings exclude

The conditions under which a number, an escape or a name begins are programs over the first few code points.
Here each is said as a proposition about them, from which it is seen that no two hold at once. -/

/-- A number begins with a digit behind its sign, or with a point and a digit. -/
theorem startsNumber_iff {s : List Char} :
    startsNumber s = true ↔ startsDigit (readSign s).2 = true ∨
      ∃ t, (readSign s).2 = '.' :: t ∧ startsDigit t = true := by
  unfold startsNumber
  split
  · next t ht => simp [ht, startsDigit]
  · next h => simp_all

/-- The same by the first code point, as `readToken` meets it. -/
theorem startsNumber_cons_iff {c : Char} {s : List Char} :
    startsNumber (c :: s) = true ↔
      c.isDigit = true ∨ (c = '.' ∧ startsDigit s = true) ∨
        ((c = '+' ∨ c = '-') ∧
          (startsDigit s = true ∨ ∃ t, s = '.' :: t ∧ startsDigit t = true)) := by
  rw [startsNumber_iff]
  -- what `readSign` leaves depends on whether a sign stands in front
  by_cases hplus : c = '+'
  · subst hplus
    simp [readSign, show '+'.isDigit = false by decide]
  by_cases hminus : c = '-'
  · subst hminus
    simp [readSign, show '-'.isDigit = false by decide]
  have hplain : (readSign (c :: s)).2 = c :: s := by
    simp [readSign, hplus, hminus]
  rw [hplain]
  by_cases hc : c = '.'
  · subst hc
    simp [startsDigit]
  · simp [startsDigit, hplus, hminus, hc]

/-- A backslash begins an escape unless a newline is behind it. At the end of the text it does begin one. -/
theorem startsEscape_iff {s : List Char} :
    startsEscape s = true ↔ ∃ t, s = '\\' :: t ∧ t.head? ≠ some '\n' := by
  unfold startsEscape
  split
  · next t => simp
  · next h => exact iff_of_false (by decide) fun ⟨t, ht, _⟩ => h t ht

/-- How a name begins, by its first code point. Behind a hyphen another one will do, unless the two are of a
CDC. -/
theorem startsIdent_cons_iff {c : Char} {s : List Char} :
    startsIdent (c :: s) = true ↔
      isNameStart c = true ∨ startsEscape (c :: s) = true ∨
        (c = '-' ∧ (s.head?.any isNameStart = true ∨ startsEscape s = true ∨
          ∃ t, s = '-' :: t ∧ t.head? ≠ some '>')) := by
  have hhyphen : isNameStart '-' = false := by decide
  by_cases hc : c = '-'
  · subst hc
    cases s with
    | nil => simp [startsIdent, startsEscape, hhyphen]
    | cons d t =>
      by_cases hd : d = '-'
      · subst hd
        simp [startsIdent, startsEscape, hhyphen]
      · simp [startsIdent, startsEscape, hhyphen, hd]
  · simp [startsIdent, hc]

/-- The letters as numbers, where `omega` can compare them with the digits. -/
theorem isAlpha_iff {c : Char} : c.isAlpha = true ↔
    (65 ≤ c.toNat ∧ c.toNat ≤ 90) ∨ (97 ≤ c.toNat ∧ c.toNat ≤ 122) := by
  show (decide (65 ≤ c.toNat ∧ c.toNat ≤ 90) ||
    (decide (97 ≤ c.toNat) && decide (c.toNat ≤ 122))) = true ↔ _
  simp only [Bool.or_eq_true, Bool.and_eq_true, decide_eq_true_eq]

/-- No digit begins a name, which is why numbers and names do not begin alike. -/
theorem isNameStart_of_isDigit {c : Char} (h : c.isDigit = true) : isNameStart c = false := by
  have hrange : 48 ≤ c.toNat ∧ c.toNat ≤ 57 := Char.isDigit_iff_toNat.1 h
  have halpha : c.isAlpha = false := by
    rw [Bool.eq_false_iff, ne_eq, isAlpha_iff]
    omega
  have hascii : isNonAscii c = false := by
    show decide (128 ≤ c.toNat) = false
    rw [decide_eq_false_iff_not]
    omega
  have hline : c ≠ '_' := by
    rintro rfl
    exact absurd hrange (by decide)
  simp [isNameStart, halpha, hascii, hline]

/-- No identifier begins where a number does. -/
theorem startsIdent_of_startsNumber {s : List Char} (h : startsNumber s = true) :
    startsIdent s = false := by
  cases s with
  | nil => rfl
  | cons c s =>
    refine Bool.eq_false_iff.2 fun hident => ?_
    rw [startsNumber_cons_iff] at h
    rw [startsIdent_cons_iff] at hident
    -- a digit, a point or a sign: none begins a name, but a hyphen may have one behind it
    rcases h with hdigit | ⟨rfl, _⟩ | ⟨hsign, hdigits⟩
    · have hname := isNameStart_of_isDigit hdigit
      have hhyphen : c ≠ '-' := by
        rintro rfl
        simp at hdigit
      have hback : c ≠ '\\' := by
        rintro rfl
        simp at hdigit
      simp [hname, hhyphen, startsEscape, hback] at hident
    · simp [startsEscape, show isNameStart '.' = false by decide] at hident
    · have hhead : ∃ d t, s = d :: t ∧ (d.isDigit = true ∨ d = '.') := by
        rcases hdigits with hdigit | ⟨t, rfl, _⟩
        · cases s with
          | nil => simp [startsDigit] at hdigit
          | cons d t => exact ⟨d, t, rfl, Or.inl (by simpa [startsDigit] using hdigit)⟩
        · exact ⟨'.', t, rfl, Or.inr rfl⟩
      obtain ⟨d, t, rfl, hd⟩ := hhead
      have hname : isNameStart d = false := by
        rcases hd with hd | rfl
        · exact isNameStart_of_isDigit hd
        · decide
      have hback : d ≠ '\\' := by
        rintro rfl
        simp at hd
      have hhyphen : d ≠ '-' := by
        rintro rfl
        simp at hd
      rcases hsign with rfl | rfl
      · simp [startsEscape, show isNameStart '+' = false by decide] at hident
      · simp [startsEscape, hname, hback, hhyphen, show isNameStart '-' = false by decide] at hident

/-! ## How far the beginnings look

Whether a name or a number begins is decided by three code points, for an escape by two. Readers that look no
further cannot tell two texts apart that agree so far. -/

/-- The same as an equation, by which the beginnings of texts that share their first two code points are
compared. -/
theorem startsEscape_cons (c : Char) (s : List Char) :
    startsEscape (c :: s) = (c == '\\' && s.head? != some '\n') := by
  by_cases hc : c = '\\'
  · rw [hc]
    rfl
  · simp [startsEscape, hc]

theorem startsEscape_take (s : List Char) : startsEscape (s.take 2) = startsEscape s := by
  match s with
  | [] => rfl
  | [_] => rfl
  | c :: d :: s => simp only [List.take_succ_cons, startsEscape_cons, List.head?_cons]

/-- Three code points decide whether an identifier begins. -/
theorem startsIdent_take (s : List Char) : startsIdent (s.take 3) = startsIdent s := by
  match s with
  | [] => rfl
  | [_] => rfl
  | [_, _] => rfl
  | c :: d :: e :: s =>
    show startsIdent [c, d, e] = startsIdent (c :: d :: e :: s)
    by_cases hc : c = '-'
    · subst hc
      by_cases hd : d = '-'
      · subst hd
        rfl
      · simp [startsIdent, hd, startsEscape_cons]
    · simp [startsIdent, hc, startsEscape_cons]

/-- Three code points decide whether a number begins. -/
theorem startsNumber_take (s : List Char) : startsNumber (s.take 3) = startsNumber s := by
  match s with
  | [] => rfl
  | [_] => rfl
  | [_, _] => rfl
  | c :: d :: e :: s =>
    show startsNumber [c, d, e] = startsNumber (c :: d :: e :: s)
    rw [Bool.eq_iff_iff, startsNumber_cons_iff, startsNumber_cons_iff]
    by_cases hd : d = '.'
    · subst hd
      simp [startsDigit]
    · simp [startsDigit, hd]

/-- What is left behind a run does not go on with it. -/
theorem head?_dropWhile (p : Char → Bool) (s : List Char) :
    (s.dropWhile p).head?.any p = false := by
  have hnot := List.head?_dropWhile_not p s
  cases hdrop : s.dropWhile p with
  | nil => rfl
  | cons d t => simpa [hdrop] using hnot

/-- A run of a class ends where the class does. -/
theorem takeWhile_append_stop {p : Char → Bool} {s r : List Char} (hs : ∀ c ∈ s, p c = true)
    (hr : r.head?.any p = false) :
    (s ++ r).takeWhile p = s ∧ (s ++ r).dropWhile p = r := by
  have hstop : r.takeWhile p = [] ∧ r.dropWhile p = r := by
    cases r with
    | nil => exact ⟨rfl, rfl⟩
    | cons c r =>
      have hc : p c = false := by simpa using hr
      simp [hc]
  rw [List.takeWhile_append_of_pos hs, List.dropWhile_append_of_pos hs, hstop.1, hstop.2,
    List.append_nil]
  exact ⟨rfl, rfl⟩

/-! ## The outcomes

There is one constructor of `Reads` for each way through `readToken`, and each holds the whole reading: the
token, what is left and the trace. `IsDelim` is what remains when no other one applies. -/

/-- The code point makes no token with what follows it. -/
structure IsDelim (c : Char) (s : List Char) : Prop where
  comment : startsComment (c :: s) = false
  white : isWhitespace c = false
  number : startsNumber (c :: s) = false
  ident : startsIdent (c :: s) = false
  back : c ≠ '\\'
  quote : c ≠ '"' ∧ c ≠ '\''
  hash : c = '#' → startsName s = false
  keyword : c = '@' → startsIdent s = false
  cdo : c = '<' → ¬ ['!', '-', '-'] <+: s
  cdc : c = '-' → ¬ ['-', '>'] <+: s
  mark : Punctuation.ofChar? c = none

/-- The reading is the one of the first token of the text. -/
inductive Reads : List Char → Reading Token → Prop where
  | comment {s : List Char} (h : startsComment s = true) :
      Reads s ((readComment s).map fun text => .comment (.ofList text))
  | whitespace {c : Char} {s : List Char} (h : isWhitespace c = true) :
      Reads (c :: s) (readWhitespace (c :: s))
  | dimension {s r : List Char} {m : Numeral} (h : startsNumber s = true)
      (hm : readNumeral s = (m, r)) (hr : startsIdent r = true) :
      Reads s (((readName r).map fun unit => .dimension m.toNumeric (.ofList unit)).after
        (.taking m.text))
  | percentage {s r : List Char} {m : Numeral} (h : startsNumber s = true)
      (hm : readNumeral s = (m, '%' :: r)) :
      Reads s ⟨.percentage m.toNumeric, r, .taking (m.text ++ ['%'])⟩
  | number {s r : List Char} {m : Numeral} (h : startsNumber s = true)
      (hm : readNumeral s = (m, r)) (hr : startsIdent r = false) (hp : r.head? ≠ some '%') :
      Reads s ⟨.number m.toNumeric, r, .taking m.text⟩
  | ident {s n r : List Char} {t : Trace} (h : startsIdent s = true)
      (hn : readName s = ⟨n, r, t⟩) (hr : r.head? ≠ some '(') :
      Reads s ⟨.ident (.ofList n), r, t⟩
  | function {s n r : List Char} {t : Trace} (h : startsIdent s = true)
      (hn : readName s = ⟨n, '(' :: r, t⟩) (hu : isUrlName n = false) :
      Reads s ⟨.function (.ofList n), r, t ++ [.take '(']⟩
  | urlFunction {s n r : List Char} {t : Trace} (h : startsIdent s = true)
      (hn : readName s = ⟨n, '(' :: r, t⟩) (hu : isUrlName n = true)
      (hq : quoteFollows r = true) :
      Reads s ⟨.function (.ofList n), r.drop (r.takeWhile isWhitespace).dropLast.length,
        t ++ .take '(' :: Trace.taking (r.takeWhile isWhitespace).dropLast⟩
  | url {s n r : List Char} {t : Trace} (h : startsIdent s = true)
      (hn : readName s = ⟨n, '(' :: r, t⟩) (hu : isUrlName n = true)
      (hq : quoteFollows r = false) :
      Reads s (((readUrl r).map Literal.urlToken).after (t ++ [.take '(']))
  | strayBackslash {s : List Char} :
      Reads ('\\' :: '\n' :: s)
        ⟨.delim '\\', '\n' :: s, [.take '\\', .report .escapedNewline]⟩
  | string {q : Char} {s : List Char} (hq : q = '"' ∨ q = '\'') :
      Reads (q :: s) (((readQuoted q s).map Literal.stringToken).after [.take q])
  | hash {s : List Char} (h : startsName s = true) :
      Reads ('#' :: s) (((readName s).map fun name =>
        .hash (if startsIdent s then .id else .unrestricted) (.ofList name)).after [.take '#'])
  | atKeyword {s : List Char} (h : startsIdent s = true) :
      Reads ('@' :: s) (((readName s).map fun name => .atKeyword (.ofList name)).after [.take '@'])
  | cdo {s : List Char} :
      Reads ('<' :: '!' :: '-' :: '-' :: s) ⟨.cdo, s, .taking ['<', '!', '-', '-']⟩
  | cdc {s : List Char} : Reads ('-' :: '-' :: '>' :: s) ⟨.cdc, s, .taking ['-', '-', '>']⟩
  | punctuation {p : Punctuation} {s : List Char} :
      Reads (p.char :: s) ⟨.punctuation p, s, [.take p.char]⟩
  | delim {c : Char} {s : List Char} (h : IsDelim c s) : Reads (c :: s) ⟨.delim c, s, [.take c]⟩

/-- A quoted text makes one of two tokens, which hold the same text. -/
theorem stringToken_cases (l : Literal) :
    l.stringToken = .string (.ofList l.text) ∨ l.stringToken = .badString (.ofList l.text) := by
  unfold Literal.stringToken
  split
  · exact Or.inl rfl
  · exact Or.inr rfl

theorem urlToken_cases (l : Literal) :
    l.urlToken = .url (.ofList l.text) ∨ l.urlToken = .badUrl (.ofList l.text) := by
  unfold Literal.urlToken
  split
  · exact Or.inl rfl
  · exact Or.inr rfl

/-! ## They are all there

The decisions of `readToken` are walked once, here, and each is found to end in one of the outcomes. -/

theorem char_of_ofChar? {c : Char} {p : Punctuation} (h : Punctuation.ofChar? c = some p) :
    c = p.char := by
  unfold Punctuation.ofChar? at h
  split at h <;> simp_all [Punctuation.char]
  all_goals subst h; rfl

/-- Where a name begins, what is behind it decides between four outcomes: a url with a quote behind its
parenthesis is a function again. -/
theorem readIdentLike_reads {s : List Char} (h : startsIdent s = true) :
    Reads s (readIdentLike s) := by
  rcases hname : readName s with ⟨n, r, t⟩
  simp only [readIdentLike, hname]
  split
  · next r' =>
    by_cases hu : isUrlName n = true
    · simp only [hu, if_true, readUrlArgument]
      by_cases hq : quoteFollows r' = true
      · simp only [hq, if_true]
        exact .urlFunction h hname hu hq
      · have hurl := Reads.url h hname hu (by simpa using hq)
        simp only [hq]
        simpa [Reading.after] using hurl
    · have hu' : isUrlName n = false := by simpa using hu
      simp only [hu', Bool.false_eq_true, if_false]
      exact .function h hname hu'
  · next hr =>
    -- no parenthesis is behind the name, so it stands alone
    have hident := Reads.ident h hname (by
      intro hhead
      cases r with
      | nil => contradiction
      | cons c r => exact hr r (by simp_all))
    simpa [Reading.after] using hident

/-- Where a number begins, a unit behind it is looked for first, then the percent sign. -/
theorem readNumeric_reads {s : List Char} (h : startsNumber s = true) : Reads s (readNumeric s) := by
  rcases hm : readNumeral s with ⟨m, r⟩
  simp only [readNumeric, hm]
  split
  · next hr => exact .dimension h hm hr
  · next hr =>
    split
    · have hpercent := Reads.percentage h hm
      simpa [Reading.after, Trace.taking] using hpercent
    · next hp =>
      have hnumber := Reads.number h hm (by simpa using hr) (by
        intro hhead
        cases r with
        | nil => contradiction
        | cons c r => exact hp r (by simp_all))
      simpa [Reading.after] using hnumber

/-- What a text begins with before its end is one of the outcomes. -/
theorem reads_readToken {s : List Char} (h : s ≠ []) : Reads s (readToken s) := by
  fun_cases readToken s with
  | case1 => exact absurd rfl h
  | case2 c s hc => exact .comment hc
  | case3 c s _ hw => exact .whitespace hw
  | case4 c s _ _ hn => exact readNumeric_reads hn
  | case5 c s _ _ _ hi => exact readIdentLike_reads hi
  | case6 c s hc hw hn hi =>
    rw [Bool.not_eq_true] at hc hw hn hi
    fun_cases readMark c s with
    | case1 s =>
      -- a backslash that begins no name stands in front of a newline
      have hescape : startsEscape ('\\' :: s) = false := by
        rw [Bool.eq_false_iff] at hi ⊢
        exact fun h => hi (startsIdent_cons_iff.2 (Or.inr (Or.inl h)))
      cases s with
      | nil => simp [startsEscape] at hescape
      | cons d s =>
        obtain rfl : d = '\n' := by simpa [startsEscape] using hescape
        exact .strayBackslash
    | case2 s => exact .string (Or.inl rfl)
    | case3 s => exact .string (Or.inr rfl)
    | case4 s =>
      unfold readHash
      split
      · next hs => exact .hash hs
      · next hs =>
        rw [Bool.not_eq_true] at hs
        exact .delim ⟨hc, hw, hn, hi, by simp, by simp, fun _ => hs, by simp, by simp, by simp, rfl⟩
    | case5 s =>
      unfold readAtKeyword
      split
      · next hs => exact .atKeyword hs
      · next hs =>
        rw [Bool.not_eq_true] at hs
        exact .delim ⟨hc, hw, hn, hi, by simp, by simp, by simp, fun _ => hs, by simp, by simp, rfl⟩
    | case6 t => exact .cdo
    | case7 t => exact .cdc
    | case8 c s _ _ _ _ _ _ _ mark hmark =>
      rw [char_of_ofChar? hmark]
      exact .punctuation
    | case9 c s hback hdouble hsingle hhash hkeyword hcdo hcdc hmark =>
      -- what `readMark` has passed over by now is what `IsDelim` asks for
      refine .delim ⟨hc, hw, hn, hi, hback, ⟨hdouble, hsingle⟩, fun h => (hhash h).elim,
        fun h => (hkeyword h).elim, ?_, ?_, hmark⟩
      · rintro hopens ⟨t, rfl⟩
        exact hcdo t hopens rfl
      · rintro hcloses ⟨t, rfl⟩
        exact hcdc t hcloses rfl

/-! ## They exclude each other

The converse walks the outcomes instead: under the conditions of each, the decisions before it in `readToken`
fail. For most code points that is plain, since only `readMark` has something to do with them (`IsMark`). -/

theorem startsComment_of_ne {c : Char} (h : c ≠ '/') (s : List Char) :
    startsComment (c :: s) = false := by
  unfold startsComment
  split <;> simp_all

/-- The first four decisions have failed, so `readMark` decides. -/
theorem readToken_mark {c : Char} {s : List Char} (hcomment : startsComment (c :: s) = false)
    (hwhite : isWhitespace c = false) (hnumber : startsNumber (c :: s) = false)
    (hident : startsIdent (c :: s) = false) :
    readToken (c :: s) = (readMark c s).after [.take c] := by
  rw [readToken, hcomment, hwhite, hnumber, hident]
  rfl

/-- Only `readMark` has something to do with the code point. -/
def IsMark (c : Char) : Prop :=
  c ∉ ['/', '.', '+', '-', '\\'] ∧ isWhitespace c = false ∧ c.isDigit = false ∧ isNameStart c = false

instance (c : Char) : Decidable (IsMark c) :=
  inferInstanceAs (Decidable (_ ∧ _))

/-- For these code points the first four decisions fail whatever follows. -/
theorem readToken_of_isMark {c : Char} (s : List Char) (h : IsMark c) :
    readToken (c :: s) = (readMark c s).after [.take c] := by
  obtain ⟨hne, hwhite, hdigit, hname⟩ := h
  simp only [List.mem_cons, List.not_mem_nil, or_false, not_or] at hne
  obtain ⟨hslash, hpoint, hplus, hminus, hback⟩ := hne
  refine readToken_mark (startsComment_of_ne hslash s) hwhite ?_ ?_
  · rw [Bool.eq_false_iff, ne_eq, startsNumber_cons_iff]
    simp [hdigit, hpoint, hplus, hminus]
  · rw [Bool.eq_false_iff, ne_eq, startsIdent_cons_iff]
    simp [hname, hminus, startsEscape, hback]

/-- A class that has neither the slash nor white space in it is not met by the decisions that come first. -/
theorem ne_slash_of_class {p : Char → Bool} {c : Char} (hc : p c = true)
    (hp : p '/' = false ∧ p ' ' = false ∧ p '\t' = false ∧ p '\n' = false) :
    c ≠ '/' ∧ isWhitespace c = false := by
  obtain ⟨hslash, hspace, htab, hline⟩ := hp
  constructor
  · rintro rfl
    simp [hslash] at hc
  · rw [Bool.eq_false_iff]
    intro hwhite
    simp only [isWhitespace, Bool.or_eq_true, beq_iff_eq] at hwhite
    rcases hwhite with (rfl | rfl) | rfl <;> simp_all

/-- A number is read wherever one begins: comments and white space, which are looked for before it, begin with
other code points. -/
theorem readToken_of_startsNumber {s : List Char} (h : startsNumber s = true) :
    readToken s = readNumeric s := by
  cases s with
  | nil => simp [startsNumber, readSign, startsDigit] at h
  | cons c s =>
    have hc : c ≠ '/' ∧ isWhitespace c = false := by
      rcases startsNumber_cons_iff.1 h with hdigit | ⟨rfl, _⟩ | ⟨rfl | rfl, _⟩
      · exact ne_slash_of_class hdigit (by decide)
      all_goals decide
    rw [readToken, startsComment_of_ne hc.1, hc.2, h]
    rfl

/-- A name is read wherever one begins, for no number begins there. -/
theorem readToken_of_startsIdent {s : List Char} (h : startsIdent s = true) :
    readToken s = readIdentLike s := by
  -- numbers come before names in `readToken`
  have hnumber : startsNumber s = false := by
    rw [Bool.eq_false_iff]
    intro hnumber
    rw [startsIdent_of_startsNumber hnumber] at h
    contradiction
  cases s with
  | nil => contradiction
  | cons c s =>
    have hc : c ≠ '/' ∧ isWhitespace c = false := by
      rcases startsIdent_cons_iff.1 h with hname | hescape | ⟨rfl, _⟩
      · exact ne_slash_of_class hname (by decide)
      · obtain ⟨t, heq, _⟩ := startsEscape_iff.1 hescape
        rw [(List.cons.inj heq).1]
        decide
      · decide
    rw [readToken, startsComment_of_ne hc.1, hc.2, hnumber, h]
    rfl

/-- An outcome of which the conditions hold is the one that is read. -/
theorem Reads.readToken_eq {s : List Char} {r : Reading Token} (h : Reads s r) :
    readToken s = r := by
  cases h with
  | comment h =>
    cases s with
    | nil => contradiction
    | cons c s => rw [readToken, h, if_pos rfl]
  | @whitespace c s h =>
    have hc : c ≠ '/' := by
      rintro rfl
      contradiction
    rw [readToken, startsComment_of_ne hc, h]
    rfl
  | dimension h hm hr =>
    rw [readToken_of_startsNumber h, readNumeric, hm]
    simp [hr]
  | @percentage _ r m h hm =>
    -- a unit would be taken before the sign
    have hr : startsIdent ('%' :: r) = false := by
      rw [Bool.eq_false_iff, ne_eq, startsIdent_cons_iff]
      simp [startsEscape, show isNameStart '%' = false by decide]
    rw [readToken_of_startsNumber h, readNumeric, hm]
    simp [hr, Reading.after, Trace.taking]
  | @number _ r m h hm hr hp =>
    rw [readToken_of_startsNumber h, readNumeric, hm]
    simp only [hr]
    split
    · contradiction
    · split
      · simp at hp
      · simp [Reading.after]
  | @ident _ n r t h hn hr =>
    rw [readToken_of_startsIdent h, readIdentLike, hn]
    split
    · simp_all
    · simp [Reading.after]
  | function h hn hu =>
    rw [readToken_of_startsIdent h, readIdentLike, hn]
    simp [hu, Reading.after]
  | urlFunction h hn hu hq =>
    rw [readToken_of_startsIdent h, readIdentLike, hn]
    simp [hu, readUrlArgument, hq, Reading.after]
  | url h hn hu hq =>
    rw [readToken_of_startsIdent h, readIdentLike, hn]
    simp [hu, readUrlArgument, hq, Reading.after]
  | @strayBackslash s =>
    rw [readToken_mark (startsComment_of_ne (by decide) _) (by decide)]
    · rfl
    · rw [Bool.eq_false_iff, ne_eq, startsNumber_cons_iff]
      simp
    · rw [Bool.eq_false_iff, ne_eq, startsIdent_cons_iff]
      simp [startsEscape, show isNameStart '\\' = false by decide]
  | string hq =>
    rcases hq with rfl | rfl <;> exact readToken_of_isMark _ (by decide)
  | @hash s h =>
    rw [readToken_of_isMark _ (by decide)]
    simp [readMark, readHash, h]
  | @atKeyword s h =>
    rw [readToken_of_isMark _ (by decide)]
    simp [readMark, readAtKeyword, h]
  | cdo => rw [readToken_of_isMark _ (by decide)]; rfl
  | @cdc s =>
    rw [readToken_mark (startsComment_of_ne (by decide) _) (by decide)]
    · rfl
    · rw [Bool.eq_false_iff, ne_eq, startsNumber_cons_iff]
      simp [startsDigit]
    · rfl
  | @punctuation p s =>
    rw [readToken_of_isMark _ (by cases p <;> decide)]
    cases p <;> rfl
  | @delim c s h =>
    rw [readToken_mark h.comment h.white h.number h.ident]
    unfold readMark
    split
    · exact absurd rfl h.back
    · exact absurd rfl h.quote.1
    · exact absurd rfl h.quote.2
    · rw [readHash, h.hash rfl]
      rfl
    · rw [readAtKeyword, h.keyword rfl]
      rfl
    · exact absurd ⟨_, rfl⟩ (h.cdo rfl)
    · exact absurd ⟨_, rfl⟩ (h.cdc rfl)
    · rw [h.mark]
      rfl

/-! ## The number of a token

Three kinds of tokens begin with a number. What is said of the number holds of all three and is proved of them
together. -/

/-- What a number, a percentage or a dimension says of its number. -/
def Token.numeric? : Token → Option Numeric
  | .number n | .percentage n | .dimension n _ => some n
  | _ => none

/-- A token has a number exactly where one begins, and it is what the numeral says. -/
theorem numeric?_readToken_eq_some_iff {s : List Char} {n : Numeric} :
    (readToken s).value.numeric? = some n ↔
      startsNumber s = true ∧ (readNumeral s).1.toNumeric = n := by
  constructor
  · intro h
    have hne : s ≠ [] := by
      rintro rfl
      contradiction
    have hreads := reads_readToken hne
    -- The outcomes with a number carry the condition with them; of all others the token has none.
    generalize readToken s = reading at h hreads
    cases hreads with
    | dimension hnum hm => exact ⟨hnum, by rw [hm]; exact Option.some.inj h⟩
    | percentage hnum hm => exact ⟨hnum, by rw [hm]; exact Option.some.inj h⟩
    | number hnum hm => exact ⟨hnum, by rw [hm]; exact Option.some.inj h⟩
    | string =>
      simp only [Reading.value_after, Reading.value_map] at h
      rcases stringToken_cases (readQuoted _ _).value with hl | hl <;> rw [hl] at h <;> contradiction
    | url =>
      simp only [Reading.value_after, Reading.value_map] at h
      rcases urlToken_cases (readUrl _).value with hl | hl <;> rw [hl] at h <;> contradiction
    | _ => contradiction
  · rintro ⟨hnum, rfl⟩
    rw [readToken_of_startsNumber hnum, readNumeric, Reading.value_after]
    split
    · rfl
    · split <;> rfl

end CssLex
