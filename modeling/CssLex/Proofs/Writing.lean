import CssLex.Proofs.Neighbours

/-!
# CssLex — what is written for a list of tokens

Where every token is followed by what it is always followed by (`Settles`), a list of tokens is written as
the bodies of its tokens, with an empty comment wherever two of them must be kept apart (`spell`): the
newline that a token needs behind it is there already. All of it is normal text.
-/

namespace CssLex

/-! ## Bodies and gaps

Writing works along the list: each token is written with a look at the one before it, which may need a
separator or may have written its newline already. `spell` has no such memory. That the two agree is an
induction over the list, and all further proofs are about `spell`. -/

/-- What is put behind a token before the others. -/
def gap (t : Token) (ts : List Token) : List Char :=
  match ts with
  | [] => []
  | u :: _ => if t.mustSeparate u then "/**/".toList else []

/-- The bodies of the tokens, kept apart where they must be. -/
def spell : List Token → List Char
  | [] => []
  | t :: ts => t.body ++ (gap t ts ++ spell ts)

/-- Every token is followed by what it is always followed by. -/
def Settles : List Token → Prop
  | [] => True
  | t :: ts => t.Settled ts ∧ Settles ts

theorem Settles.of_append {us vs : List Token} (h : Settles (us ++ vs)) : Settles vs := by
  induction us with
  | nil => exact h
  | cons u us ih => exact ih h.2

/-- Tokens that have been read follow each other as they must. -/
theorem settles_tokensOf (s : List Char) : Settles (tokensOf s) := by
  by_cases hs : s = []
  · rw [hs, tokensOf_nil]
    trivial
  · rw [tokensOf_of_ne_nil hs]
    exact ⟨settled_readToken hs, settles_tokensOf _⟩
termination_by s.length
decreasing_by exact length_rest_readToken_lt hs

/-- Tokens of a normal text could have been read, each of them. -/
theorem lexical_tokensOf {s : List Char} (hs : IsNormal s) : ∀ t ∈ tokensOf s, t.Lexical := by
  by_cases hne : s = []
  · rw [hne, tokensOf_nil]
    simp
  · rw [tokensOf_of_ne_nil hne]
    have ih := lexical_tokensOf ((readToken_splits s).isNormal_rest hs)
    exact List.forall_mem_cons.2 ⟨lexical_readToken hs hne, ih⟩
termination_by s.length
decreasing_by exact length_rest_readToken_lt hne

theorem mustSeparate_whitespace (t : Token) (w : String) : t.mustSeparate (.whitespace w) = false := by
  unfold Token.mustSeparate
  split <;> rfl

/-- A token that ends its line has white space behind it that begins with the newline. -/
theorem exists_newline_of_endsLine {t : Token} {ts : List Token} (hline : t.endsLine = true)
    (h : t.Settled ts) : ∃ w us, ts = .whitespace (.ofList ('\n' :: w)) :: us := by
  have hnext : ∃ w, ts.head? = some (.whitespace (.ofList ('\n' :: w))) := by
    unfold Token.endsLine at hline
    split at hline
    · exact h
    · exact h
    · contradiction
  obtain ⟨w, hw⟩ := hnext
  cases ts with
  | nil => contradiction
  | cons u us =>
    rw [Option.some.inj hw]
    exact ⟨w, us, rfl⟩

/-- Behind such a token the newline of the white space is left out, for it is written. -/
theorem writeFrom_cons_whitespace {t : Token} (hline : t.endsLine = true) (w : List Char)
    (us : List Token) :
    writeFrom t (.whitespace (.ofList ('\n' :: w)) :: us) =
      w ++ writeFrom (.whitespace (.ofList ('\n' :: w))) us := by
  rw [writeFrom, Token.writeBehind, mustSeparate_whitespace, hline]
  simp [Token.writeBehindLine]

/-- A token that ends its line has its newline from the whitespace behind it. -/
theorem write_append_writeFrom {t : Token} {ts : List Token} (h : Settles (t :: ts)) :
    t.write ++ writeFrom t ts = spell (t :: ts) := by
  induction ts generalizing t with
  | nil =>
    -- a token that ends its line is never the last
    have hline : t.endsLine = false := by
      rw [Bool.eq_false_iff]
      intro hline
      obtain ⟨w, us, hts⟩ := exists_newline_of_endsLine hline h.1
      contradiction
    rw [t.write_eq_body, hline]
    simp [writeFrom, spell, gap]
  | cons u us ih =>
    have hbehind := ih h.2
    rw [spell, ← hbehind, t.write_eq_body]
    by_cases hline : t.endsLine = true
    · -- the newline is written with the token and left out of the whitespace
      obtain ⟨w, us', hts⟩ := exists_newline_of_endsLine hline h.1
      obtain ⟨rfl, rfl⟩ := List.cons.inj hts
      have hwrite : (Token.whitespace (.ofList ('\n' :: w))).write = '\n' :: w :=
        String.toList_ofList
      rw [writeFrom_cons_whitespace hline, hline, gap, mustSeparate_whitespace, hwrite]
      simp
    · rw [Bool.not_eq_true] at hline
      rw [writeFrom, Token.writeBehind, hline]
      simp [gap]

/-- What is written for tokens that settle is their spelling. -/
theorem writeTokens_eq_spell {ts : List Token} (h : Settles ts) : writeTokens ts = spell ts := by
  cases ts with
  | nil => rfl
  | cons t ts => exact write_append_writeFrom h

/-! ## Normal text

Reading begins by making a text normal, so what is written must be normal to be read as it stands. This is
seen writer by writer, each a map over the code points or a few pieces put together; all that has to be known
of a piece is its class. -/

theorem isNormal_singleton_iff {c : Char} :
    IsNormal [c] ↔ c ≠ '\r' ∧ c ≠ '\x0c' ∧ c ≠ '\x00' := by
  simp [isNormal_cons_iff, isNormal_nil]

/-- Where each code point is written as normal text, every text is. -/
theorem isNormal_flatMap {f : Char → List Char} (h : ∀ c, IsNormal (f c)) (s : List Char) :
    IsNormal (s.flatMap f) := by
  induction s with
  | nil => exact isNormal_nil
  | cons c s ih => exact isNormal_append_iff.2 ⟨h c, ih⟩

/-- A text that is written out is checked as it stands. -/
theorem isNormal_of_all {s : List Char}
    (h : s.all (fun c => c != '\r' && c != '\x0c' && c != '\x00') = true) : IsNormal s := by
  intro c hc
  have hall := List.all_eq_true.1 h c hc
  simp only [Bool.and_eq_true, bne_iff_ne] at hall
  exact ⟨hall.1.1, hall.1.2, hall.2⟩

/-- A class that has none of the three code points in it is normal. -/
theorem isNormal_of_class {p : Char → Bool} (hp : p '\r' = false ∧ p '\x0c' = false ∧ p '\x00' = false)
    {s : List Char} (hs : ∀ c ∈ s, p c = true) : IsNormal s := by
  intro c hc
  have hpc := hs c hc
  refine ⟨?_, ?_, ?_⟩ <;> rintro rfl <;> simp [hp] at hpc

/-- The three code points are control characters. -/
theorem isNormal_of_not_control {c : Char} (h : isControl c = false) : IsNormal [c] := by
  rw [isNormal_singleton_iff]
  refine ⟨?_, ?_, ?_⟩ <;> rintro rfl <;> contradiction

/-- An escape by its number is a backslash, digits and a space. -/
theorem isNormal_escapeAsHex (c : Char) : IsNormal (escapeAsHex c) := by
  have hdigits : IsNormal (Nat.toDigits 16 c.toNat) :=
    isNormal_of_class (by decide) (toDigits_sixteen c.toNat).2
  rw [escapeAsHex, List.cons_append, isNormal_cons_iff, isNormal_append_iff]
  exact ⟨by decide, hdigits, isNormal_singleton_iff.2 (by decide)⟩

theorem isNormal_escapeAsChar {c : Char} (h : IsNormal [c]) : IsNormal (escapeAsChar c) :=
  isNormal_cons_iff.2 ⟨by decide, h⟩

theorem isNormal_replacementChar : IsNormal [replacementChar] :=
  isNormal_singleton_iff.2 (by decide)

/-- In a name, control characters are written by their numbers. -/
theorem isNormal_writeNameChar (c : Char) : IsNormal (writeNameChar c) := by
  unfold writeNameChar
  split
  · next hname => exact isNormal_of_class (p := isNameChar) (by decide) (by simpa using hname)
  · split
    · exact isNormal_replacementChar
    · split
      · exact isNormal_escapeAsHex c
      · next hcontrol => exact isNormal_escapeAsChar (isNormal_of_not_control (by simpa using hcontrol))

/-- In a string as well, where NUL is replaced and the two marks are escaped. -/
theorem isNormal_writeStringChar (c : Char) : IsNormal (writeStringChar c) := by
  unfold writeStringChar
  split
  · next hmark =>
    have hc : IsNormal [c] := by
      rw [isNormal_singleton_iff]
      rcases hmark with rfl | rfl <;> decide
    exact isNormal_escapeAsChar hc
  · split
    · exact isNormal_replacementChar
    · split
      · exact isNormal_escapeAsHex c
      · next hcontrol => exact isNormal_of_not_control (by simpa using hcontrol)

/-- And in a url, where a space is escaped so too. -/
theorem isNormal_writeUrlChar (c : Char) : IsNormal (writeUrlChar c) := by
  unfold writeUrlChar
  split
  · exact isNormal_escapeAsHex c
  · next hprinted =>
    rw [not_or, Bool.not_eq_true] at hprinted
    have hc := isNormal_of_not_control hprinted.1
    split
    · exact isNormal_escapeAsChar hc
    · exact hc

theorem isNormal_writeName (n : List Char) : IsNormal (writeName n) :=
  isNormal_flatMap isNormal_writeNameChar n

theorem isNormal_writeStringText (t : List Char) : IsNormal (writeStringText t) :=
  isNormal_flatMap isNormal_writeStringChar t

theorem isNormal_writeQuoted (t : List Char) : IsNormal (writeQuoted t) :=
  isNormal_append_iff.2 ⟨isNormal_cons_iff.2 ⟨by decide, isNormal_writeStringText t⟩,
    isNormal_singleton_iff.2 (by decide)⟩

theorem isNormal_writeNoDigitFirst (n : List Char) : IsNormal (writeNoDigitFirst n) := by
  cases n with
  | nil => exact isNormal_nil
  | cons c n =>
    rw [writeNoDigitFirst]
    split
    · exact isNormal_append_iff.2 ⟨isNormal_escapeAsHex c, isNormal_writeName n⟩
    · exact isNormal_writeName _

/-- Identifiers, with each of the ways to write a hyphen in front. -/
theorem isNormal_writeIdent (n : List Char) : IsNormal (writeIdent n) := by
  fun_cases writeIdent n with
  | case1 => exact isNormal_escapeAsChar (isNormal_singleton_iff.2 (by decide))
  | case2 s =>
    exact isNormal_cons_iff.2 ⟨by decide, isNormal_cons_iff.2 ⟨by decide, isNormal_writeName s⟩⟩
  | case3 s => exact isNormal_cons_iff.2 ⟨by decide, isNormal_writeNoDigitFirst s⟩
  | case4 => exact isNormal_writeNoDigitFirst n

/-- Units, which may have to be kept from being read as an exponent. -/
theorem isNormal_writeUnit (n : List Char) : IsNormal (writeUnit n) := by
  cases n with
  | nil => exact isNormal_nil
  | cons c n =>
    rw [writeUnit]
    split
    · exact isNormal_append_iff.2 ⟨isNormal_escapeAsHex c, isNormal_writeName n⟩
    · exact isNormal_writeIdent _

theorem isNormal_signText (sign : Option Sign) : IsNormal (signText sign) := by
  cases sign with
  | none => exact isNormal_nil
  | some s => cases s <;> exact isNormal_singleton_iff.2 (by decide)

theorem isNormal_digits {ds : List Char} (h : ∀ c ∈ ds, c.isDigit = true) : IsNormal ds :=
  isNormal_of_class (by decide) h

/-- A numeral is made of digits, signs, a point and a mark. -/
theorem Numeral.Valid.isNormal_text {m : Numeral} (hm : m.Valid) : IsNormal m.text := by
  have hfraction : IsNormal (fractionText m.fraction) := by
    unfold fractionText
    split
    · exact isNormal_nil
    · exact isNormal_cons_iff.2 ⟨by decide, isNormal_digits hm.fraction⟩
  have hexponent : IsNormal ((m.exponent.map Exponent.text).getD []) := by
    cases he : m.exponent with
    | none => exact isNormal_nil
    | some e =>
      obtain ⟨hmark, _, hdigits⟩ := hm.exponent e he
      have hm' : e.mark ≠ '\r' ∧ e.mark ≠ '\x0c' ∧ e.mark ≠ '\x00' := by
        rcases hmark with h | h <;> rw [h] <;> decide
      exact isNormal_cons_iff.2 ⟨hm', isNormal_append_iff.2 ⟨isNormal_signText _, isNormal_digits hdigits⟩⟩
  simp only [Numeral.text, isNormal_append_iff]
  exact ⟨⟨⟨isNormal_signText _, isNormal_digits hm.whole⟩, hfraction⟩, hexponent⟩

/-- So what is written for a number is normal, for it is the text of a numeral. -/
theorem isNormal_write_numeric {n : Numeric} (h : n.HasOneSign) : IsNormal n.write := by
  obtain ⟨m, hm, hwrite⟩ := exists_write_eq_text h
  rw [hwrite]
  exact hm.isNormal_text

/-- Every token that could have been read has a normal body. Texts are escaped where they must be; comments,
white space and single code points stand as they were read. -/
theorem isNormal_body {t : Token} (h : t.Lexical) : IsNormal t.body := by
  cases t with
  | endOfInput => contradiction
  | ident name => exact isNormal_writeIdent _
  | function name =>
    exact isNormal_append_iff.2 ⟨isNormal_writeIdent _, isNormal_singleton_iff.2 (by decide)⟩
  | atKeyword name => exact isNormal_cons_iff.2 ⟨by decide, isNormal_writeIdent _⟩
  | hash kind name =>
    cases kind with
    | id => exact isNormal_cons_iff.2 ⟨by decide, isNormal_writeIdent _⟩
    | unrestricted => exact isNormal_cons_iff.2 ⟨by decide, isNormal_writeName _⟩
  | string text => exact isNormal_writeQuoted _
  | badString text => exact isNormal_cons_iff.2 ⟨by decide, isNormal_writeStringText _⟩
  | url text =>
    exact isNormal_append_iff.2 ⟨isNormal_append_iff.2 ⟨isNormal_of_all (by decide),
      isNormal_flatMap isNormal_writeUrlChar _⟩, isNormal_singleton_iff.2 (by decide)⟩
  | badUrl text =>
    exact isNormal_append_iff.2 ⟨isNormal_append_iff.2 ⟨isNormal_of_all (by decide),
      isNormal_flatMap isNormal_writeUrlChar _⟩, isNormal_of_all (by decide)⟩
  | number n => exact isNormal_write_numeric h
  | percentage n =>
    exact isNormal_append_iff.2 ⟨isNormal_write_numeric h, isNormal_singleton_iff.2 (by decide)⟩
  | dimension n unit =>
    exact isNormal_append_iff.2 ⟨isNormal_write_numeric h.1, isNormal_writeUnit _⟩
  | whitespace text => exact isNormal_of_class (by decide) h.2
  -- a comment is not escaped, but it was read from normal text
  | comment text =>
    refine isNormal_append_iff.2 ⟨h.1, ?_⟩
    split
    · exact isNormal_nil
    · exact isNormal_of_all (by decide)
  | cdo => exact isNormal_of_all (by decide)
  | cdc => exact isNormal_of_all (by decide)
  | punctuation p => cases p <;> exact isNormal_singleton_iff.2 (by decide)
  | delim c =>
    by_cases hc : c = '\\'
    · subst hc
      exact isNormal_singleton_iff.2 (by decide)
    · rw [(body_delim hc).1]
      exact h.1

/-- Bodies are normal, and so is what may stand between them. -/
theorem isNormal_spell {ts : List Token} (h : ∀ t ∈ ts, t.Lexical) : IsNormal (spell ts) := by
  induction ts with
  | nil => exact isNormal_nil
  | cons t ts ih =>
    obtain ⟨ht, hts⟩ := List.forall_mem_cons.1 h
    have hgap : IsNormal (gap t ts) := by
      unfold gap
      split
      · exact isNormal_nil
      · split
        · exact isNormal_of_all (by decide)
        · exact isNormal_nil
    rw [spell, isNormal_append_iff, isNormal_append_iff]
    exact ⟨isNormal_body ht, hgap, ih hts⟩

end CssLex
