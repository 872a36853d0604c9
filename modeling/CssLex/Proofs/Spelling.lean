import CssLex.Proofs.Comments
import CssLex.Proofs.Lexing
import CssLex.Proofs.Literals
import CssLex.Proofs.Numerals

/-!
# CssLex — tokens are read back

`Token.body` is what a token writes of itself: without the newline that is written behind a stray backslash
or a damaged string, for that belongs to the whitespace that follows them. A token that could have been
read (`Token.Lexical`), followed by a text that it does not run into (`Token.Parted`), is read from its
body again (`readToken_body_append`). Two things may change: a number is written anew, so it says what its
new text says, and a comment that was not closed is closed (`Token.reread`).
-/

namespace CssLex

/-! ## What is expected of a token and of what follows it

`Token.Lexical` is about the token alone and `Token.Parted` about the text behind it. Each condition keeps out
a text with which something else would be read. -/

/-- What a number says once it is written anew. -/
def Numeric.reread (n : Numeric) : Numeric :=
  (readNumeral n.write).1.toNumeric

/-- A name that is not empty and free of NUL. -/
def IsName (n : List Char) : Prop :=
  n ≠ [] ∧ '\x00' ∉ n

/-- A name that begins no identifier: with a digit, with a hyphen and a digit, or of hyphens alone. -/
def IsLooseName (n : List Char) : Prop :=
  n = ['-'] ∨ n = ['-', '-'] ∨ ∃ d m, d.isDigit = true ∧ (n = d :: m ∨ n = '-' :: d :: m)

namespace Token

/-- The text of the token without the newline that ends its line. -/
def body : Token → List Char
  | .delim '\\' => ['\\']
  | .badString text => '"' :: writeStringText text.toList
  | t => t.write

/-- The token as its written text says it. -/
def reread : Token → Token
  | .number n => .number n.reread
  | .percentage n => .percentage n.reread
  | .dimension n unit => .dimension n.reread unit
  | .comment text => .comment (.ofList (Token.comment text).write)
  | t => t

/-- The errors that are reported where the token is read from its body. -/
def reports : Token → List ErrorKind
  | .delim '\\' => [.escapedNewline]
  | .badString _ => [.newlineInString]
  | .badUrl _ => [.unexpectedInUrl '(']
  | _ => []

/-- The token could have been read from a normal text. -/
def Lexical : Token → Prop
  | .endOfInput => False
  | .ident name | .function name | .atKeyword name | .hash .id name => IsName name.toList
  | .hash .unrestricted name => IsLooseName name.toList ∧ '\x00' ∉ name.toList
  | .string text | .badString text | .url text | .badUrl text => '\x00' ∉ text.toList
  | .number n | .percentage n => n.HasOneSign
  | .dimension n unit => n.HasOneSign ∧ IsName unit.toList
  | .whitespace text => text.toList ≠ [] ∧ ∀ c ∈ text.toList, isWhitespace c = true
  | .comment text => IsNormal text.toList ∧
      ∃ y, text.toList = '/' :: '*' :: y ∧ (ClosesComment y ∨ ¬ ['*', '/'] <:+: y)
  | .cdo | .cdc | .punctuation _ => True
  | .delim c => IsNormal [c] ∧ isWhitespace c = false ∧ c.isDigit = false ∧ isNameStart c = false ∧
      (c ≠ '"' ∧ c ≠ '\'') ∧ Punctuation.ofChar? c = none

/-- The text behind the body of the token does not change how it is read. -/
def Parted (t : Token) (r : List Char) : Prop :=
  match t with
  | .ident name => startsName r = false ∧ r.head? ≠ some '(' ∧
      (name.toList = ['-', '-'] → r.head? ≠ some '>')
  | .atKeyword name | .hash .id name | .dimension _ name =>
      startsName r = false ∧ (name.toList = ['-', '-'] → r.head? ≠ some '>')
  | .hash .unrestricted name =>
      startsName r = false ∧ (name.toList = ['-', '-'] → r.head? = some '>')
  | .function name => isUrlName name.toList = true →
      quoteFollows r = true ∧ (r.takeWhile isWhitespace).length ≤ 1
  | .number _ => startsIdent r = false ∧ startsDigit r = false ∧
      (∀ s, r = '.' :: s → startsDigit s = false) ∧ r.head? ≠ some '%'
  | .whitespace _ => r.head?.any isWhitespace = false
  | .badString _ => r.head? = some '\n'
  | .delim c => (c = '\\' ∧ r.head? = some '\n') ∨ IsDelim c r
  | _ => True

theorem write_eq_body (t : Token) : t.write = t.body ++ if t.endsLine then ['\n'] else [] := by
  unfold body
  split
  · rfl
  · rfl
  · next hback hstring =>
    have hline : t.endsLine = false := by
      unfold endsLine
      split
      · contradiction
      · exact absurd rfl (hstring _)
      · rfl
    rw [hline, if_neg (by simp), List.append_nil]

/-- The token is read from its body, and the text behind it is left. -/
structure ReadsBack (t : Token) (r : List Char) : Prop where
  value : (readToken (t.body ++ r)).value = t.reread
  rest : (readToken (t.body ++ r)).rest = r
  reported : Trace.reported (readToken (t.body ++ r)).trace = t.reports

end Token

/-- A reading of the body that agrees with the token in all three respects. -/
theorem readsBack_of_readToken {t : Token} {r : List Char} {reading : Reading Token}
    (h : readToken (t.body ++ r) = reading) (hvalue : reading.value = t.reread)
    (hrest : reading.rest = r) (hreported : Trace.reported reading.trace = t.reports) :
    t.ReadsBack r :=
  ⟨by rw [h, hvalue], by rw [h, hrest], by rw [h, hreported]⟩

/-- An outcome that is possible is the one that is read, so it is enough to name it. -/
theorem readsBack_of_reads {t : Token} {r : List Char} {reading : Reading Token}
    (h : Reads (t.body ++ r) reading) (hvalue : reading.value = t.reread) (hrest : reading.rest = r)
    (hreported : Trace.reported reading.trace = t.reports) : t.ReadsBack r :=
  readsBack_of_readToken h.readToken_eq hvalue hrest hreported

/-! ## Kind by kind

For each kind of token the outcome of `Reads` is named that its body leads to; what has been proved of the
reader of its text then says what is read. -/

section

variable {name text : String} {r : List Char}

theorem readName_writeIdent {n r : List Char} (hn : '\x00' ∉ n) (hr : startsName r = false) :
    readName (writeIdent n ++ r) = ⟨n, r, .taking (writeIdent n)⟩ :=
  (spellsName_writeIdent hn).readName_append hr

/-- Neither a name nor a parenthesis may follow, and no `>` behind two hyphens. -/
theorem readsBack_ident (hn : IsName name.toList) (hr : (Token.ident name).Parted r) :
    (Token.ident name).ReadsBack r := by
  obtain ⟨hname, hopen, hcloses⟩ := hr
  have hread := readName_writeIdent hn.2 hname
  refine readsBack_of_reads (.ident (startsIdent_writeIdent hn.1 hn.2 hcloses) hread hopen) ?_ rfl ?_
  · rw [String.ofList_toList]
    rfl
  · exact Trace.reported_taking _

/-- A parenthesis may follow, for it belongs to no keyword. -/
theorem readsBack_atKeyword (hn : IsName name.toList) (hr : (Token.atKeyword name).Parted r) :
    (Token.atKeyword name).ReadsBack r := by
  have hreads := Reads.atKeyword (startsIdent_writeIdent hn.1 hn.2 hr.2)
  rw [readName_writeIdent hn.2 hr.1] at hreads
  refine readsBack_of_reads hreads ?_ rfl ?_
  · simp only [Reading.value_after, Reading.value_map, String.ofList_toList]
    rfl
  · simp only [Reading.trace_after, Reading.trace_map, Trace.reported_append, Trace.reported_taking]
    rfl

/-- Both kinds of hash at once; they differ in how the name is written (`w`) and in whether an identifier
begins there. -/
theorem readsBack_hash {kind : HashKind} {w : List Char} (hw : SpellsName w name.toList)
    (hne : name.toList ≠ []) (hr : startsName r = false)
    (hkind : (if startsIdent (w ++ r) then HashKind.id else .unrestricted) = kind)
    (hbody : (Token.hash kind name).body = '#' :: w) : (Token.hash kind name).ReadsBack r := by
  -- the name is read back either way; `hkind` says as what
  have hread := hw.readName_append hr
  have hreads := Reads.hash (hw.startsName_append hne r)
  rw [hkind, hread, ← List.cons_append, ← hbody] at hreads
  refine readsBack_of_reads hreads ?_ rfl ?_
  · simp only [Reading.value_after, Reading.value_map, String.ofList_toList]
    rfl
  · simp only [Reading.trace_after, Reading.trace_map, Trace.reported_append, Trace.reported_taking]
    rfl

/-- A hyphen begins an identifier only before a name. -/
theorem startsIdent_cons_eq_false_of {c : Char} {r : List Char} (hc : isNameStart c = false)
    (hback : c ≠ '\\') (h : c = '-' → startsName r = false) : startsIdent (c :: r) = false := by
  rw [Bool.eq_false_iff]
  intro hident
  -- the three ways to begin an identifier, none of which is open
  rcases startsIdent_cons_iff.1 hident with hstart | hescape | ⟨rfl, hnext⟩
  · rw [hc] at hstart
    contradiction
  · obtain ⟨t, heq, _⟩ := startsEscape_iff.1 hescape
    exact hback (List.cons.inj heq).1
  · have hr := h rfl
    rw [startsName, Bool.or_eq_false_iff] at hr
    rcases hnext with hstart | hescape | ⟨t, rfl, _⟩
    · obtain ⟨d, hd, hname⟩ := (Option.any_eq_true _ _).1 hstart
      rw [hd, Option.any_some, isNameChar_of_isNameStart hname] at hr
      exact absurd hr.1 (by simp)
    · rw [hescape] at hr
      exact absurd hr.2 (by simp)
    · have hhyphen : isNameChar '-' = true := by decide
      rw [List.head?_cons, Option.any_some, hhyphen] at hr
      exact absurd hr.1 (by simp)

/-- A loose name begins no identifier, unless it is read for the front of one. -/
theorem startsIdent_writeName_loose {n : List Char} (hn : IsLooseName n)
    (hr : startsName r = false) (hcloses : n = ['-', '-'] → r.head? = some '>') :
    startsIdent (writeName n ++ r) = false := by
  have hhyphen : writeNameChar '-' = ['-'] := by decide
  rcases hn with rfl | rfl | ⟨d, m, hd, hn⟩
  · -- nothing that goes on a name follows the hyphen
    show startsIdent ('-' :: r) = false
    exact startsIdent_cons_eq_false_of (by decide) (by decide) fun _ => hr
  · -- a `>` follows the two hyphens
    show startsIdent ('-' :: '-' :: r) = false
    rw [startsIdent, hcloses rfl]
    rfl
  · have hwrite : writeNameChar d = [d] := if_pos (isNameChar_of_isDigit hd)
    have hstart := isNameStart_of_isDigit hd
    have hplain : d ≠ '-' ∧ d ≠ '\\' := by
      constructor <;> rintro rfl <;> contradiction
    rcases hn with rfl | rfl
    · rw [writeName, List.flatMap_cons, hwrite, Bool.eq_false_iff, ne_eq, List.append_assoc,
        List.singleton_append, startsIdent_cons_iff]
      simp [startsEscape, hstart, hplain]
    · rw [writeName, List.flatMap_cons, List.flatMap_cons, hhyphen, hwrite, Bool.eq_false_iff, ne_eq,
        List.append_assoc, List.singleton_append, startsIdent_cons_iff]
      simp [startsEscape, hstart, hplain, show isNameStart '-' = false by decide]

/-- A written string is read as one, up to the quote that closes it. -/
theorem readToken_writeQuoted (t r : List Char) :
    readToken (writeQuoted t ++ r) =
      ⟨.string (.ofList (t.map withoutNul)), r, .taking (writeQuoted t)⟩ := by
  have htext : writeQuoted t ++ r = '"' :: (writeStringText t ++ '"' :: r) := by
    simp only [writeQuoted, List.cons_append, List.append_assoc, List.nil_append]
  have hreads := Reads.string (s := writeStringText t ++ '"' :: r) (Or.inl rfl)
  rw [readQuoted_writeStringText, readQuoted_close, ← htext] at hreads
  rw [hreads.readToken_eq]
  simp [Reading.map, Reading.after, Literal.prepend, Literal.closed, Literal.stringToken, writeQuoted]

/-- What is written for a damaged string is read up to its newline. -/
theorem readToken_cutString (t s : List Char) :
    readToken ('"' :: writeStringText t ++ '\n' :: s) =
      ⟨.badString (.ofList (t.map withoutNul)), '\n' :: s,
        Trace.taking ('"' :: writeStringText t) ++ [.report .newlineInString]⟩ := by
  have hreads := Reads.string (s := writeStringText t ++ '\n' :: s) (Or.inl rfl)
  rw [readQuoted_writeStringText, readQuoted_newline (by decide), ← List.cons_append] at hreads
  rw [hreads.readToken_eq]
  simp [Reading.map, Reading.after, Literal.prepend, Literal.damaged, Literal.stringToken]

/-- A string ends with its own quote, so anything may follow. -/
theorem readsBack_string (hn : '\x00' ∉ text.toList) : (Token.string text).ReadsBack r := by
  have hread := readToken_writeQuoted text.toList r
  rw [map_withoutNul_of_not_mem hn, String.ofList_toList] at hread
  exact readsBack_of_readToken hread rfl rfl (Trace.reported_taking _)

/-- A cut string has no quote; the newline that follows cuts it again. -/
theorem readsBack_badString (hn : '\x00' ∉ text.toList) (hr : r.head? = some '\n') :
    (Token.badString text).ReadsBack r := by
  cases r with
  | nil => contradiction
  | cons c s =>
    obtain rfl : c = '\n' := by simpa using hr
    have hread := readToken_cutString text.toList s
    rw [map_withoutNul_of_not_mem hn, String.ofList_toList] at hread
    refine readsBack_of_readToken hread rfl rfl ?_
    rw [Trace.reported_append, Trace.reported_taking]
    rfl

theorem readName_url (s : List Char) :
    readName ('u' :: 'r' :: 'l' :: '(' :: s) =
      ⟨['u', 'r', 'l'], '(' :: s, .taking ['u', 'r', 'l']⟩ := by
  have hspells : SpellsName ['u', 'r', 'l'] ['u', 'r', 'l'] :=
    .char (by decide) (.char (by decide) (.char (by decide) .nil))
  exact hspells.readName_append (r := '(' :: s) rfl

/-- What stands between `url(` and the first code point that is not written by `writeUrlText`. -/
theorem reads_url (t : List Char) {d : Char} {s : List Char}
    (hwhite : isWhitespace d = false) (hquote : d ≠ '"' ∧ d ≠ '\'') :
    Reads ("url(".toList ++ (writeUrlText t ++ d :: s))
      (((((readUrlText (d :: s)).map (.prepend (t.map withoutNul))).after
        (.taking (writeUrlText t))).map Literal.urlToken).after
          (Trace.taking ['u', 'r', 'l'] ++ [.take '('])) := by
  obtain ⟨hfollows, hread⟩ := readUrl_writeUrlText (t := t) (s := s) hwhite hquote
  rw [← hread]
  exact .url rfl (readName_url _) (by decide) hfollows

/-- A written url is read as one, up to the parenthesis that closes it. -/
theorem readToken_writeUrl (t r : List Char) :
    readToken ("url(".toList ++ writeUrlText t ++ [')'] ++ r) =
      ⟨.url (.ofList (t.map withoutNul)), r, .taking ("url(".toList ++ writeUrlText t ++ [')'])⟩ := by
  have hreads := reads_url t (d := ')') (s := r) (by decide) (by decide)
  have hclose : readUrlText (')' :: r) = ⟨.closed, r, [.take ')']⟩ := by
    rw [readUrlText, if_neg (by decide), if_pos rfl]
    rfl
  rw [hclose, ← List.singleton_append (l := r), ← List.append_assoc, ← List.append_assoc] at hreads
  rw [hreads.readToken_eq]
  simp [Reading.map, Reading.after, Literal.prepend, Literal.closed, Literal.urlToken]

/-- A parenthesis damages a written url, and the next one ends what is skipped. -/
theorem readToken_damagedUrl (t r : List Char) :
    readToken ("url(".toList ++ writeUrlText t ++ ['(', ')'] ++ r) =
      ⟨.badUrl (.ofList (t.map withoutNul)), r, Trace.taking ("url(".toList ++ writeUrlText t ++ ['(']) ++
        [.report (.unexpectedInUrl '('), .take ')']⟩ := by
  have hreads := reads_url t (d := '(') (s := ')' :: r) (by decide) (by decide)
  have hdamage : readUrlText ('(' :: ')' :: r) =
      ⟨.damaged, r, [.take '(', .report (.unexpectedInUrl '('), .take ')']⟩ := by
    rw [readUrlText, if_neg (by decide), if_neg (by decide), if_pos (by decide), skipDamagedUrl,
      if_pos rfl]
    rfl
  have htext : '(' :: ')' :: r = ['(', ')'] ++ r := rfl
  rw [hdamage, htext, ← List.append_assoc, ← List.append_assoc] at hreads
  rw [hreads.readToken_eq]
  simp [Reading.map, Reading.after, Literal.prepend, Literal.damaged, Literal.urlToken]

/-- A url ends with its own parenthesis, so anything may follow. -/
theorem readsBack_url (hn : '\x00' ∉ text.toList) : (Token.url text).ReadsBack r := by
  have hread := readToken_writeUrl text.toList r
  rw [map_withoutNul_of_not_mem hn, String.ofList_toList] at hread
  exact readsBack_of_readToken hread rfl rfl (Trace.reported_taking _)

/-- A damaged url is damaged again by the parenthesis that is written in it. -/
theorem readsBack_badUrl (hn : '\x00' ∉ text.toList) : (Token.badUrl text).ReadsBack r := by
  have hread := readToken_damagedUrl text.toList r
  rw [map_withoutNul_of_not_mem hn, String.ofList_toList] at hread
  refine readsBack_of_readToken hread rfl rfl ?_
  rw [Trace.reported_append, Trace.reported_taking]
  rfl

/-- A function ends with its parenthesis. Only one with the name of a url needs a quote behind it. -/
theorem readsBack_function (hn : IsName name.toList) (hr : (Token.function name).Parted r) :
    (Token.function name).ReadsBack r := by
  have hbody : (Token.function name).body ++ r = writeIdent name.toList ++ '(' :: r := by
    show writeIdent name.toList ++ ['('] ++ r = _
    simp
  have hident : startsIdent (writeIdent name.toList ++ '(' :: r) = true :=
    startsIdent_writeIdent hn.1 hn.2 (fun _ => by simp)
  have hread := readName_writeIdent hn.2 (r := '(' :: r) rfl
  by_cases hurl : isUrlName name.toList = true
  · -- a string follows `url(`, so it is a function after all
    obtain ⟨hquote, hgap⟩ := hr hurl
    have hreads := Reads.urlFunction hident hread hurl hquote
    -- of one code point of whitespace nothing is passed
    have hnone : (r.takeWhile isWhitespace).dropLast = [] := by
      rw [← List.length_eq_zero_iff, List.length_dropLast]
      omega
    rw [hnone, ← hbody] at hreads
    refine readsBack_of_reads hreads ?_ rfl ?_
    · simp [Token.reread]
    · simp [Token.reports]
  · have hreads := Reads.function hident hread (by simpa using hurl)
    rw [← hbody] at hreads
    refine readsBack_of_reads hreads ?_ rfl ?_
    · simp [Token.reread]
    · simp [Token.reports]

end

section

variable {n : Numeric} {r : List Char}

/-- A number stops before whatever begins neither a number nor an identifier. -/
theorem stopsNumeral_of_startsIdent (hident : startsIdent r = false) (hdigit : startsDigit r = false)
    (hpoint : ∀ t, r = '.' :: t → startsDigit t = false) : StopsNumeral r := by
  refine ⟨hdigit, hpoint, ?_⟩
  cases r with
  | nil => rfl
  | cons c r =>
    -- the mark of an exponent would begin an identifier
    have hmark : ¬ (c = 'e' ∨ c = 'E') := by
      intro hmark
      have hstart : isNameStart c = true := by rcases hmark with rfl | rfl <;> decide
      rw [startsIdent_cons_iff.2 (Or.inl hstart)] at hident
      contradiction
    simp [readExponent, hmark]

/-- What is written for a number is read as the numeral that it spells. -/
theorem reread_of_write {m : Numeral} (hm : m.Valid) (hwrite : n.write = m.text) :
    n.reread = m.toNumeric := by
  rw [Numeric.reread, hwrite, readNumeral_text hm]

/-- A number says anew what its numeral says. -/
theorem Numeric.reread_eq (hn : n.HasOneSign) : n.reread = n.numeral.toNumeric :=
  reread_of_write (valid_numeral n) (Numeric.write_eq_text hn)

/-- The text of a number that is read back is the text that was written. -/
theorem text_reread (n : Numeric) (hn : n.HasOneSign) : n.reread.text.toList = n.write := by
  obtain ⟨m, hm, hwrite⟩ := exists_write_eq_text hn
  rw [reread_of_write hm hwrite, hwrite]
  exact String.toList_ofList

/-- What follows must not go on the number, nor make it a dimension or a percentage. -/
theorem readsBack_number (hn : n.HasOneSign) (hr : (Token.number n).Parted r) :
    (Token.number n).ReadsBack r := by
  obtain ⟨hident, hdigit, hpoint, hpercent⟩ := hr
  obtain ⟨m, hm, hwrite⟩ := exists_write_eq_text hn
  have hread := readNumeral_text_append hm (stopsNumeral_of_startsIdent hident hdigit hpoint)
  have hreads := Reads.number (startsNumber_text_append hm r) hread hident hpercent
  have hbody : (Token.number n).body = m.text := hwrite
  rw [← hbody] at hreads
  refine readsBack_of_reads hreads ?_ rfl (Trace.reported_taking _)
  rw [Token.reread, reread_of_write hm hwrite]

theorem readsBack_percentage (hn : n.HasOneSign) : (Token.percentage n).ReadsBack r := by
  obtain ⟨m, hm, hwrite⟩ := exists_write_eq_text hn
  have hstops : StopsNumeral ('%' :: r) := ⟨rfl, by simp, rfl⟩
  have hread := readNumeral_text_append hm hstops
  have hreads := Reads.percentage (startsNumber_text_append hm _) hread
  have hbody : (Token.percentage n).body ++ r = m.text ++ '%' :: r := by
    show n.write ++ ['%'] ++ r = _
    simp [hwrite]
  rw [← hbody] at hreads
  refine readsBack_of_reads hreads ?_ rfl (Trace.reported_taking _)
  rw [Token.reread, reread_of_write hm hwrite]

theorem stopsNumeral_of_head {c : Char} (hdigit : c.isDigit = false)
    (hc : c ≠ '.' ∧ c ≠ 'e' ∧ c ≠ 'E') (s : List Char) : StopsNumeral (c :: s) := by
  refine ⟨hdigit, ?_, ?_⟩
  · rintro t h
    exact absurd (List.cons.inj h).1 hc.1
  · have hmark : ¬ (c = 'e' ∨ c = 'E') := not_or.2 hc.2
    simp [readExponent, hmark]

/-- Behind an `e` that is not escaped stands neither a digit nor a sign. -/
theorem readExponent_of_not_looksLike {c : Char} {u : List Char} (h0 : '\x00' ∉ u)
    (h : looksLikeExponent (c :: u) = false) (r : List Char) :
    readExponent (c :: (writeName u ++ r)) = (none, c :: (writeName u ++ r)) := by
  -- the unit is checked for what could be an exponent, and what is escaped begins none
  have hstop : c = 'e' ∨ c = 'E' → startsDigit (readSign (writeName u ++ r)).2 = false := by
    intro hmark
    cases u with
    | nil => rcases hmark with rfl | rfl <;> contradiction
    | cons d u =>
      have hd : d ≠ '-' ∧ d.isDigit = false := by
        rcases hmark with rfl | rfl <;> simpa [looksLikeExponent] using h
      have hd0 : d ≠ '\x00' := by
        rintro rfl
        simp at h0
      rw [writeName, List.flatMap_cons, List.append_assoc]
      rcases writeNameChar_append_cases hd0 (u.flatMap writeNameChar ++ r) with ⟨hname, heq⟩ | hescape
      · have hplus : d ≠ '+' := by
          rintro rfl
          contradiction
        rw [heq]
        simp [readSign, hplus, hd, startsDigit]
      · obtain ⟨t, ht, _⟩ := startsEscape_iff.1 hescape
        rw [ht]
        rfl
  simp only [readExponent]
  split
  · next hexponent =>
    rw [hstop hexponent.1] at hexponent
    simp at hexponent
  · rfl

/-- A written unit does not go on the number before it. -/
theorem stopsNumeral_writeUnit {u : List Char} (hu : IsName u) (r : List Char) :
    StopsNumeral (writeUnit u ++ r) := by
  obtain ⟨hne, h0⟩ := hu
  have hback (s : List Char) : StopsNumeral ('\\' :: s) :=
    stopsNumeral_of_head (by decide) (by decide) s
  have hhyphen (s : List Char) : StopsNumeral ('-' :: s) :=
    stopsNumeral_of_head (by decide) (by decide) s
  cases u with
  | nil => contradiction
  | cons c u =>
    rw [writeUnit]
    split
    · exact hback _
    · -- an escape or a hyphen stops the number, and a first letter is no exponent
      next hexponent =>
      rw [Bool.not_eq_true] at hexponent
      generalize hn : c :: u = n
      fun_cases writeIdent n with
      | case1 => exact hback _
      | case2 => exact hhyphen _
      | case3 => exact hhyphen _
      | case4 =>
        subst hn
        simp only [List.mem_cons, not_or] at h0
        rcases writeNoDigitFirst_append_cases (n := u) (Ne.symm h0.1) r with
          ⟨hname, hdigit, heq⟩ | hescape
        · rw [heq]
          refine ⟨hdigit, ?_, readExponent_of_not_looksLike h0.2 hexponent r⟩
          rintro t h
          rw [(List.cons.inj h).1] at hname
          contradiction
        · obtain ⟨s, hs, _⟩ := startsEscape_iff.1 hescape
          rw [hs]
          exact hback s

/-- The unit does not go on the number, and what follows does not go on the unit. -/
theorem readsBack_dimension {unit : String} (hn : n.HasOneSign) (hu : IsName unit.toList)
    (hr : (Token.dimension n unit).Parted r) : (Token.dimension n unit).ReadsBack r := by
  obtain ⟨m, hm, hwrite⟩ := exists_write_eq_text hn
  have hread := readNumeral_text_append hm (stopsNumeral_writeUnit hu r)
  have hreads := Reads.dimension (startsNumber_text_append hm _) hread
    (startsIdent_writeUnit hu.1 hu.2 hr.2)
  have hbody : (Token.dimension n unit).body ++ r = m.text ++ (writeUnit unit.toList ++ r) := by
    show n.write ++ writeUnit unit.toList ++ r = _
    simp [hwrite]
  rw [(spellsName_writeUnit hu.2).readName_append hr.1, ← hbody] at hreads
  refine readsBack_of_reads hreads ?_ rfl ?_
  · simp [Reading.map, Reading.after, Token.reread, reread_of_write hm hwrite]
  · simp [Reading.map, Reading.after, Token.reports]

end

section

variable {text : String} {r : List Char}

theorem readsBack_whitespace (hne : text.toList ≠ []) (hwhite : ∀ c ∈ text.toList, isWhitespace c = true)
    (hr : r.head?.any isWhitespace = false) : (Token.whitespace text).ReadsBack r := by
  obtain ⟨hrun, hrest⟩ := takeWhile_append_stop hwhite hr
  have hreads : Reads (text.toList ++ r) (readWhitespace (text.toList ++ r)) := by
    cases htext : text.toList with
    | nil => contradiction
    | cons c w => exact .whitespace (hwhite c (by rw [htext]; exact List.mem_cons_self))
  refine readsBack_of_reads hreads ?_ hrest ?_
  · simp only [readWhitespace, hrun, String.ofList_toList]
    rfl
  · exact Trace.reported_taking _

/-- Every code point has a byte, by which the length of a comment is compared with its size. -/
theorem length_le_utf8ByteSize (l : List Char) : l.length ≤ (String.ofList l).utf8ByteSize := by
  induction l with
  | nil => exact Nat.zero_le _
  | cons c l ih =>
    have hsplit : String.ofList (c :: l) = String.singleton c ++ String.ofList l := by simp
    have hpos := c.utf8Size_pos
    rw [hsplit, String.utf8ByteSize_append, String.utf8ByteSize_singleton, List.length_cons]
    omega

/-- Four bytes and a `*/` at the end tell the comments that are closed from those that are not: of the
shorter ones only `/*/` has that end, and its asterisk belongs to the opening. -/
theorem isClosedComment_iff {y : List Char} (htext : text.toList = '/' :: '*' :: y)
    (hy : ClosesComment y ∨ ¬ ['*', '/'] <:+: y) : isClosedComment text = true ↔ ClosesComment y := by
  have hof : text = String.ofList ('/' :: '*' :: y) := by rw [← htext, String.ofList_toList]
  rw [isClosedComment, htext, Bool.and_eq_true, decide_eq_true_eq, List.isSuffixOf_iff_suffix]
  constructor
  · rintro ⟨hsize, hsuffix⟩
    have htail : y = ['/'] ∨ ['*', '/'] <:+ y := by
      rw [List.suffix_cons_iff, List.suffix_cons_iff] at hsuffix
      rcases hsuffix with h | h | h
      · simp at h
      · exact Or.inl (by simpa using h.symm)
      · exact Or.inr h
    rcases htail with rfl | hend
    · -- `/*/` has three bytes only
      rw [hof] at hsize
      contradiction
    · exact hy.resolve_right fun hno => hno hend.isInfix
  · rintro ⟨x, rfl, _⟩
    constructor
    · have hlength := length_le_utf8ByteSize ('/' :: '*' :: (x ++ ['*', '/']))
      rw [← hof] at hlength
      simp only [List.length_cons, List.length_append] at hlength
      omega
    · exact ⟨'/' :: '*' :: x, rfl⟩

/-- A comment that is closed is written as it is. -/
theorem write_of_isComment (h : IsComment text.toList) : (Token.comment text).write = text.toList := by
  obtain ⟨y, htext, hy⟩ := h
  show text.toList ++ (if isClosedComment text then [] else ['*', '/']) = _
  rw [if_pos ((isClosedComment_iff htext (Or.inl hy)).2 hy), List.append_nil]

/-- To one that is not closed a `*/` is added. -/
theorem write_of_isOpenComment (h : IsOpenComment text.toList) :
    (Token.comment text).write = text.toList ++ ['*', '/'] := by
  have hnot := h.not_isComment
  obtain ⟨y, htext, hy⟩ := h
  have hopen : ¬ isClosedComment text = true := fun hclosed =>
    hnot ⟨y, htext, (isClosedComment_iff htext (Or.inr hy)).1 hclosed⟩
  show text.toList ++ (if isClosedComment text then [] else ['*', '/']) = _
  rw [if_neg hopen]

theorem Token.Lexical.comment_cases (h : (Token.comment text).Lexical) :
    IsComment text.toList ∨ IsOpenComment text.toList := by
  obtain ⟨_, y, htext, hy | hy⟩ := h
  · exact Or.inl ⟨y, htext, hy⟩
  · exact Or.inr ⟨y, htext, hy⟩

/-- What is written for a comment is one comment, whatever it was. -/
theorem isComment_write (h : (Token.comment text).Lexical) : IsComment (Token.comment text).write := by
  rcases h.comment_cases with hclosed | hopen
  · rwa [write_of_isComment hclosed]
  · -- the `*/` that is added is the first
    rw [write_of_isOpenComment hopen]
    obtain ⟨y, htext, hy⟩ := hopen
    exact ⟨y ++ ['*', '/'], by rw [htext]; rfl, closesComment_append hy⟩

/-- A comment that is written is closed, so anything may follow. -/
theorem readsBack_comment (h : (Token.comment text).Lexical) : (Token.comment text).ReadsBack r := by
  have hwrite : IsComment (Token.comment text).body := isComment_write h
  have hreads := Reads.comment (hwrite.startsComment_append r)
  rw [readComment_append hwrite] at hreads
  exact readsBack_of_reads hreads rfl rfl (Trace.reported_taking _)

end

/-- A single code point stands for itself, unless it is a backslash. -/
theorem body_delim {c : Char} (hc : c ≠ '\\') :
    (Token.delim c).body = [c] ∧ (Token.delim c).reports = [] := by
  constructor
  · unfold Token.body
    split
    · next h => exact absurd (Token.delim.inj h) hc
    · contradiction
    · unfold Token.write
      split <;> first | contradiction | simp_all
  · unfold Token.reports
    split <;> first | contradiction | simp_all

/-- **Every token is read back from its body**, with the errors that belong to it and no others. -/
theorem readToken_body_append {t : Token} {r : List Char} (ht : t.Lexical) (hr : t.Parted r) :
    t.ReadsBack r := by
  cases t with
  | endOfInput => contradiction
  | ident name => exact readsBack_ident ht hr
  | function name => exact readsBack_function ht hr
  | atKeyword name => exact readsBack_atKeyword ht hr
  | hash kind name =>
    cases kind with
    | id =>
      exact readsBack_hash (spellsName_writeIdent ht.2) ht.1 hr.1
        (if_pos (startsIdent_writeIdent ht.1 ht.2 hr.2)) rfl
    | unrestricted =>
      have hne : name.toList ≠ [] := by
        rcases ht.1 with h | h | ⟨d, m, _, h | h⟩ <;> simp [h]
      refine readsBack_hash (spellsName_writeName ht.2) hne hr.1 ?_ rfl
      rw [startsIdent_writeName_loose ht.1 hr.1 hr.2]
      rfl
  | string text => exact readsBack_string ht
  | badString text => exact readsBack_badString ht hr
  | url text => exact readsBack_url ht
  | badUrl text => exact readsBack_badUrl ht
  | number n => exact readsBack_number ht hr
  | percentage n => exact readsBack_percentage ht
  | dimension n unit => exact readsBack_dimension ht.1 ht.2 hr
  | whitespace text => exact readsBack_whitespace ht.1 ht.2 hr
  | comment text => exact readsBack_comment ht
  -- signs are read as themselves, whatever follows
  | cdo => exact readsBack_of_reads .cdo rfl rfl rfl
  | cdc => exact readsBack_of_reads .cdc rfl rfl rfl
  | punctuation p => exact readsBack_of_reads .punctuation rfl rfl rfl
  | delim c =>
    rcases hr with ⟨rfl, hline⟩ | hdelim
    · cases r with
      | nil => contradiction
      | cons d s =>
        obtain rfl : d = '\n' := by simpa using hline
        exact readsBack_of_reads .strayBackslash rfl rfl rfl
    · obtain ⟨hbody, hreports⟩ := body_delim hdelim.back
      have hread : Reads ((Token.delim c).body ++ r) ⟨.delim c, r, [.take c]⟩ := by
        rw [hbody]
        exact .delim hdelim
      exact readsBack_of_reads hread rfl rfl hreports.symm

end CssLex
