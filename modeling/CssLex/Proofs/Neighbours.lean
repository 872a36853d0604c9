import CssLex.Proofs.Lexing
import CssLex.Proofs.Scanned

/-!
# CssLex — neighbours in a text

The token that a text begins with tells how the text begins: where a name or a number could go on, the
token is one that `Token.continuesName` or `Token.beginsNumber` knows of. So what may follow a token can be
said by the tokens that follow it. `Token.Settled` is what always holds of them in a text that was read:
no whitespace follows whitespace, a newline follows where a string is cut off, a string follows a function
that has the name of a url, and a `>` follows two hyphens that are no identifier.
-/

namespace CssLex

/-! ## What the first token tells of a text

The tests that readers make on a text can be made on its first token instead. So a condition on the text
behind a token becomes one on the next token. -/

/-- The token begins with a name exactly where an identifier begins. -/
theorem beginsName_value_readToken (s : List Char) :
    (readToken s).value.beginsName = startsIdent s := by
  by_cases hs : s = []
  · rw [hs]
    rfl
  by_cases hident : startsIdent s = true
  · rw [readToken_of_startsIdent hident, hident]
    -- an identifier, a function or a url: the tokens that begin as a name does
    unfold readIdentLike
    simp only [Reading.value_after]
    split
    · split
      · simp only [Reading.value_after, readUrlArgument]
        split
        · rfl
        · rw [Reading.value_map]
          rcases urlToken_cases (readUrl _).value with h | h <;> rw [h] <;> rfl
      · rfl
    · rfl
  · have hreads := reads_readToken hs
    rw [Bool.not_eq_true] at hident
    rw [hident]
    generalize readToken s = reading at hreads
    cases hreads with
    | string =>
      simp only [Reading.value_after, Reading.value_map]
      rcases stringToken_cases (readQuoted _ _).value with h | h <;> rw [h] <;> rfl
    | ident h | function h | urlFunction h | url h =>
      rw [hident] at h
      contradiction
    | _ => rfl

/-- The token is a number exactly where a number begins. -/
theorem beginsNumber_value_readToken (s : List Char) :
    (readToken s).value.beginsNumber = startsNumber s := by
  by_cases hs : s = []
  · rw [hs]
    rfl
  -- Where a number begins it is read as one of three tokens, and where none begins the outcomes that need one
  -- are excluded.
  by_cases hnumber : startsNumber s = true
  · rw [readToken_of_startsNumber hnumber, hnumber]
    unfold readNumeric
    simp only [Reading.value_after]
    split
    · rfl
    · split <;> rfl
  · have hreads := reads_readToken hs
    rw [Bool.not_eq_true] at hnumber
    rw [hnumber]
    generalize readToken s = reading at hreads
    cases hreads with
    | string =>
      simp only [Reading.value_after, Reading.value_map]
      rcases stringToken_cases (readQuoted _ _).value with h | h <;> rw [h] <;> rfl
    | url =>
      simp only [Reading.value_after, Reading.value_map]
      rcases urlToken_cases (readUrl _).value with h | h <;> rw [h] <;> rfl
    | number h | percentage h | dimension h =>
      rw [hnumber] at h
      contradiction
    | _ => rfl

/-- Where a name could go on, the token is one that goes on a name. -/
theorem continuesName_value_readToken {s : List Char} (h : startsName s = true) :
    (readToken s).value.continuesName = true := by
  unfold Token.continuesName
  rw [beginsName_value_readToken, beginsNumber_value_readToken]
  by_cases hident : startsIdent s = true
  · rw [hident]
    rfl
  by_cases hnumber : startsNumber s = true
  · simp [hnumber]
  rw [Bool.not_eq_true] at hident hnumber
  -- a name but no identifier: a digit, a hyphen by itself, a hyphen and a digit, or the sign `-->`
  rcases not_startsIdent_cases h hident with
    ⟨d, t, rfl, hd⟩ | ⟨t, rfl, ht⟩ | ⟨d, t, rfl, hd⟩ | ⟨t, rfl⟩
  · rw [startsNumber_cons_iff.2 (Or.inl hd)] at hnumber
    contradiction
  · -- a hyphen that nothing goes on
    have hcdc : ¬ ['-', '>'] <+: t := by
      rintro ⟨u, rfl⟩
      contradiction
    have hdelim : IsDelim '-' t :=
      ⟨startsComment_of_ne (by decide) t, by decide, hnumber, hident, by decide, by decide,
        by simp, by simp, by simp, fun _ => hcdc, rfl⟩
    rw [(Reads.delim hdelim).readToken_eq]
    simp
  · have hdigits : startsDigit (d :: t) = true := hd
    rw [startsNumber_cons_iff.2 (Or.inr (Or.inr ⟨Or.inr rfl, Or.inl hdigits⟩))] at hnumber
    contradiction
  · -- two hyphens before a `>` are the sign itself
    rw [Reads.cdc.readToken_eq]
    simp

namespace Token

/-- The token is a string, damaged or not. -/
def isString : Token → Bool
  | .string _ | .badString _ => true
  | _ => false

/-- A string comes next, directly or behind one code point of whitespace. -/
def OpensString (ts : List Token) : Prop :=
  ∃ u us, u.isString = true ∧
    (ts = u :: us ∨ ∃ c, isWhitespace c = true ∧ ts = .whitespace (.ofList [c]) :: u :: us)

/-- What follows the token is what always follows it in a text. -/
def Settled (t : Token) (ts : List Token) : Prop :=
  match t with
  | .whitespace _ => ∀ w, ts.head? ≠ some (.whitespace w)
  | .delim '\\' | .badString _ =>
      ∃ w, ts.head? = some (.whitespace (.ofList ('\n' :: w)))
  | .hash .unrestricted name => name.toList = ['-', '-'] → ts.head? = some (.delim '>')
  | .function name => isUrlName name.toList = true → OpensString ts
  | _ => True

end Token

/-! ## What follows a token in its text

Some tokens end where they do because of what follows, and that is read as the next token: a newline, a
string, a `>`. What follows is looked up where the reader of the first token stopped. -/

/-- The tokens of a text. -/
def tokensOf (s : List Char) : List Token :=
  (readTokens s).map (·.value)

theorem tokensOf_nil : tokensOf [] = [] := by
  rw [tokensOf, readTokens_nil]
  rfl

theorem tokensOf_of_ne_nil {s : List Char} (h : s ≠ []) :
    tokensOf s = (readToken s).value :: tokensOf (readToken s).rest := by
  rw [tokensOf, readTokens_of_ne_nil h]
  rfl

theorem head?_of_value_eq_whitespace {s : List Char} {w : String}
    (h : (readToken s).value = .whitespace w) : s.head?.any isWhitespace = true := by
  by_cases hs : s = []
  · rw [hs] at h
    contradiction
  have hreads := reads_readToken hs
  generalize readToken s = reading at hreads h
  cases hreads with
  | whitespace hw => exact hw
  | string =>
    simp only [Reading.value_after, Reading.value_map] at h
    rcases stringToken_cases (readQuoted _ _).value with h' | h' <;> rw [h'] at h <;> contradiction
  | url =>
    simp only [Reading.value_after, Reading.value_map] at h
    rcases urlToken_cases (readUrl _).value with h' | h' <;> rw [h'] at h <;> contradiction
  | _ => contradiction

/-- A newline is read as whitespace that begins with it. -/
theorem tokensOf_newline (s : List Char) :
    ∃ w ts, tokensOf ('\n' :: s) = .whitespace (.ofList ('\n' :: w)) :: ts := by
  refine ⟨s.takeWhile isWhitespace, tokensOf (s.dropWhile isWhitespace), ?_⟩
  rw [tokensOf_of_ne_nil (by simp), (Reads.whitespace (by decide)).readToken_eq]
  rfl

theorem tokensOf_quote {q : Char} (hq : q = '"' ∨ q = '\'') (s : List Char) :
    ∃ u us, u.isString = true ∧ tokensOf (q :: s) = u :: us := by
  refine ⟨(readQuoted q s).value.stringToken, tokensOf (readQuoted q s).rest, ?_, ?_⟩
  · rcases stringToken_cases (readQuoted q s).value with h | h <;> rw [h] <;> rfl
  · rw [tokensOf_of_ne_nil (by simp), (Reads.string hq).readToken_eq]
    rfl

theorem tokensOf_greater (s : List Char) : tokensOf ('>' :: s) = .delim '>' :: tokensOf s := by
  rw [tokensOf_of_ne_nil (by simp), readToken_of_isMark _ (by decide)]
  rfl

/-- A string is damaged by a newline, which is left. -/
theorem rest_readQuoted_of_damaged {q : Char} {s : List Char}
    (h : (readQuoted q s).value.intact = false) : ∃ t, (readQuoted q s).rest = '\n' :: t := by
  fun_induction readQuoted q s with
  | case1 => contradiction
  | case2 => contradiction
  | case3 s => exact ⟨s, rfl⟩
  | case4 => contradiction
  | case5 t _ _ ih => exact ih h
  | case6 d t _ _ _ escaped ih => exact ih h
  | case7 c s _ _ _ ih => exact ih h

/-- Behind `url(` and all but one of its whitespace a string follows. -/
theorem opensString_drop {r : List Char} (hq : quoteFollows r = true) :
    Token.OpensString (tokensOf (r.drop (r.takeWhile isWhitespace).dropLast.length)) := by
  have hr : r.takeWhile isWhitespace ++ r.dropWhile isWhitespace = r :=
    List.takeWhile_append_dropWhile
  obtain ⟨q, s, hdrop, hquote⟩ : ∃ q s, r.dropWhile isWhitespace = q :: s ∧ (q = '"' ∨ q = '\'') := by
    unfold quoteFollows at hq
    cases hdrop : r.dropWhile isWhitespace with
    | nil => simp [hdrop] at hq
    | cons q s => exact ⟨q, s, rfl, by simpa [hdrop] using hq⟩
  obtain ⟨u, us, hu, htokens⟩ := tokensOf_quote hquote s
  have hwhite : ∀ c ∈ r.takeWhile isWhitespace, isWhitespace c = true :=
    List.all_eq_true.1 List.all_takeWhile
  rw [hdrop] at hr
  generalize r.takeWhile isWhitespace = w at hr hwhite
  subst hr
  refine ⟨u, us, hu, ?_⟩
  -- of the whitespace only its last code point is left
  rcases List.eq_nil_or_concat w with rfl | ⟨v, c, rfl⟩
  · exact Or.inl htokens
  · right
    have hc := hwhite c (by simp)
    refine ⟨c, hc, ?_⟩
    have hnext : isWhitespace q = false := by rcases hquote with rfl | rfl <;> rfl
    rw [List.concat_eq_append, List.dropLast_concat, List.append_assoc, List.drop_left,
      List.singleton_append, tokensOf_of_ne_nil (by simp), (Reads.whitespace hc).readToken_eq]
    simp only [readWhitespace, List.takeWhile_cons, List.dropWhile_cons, hc, hnext, if_true]
    rw [← htokens]
    rfl

/-- What follows a loose `--` is the `>` that kept it from being an identifier. -/
theorem rest_readName_of_double_hyphen {s : List Char} (hname : startsName s = true)
    (hident : startsIdent s = false) (hvalue : (readName s).value = ['-', '-']) :
    ∃ t, (readName s).rest = '>' :: t := by
  have hhyphen : isNameChar '-' = true := by decide
  -- of the names that are no identifiers only the sign `-->` has two hyphens in front
  rcases not_startsIdent_cases hname hident with
    ⟨d, t, rfl, hd⟩ | ⟨t, rfl, ht⟩ | ⟨d, t, rfl, hd⟩ | ⟨t, rfl⟩
  · rw [value_readName_cons (isNameChar_of_isDigit hd)] at hvalue
    rw [(List.cons.inj hvalue).1] at hd
    contradiction
  · rw [value_readName_cons hhyphen, readName_of_not_startsName ht] at hvalue
    simp at hvalue
  · rw [value_readName_cons hhyphen, value_readName_cons (isNameChar_of_isDigit hd)] at hvalue
    rw [(List.cons.inj (List.cons.inj hvalue).2).1] at hd
    contradiction
  · exact ⟨t, congrArg Reading.rest (readName_arrow t)⟩

/-- **Every token is followed in its text by what it always is followed by.** -/
theorem settled_readToken {s : List Char} (h : s ≠ []) :
    (readToken s).value.Settled (tokensOf (readToken s).rest) := by
  have hreads := reads_readToken h
  generalize readToken s = reading at hreads
  cases hreads with
  | @whitespace c s hw =>
    intro w hhead
    -- all whitespace is taken, so none is read behind it
    have hstop : ((c :: s).dropWhile isWhitespace).head?.any isWhitespace = false :=
      head?_dropWhile _ _
    have hrest : (readWhitespace (c :: s)).rest = (c :: s).dropWhile isWhitespace := rfl
    rw [hrest] at hhead
    generalize (c :: s).dropWhile isWhitespace = r at hstop hhead
    by_cases hr : r = []
    · rw [hr, tokensOf_nil] at hhead
      contradiction
    · rw [tokensOf_of_ne_nil hr] at hhead
      rw [head?_of_value_eq_whitespace (Option.some.inj hhead)] at hstop
      contradiction
  | @urlFunction _ n r t hident hn hu hq => exact fun _ => opensString_drop hq
  | @function _ n r t hident hn hu =>
    intro hurl
    rw [String.toList_ofList, hu] at hurl
    contradiction
  | url =>
    simp only [Reading.value_after, Reading.value_map]
    rcases urlToken_cases (readUrl _).value with h' | h' <;> rw [h'] <;> trivial
  | @strayBackslash s =>
    obtain ⟨w, ts, htokens⟩ := tokensOf_newline s
    exact ⟨w, by rw [htokens]; rfl⟩
  | @string q s hq =>
    simp only [Reading.value_after, Reading.value_map, Reading.rest_after, Reading.rest_map,
      Literal.stringToken]
    split
    · trivial
    · next hdamaged =>
      -- the newline that damages a string begins the whitespace behind it
      obtain ⟨t, ht⟩ := rest_readQuoted_of_damaged (by simpa using hdamaged)
      obtain ⟨w, ts, htokens⟩ := tokensOf_newline t
      exact ⟨w, by rw [ht, htokens]; rfl⟩
  | @hash s hname =>
    simp only [Reading.value_after, Reading.value_map, Reading.rest_after, Reading.rest_map]
    split
    · trivial
    · next hident =>
      intro hvalue
      rw [String.toList_ofList] at hvalue
      obtain ⟨t, ht⟩ := rest_readName_of_double_hyphen hname (by simpa using hident) hvalue
      rw [ht, tokensOf_greater]
      rfl
  | @delim c s hdelim =>
    unfold Token.Settled
    split
    · contradiction
    · next h => exact absurd (Token.delim.inj h) hdelim.back
    all_goals first | contradiction | trivial
  | _ => trivial

end CssLex
