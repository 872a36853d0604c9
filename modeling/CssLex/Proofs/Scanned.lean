import CssLex.Proofs.Spelling

/-!
# CssLex — tokens that have been read

Whatever is read from a normal text is `Token.Lexical`: names are not empty, no text has a NUL in it, and
numbers have one sign (`lexical_readToken`). A name that is read where no identifier begins is loose:
there are four ways for a text to begin with such a name (`not_startsIdent_cases`).
-/

namespace CssLex

/-- What a reading leaves of a normal text is normal, so the same may be said of the next one. -/
theorem Reading.Splits.isNormal_rest {α : Type} {r : Reading α} {s : List Char} (h : r.Splits s)
    (hs : IsNormal s) : IsNormal r.rest := by
  rw [← h, isNormal_append_iff] at hs
  exact hs.2

/-! ## Free of NUL

A text without NUL has none put into its tokens either: code points are copied from it, or are the value of an
escape, and that is never NUL (`scalarOf_ne_nul`). Each reader gets this by induction along its own recursion.
-/

/-- An escape of zero means the replacement character, as every value does that is not a scalar. -/
theorem scalarOf_ne_nul (n : Nat) : scalarOf n ≠ '\x00' := by
  unfold scalarOf
  split
  · decide
  · next hn =>
    rw [not_or, Classical.not_not] at hn
    have hnat : (Char.ofNat n).toNat = n := toNat_ofNat_of_isValidChar hn.2
    intro h
    rw [h] at hnat
    exact hn.1 hnat.symm

/-- So no escape brings a NUL in: its value is what digits say, a code point of the text itself, or at the end
of the text the replacement character. -/
theorem value_readEscape_ne_nul {s : List Char} (hs : IsNormal s) : (readEscape s).value ≠ '\x00' := by
  unfold readEscape
  split
  · decide
  · next c t =>
    split
    · exact scalarOf_ne_nul _
    · exact (isNormal_cons_iff.1 hs).1.2.2

/-- Names have no NUL in them. -/
theorem not_mem_value_readName {s : List Char} (hs : IsNormal s) : '\x00' ∉ (readName s).value := by
  fun_induction readName s with
  | case1 => simp
  | case2 c s _ ih =>
    obtain ⟨hc, hs⟩ := isNormal_cons_iff.1 hs
    exact List.not_mem_cons_of_ne_of_not_mem hc.2.2.symm (ih hs)
  | case3 c s _ _ escaped ih =>
    obtain ⟨_, hs⟩ := isNormal_cons_iff.1 hs
    exact List.not_mem_cons_of_ne_of_not_mem (value_readEscape_ne_nul hs).symm
      (ih ((readEscape_splits s).isNormal_rest hs))
  | case4 => simp

theorem not_mem_text_readQuoted {q : Char} {s : List Char} (hs : IsNormal s) :
    '\x00' ∉ (readQuoted q s).value.text := by
  fun_induction readQuoted q s with
  | case1 => simp [Literal.closed]
  | case2 => simp [Literal.closed]
  | case3 => simp [Literal.damaged]
  | case4 => simp [Literal.closed]
  -- an escaped newline is left out of the string
  | case5 t _ _ ih => exact ih (isNormal_cons_iff.1 (isNormal_cons_iff.1 hs).2).2
  | case6 d t _ _ _ escaped ih =>
    obtain ⟨_, hs⟩ := isNormal_cons_iff.1 hs
    exact List.not_mem_cons_of_ne_of_not_mem (value_readEscape_ne_nul hs).symm
      (ih ((readEscape_splits _).isNormal_rest hs))
  | case7 c s _ _ _ ih =>
    obtain ⟨hc, hs⟩ := isNormal_cons_iff.1 hs
    exact List.not_mem_cons_of_ne_of_not_mem hc.2.2.symm (ih hs)

theorem text_closeUrl (s : List Char) : (closeUrl s).value.text = [] := by
  unfold closeUrl
  split <;> rfl

/-- Nor have the texts of strings and urls, also of damaged ones, which keep what was read before the damage.
-/
theorem not_mem_text_readUrlText {s : List Char} (hs : IsNormal s) :
    '\x00' ∉ (readUrlText s).value.text := by
  fun_induction readUrlText s with
  | case1 => simp [text_closeUrl]
  | case2 c s _ => simp [text_closeUrl]
  | case3 s => simp [text_closeUrl]
  | case4 c s => simp [Literal.damaged]
  | case5 s _ _ _ _ escaped ih =>
    obtain ⟨_, hs⟩ := isNormal_cons_iff.1 hs
    exact List.not_mem_cons_of_ne_of_not_mem (value_readEscape_ne_nul hs).symm
      (ih ((readEscape_splits s).isNormal_rest hs))
  | case6 s => simp [Literal.damaged]
  | case7 c s _ _ _ _ ih =>
    obtain ⟨hc, hs⟩ := isNormal_cons_iff.1 hs
    exact List.not_mem_cons_of_ne_of_not_mem hc.2.2.symm (ih hs)

theorem not_mem_text_readUrl {s : List Char} (hs : IsNormal s) : '\x00' ∉ (readUrl s).value.text :=
  not_mem_text_readUrlText (hs.of_sublist (List.dropWhile_sublist _))

/-! ## Names

Where a name begins, something is read. Whether it may stand where an identifier does depends on its first
three code points; where it may not, there are only the four beginnings of `IsLooseName`. -/

theorem value_readName_ne_nil {s : List Char} (h : startsName s = true) :
    (readName s).value ≠ [] := by
  fun_cases readName s with
  | case1 => contradiction
  | case2 => simp
  | case3 => simp
  | case4 c s hc hescape => simp [startsName, hc, hescape] at h

/-- What is read where a name begins can be written as one. -/
theorem isName_value_readName {s : List Char} (hs : IsNormal s) (h : startsName s = true) :
    IsName (readName s).value :=
  ⟨value_readName_ne_nil h, not_mem_value_readName hs⟩

/-- A plain code point of a name is kept as it is, so the beginning of the text shows in the name. -/
theorem value_readName_cons {c : Char} (hc : isNameChar c = true) (s : List Char) :
    (readName (c :: s)).value = c :: (readName s).value := by
  rw [readName, if_pos hc]
  rfl

/-- Where no identifier begins, a name begins with a digit, or with a hyphen and no letter behind it. -/
theorem not_startsIdent_cases {s : List Char} (hname : startsName s = true)
    (hident : startsIdent s = false) :
    (∃ d t, s = d :: t ∧ d.isDigit = true) ∨ (∃ t, s = '-' :: t ∧ startsName t = false) ∨
      (∃ d t, s = '-' :: d :: t ∧ d.isDigit = true) ∨ ∃ t, s = '-' :: '-' :: '>' :: t := by
  cases s with
  | nil => contradiction
  | cons c s =>
    rw [Bool.eq_false_iff, ne_eq, startsIdent_cons_iff, not_or, not_or, not_and, not_or, not_or] at hident
    obtain ⟨hstart, hescape, hhyphen⟩ := hident
    have hc : isNameChar c = true := by simpa [startsName, hescape] using hname
    by_cases hdigit : c.isDigit = true
    · exact Or.inl ⟨c, s, rfl, hdigit⟩
    · -- a name code point that begins no name is a digit or a hyphen
      right
      obtain rfl : c = '-' := by
        refine Classical.byContradiction fun hne => hstart ?_
        exact isNameStart_of_isNameChar hc (by simpa using hdigit) hne
      obtain ⟨hnext, hescape, hdouble⟩ := hhyphen rfl
      cases s with
      | nil => exact Or.inl ⟨[], rfl, rfl⟩
      | cons d t =>
        by_cases hd : isNameChar d = true
        · right
          by_cases hdigit : d.isDigit = true
          · exact Or.inl ⟨d, t, rfl, hdigit⟩
          · right
            obtain rfl : d = '-' := by
              refine Classical.byContradiction fun hne => hnext ?_
              exact isNameStart_of_isNameChar hd (by simpa using hdigit) hne
            have hhead : t.head? = some '>' :=
              Classical.byContradiction fun hne => hdouble ⟨t, rfl, hne⟩
            cases t with
            | nil => contradiction
            | cons e t =>
              obtain rfl : e = '>' := by simpa using hhead
              exact ⟨t, rfl⟩
        · left
          refine ⟨d :: t, rfl, ?_⟩
          simp only [startsName, List.head?_cons, Option.any_some, Bool.or_eq_false_iff]
          exact ⟨by simpa using hd, by simpa using hescape⟩

/-- The name of a hash that is no identifier is loose: the four beginnings, read one after another. -/
theorem isLooseName_value_readName {s : List Char} (hname : startsName s = true)
    (hident : startsIdent s = false) : IsLooseName (readName s).value := by
  have hhyphen : isNameChar '-' = true := by decide
  rcases not_startsIdent_cases hname hident with
    ⟨d, t, rfl, hd⟩ | ⟨t, rfl, ht⟩ | ⟨d, t, rfl, hd⟩ | ⟨t, rfl⟩
  · rw [value_readName_cons (isNameChar_of_isDigit hd)]
    exact Or.inr (Or.inr ⟨d, _, hd, Or.inl rfl⟩)
  · rw [value_readName_cons hhyphen, readName_of_not_startsName ht]
    exact Or.inl rfl
  · rw [value_readName_cons hhyphen, value_readName_cons (isNameChar_of_isDigit hd)]
    exact Or.inr (Or.inr ⟨d, _, hd, Or.inr rfl⟩)
  · rw [readName_arrow]
    exact Or.inr (Or.inl rfl)

/-! ## Tokens

The conditions of `Token.Lexical` are brought together over the outcomes of `readToken`, each kind of text
from its own reader. -/

/-- A comment token is the text of the comment from its opening on, up to the first close or without one. -/
theorem exists_value_readComment {s : List Char} (h : startsComment s = true) :
    ∃ y, (readComment s).value = '/' :: '*' :: y ∧ (ClosesComment y ∨ ¬ ['*', '/'] <:+: y) ∧
      ('/' :: '*' :: y).Sublist s := by
  obtain ⟨t, rfl⟩ := startsComment_iff.1 h
  have hbody : (ClosesComment (readCommentBody t).value ∨ ¬ ['*', '/'] <:+: (readCommentBody t).value) ∧
      (readCommentBody t).value.Sublist t := by
    -- a close ends the body; without one it goes on to the end of the text
    rcases readCommentBody_cases t with ⟨y, r, rfl, hy⟩ | hopen
    · rw [readCommentBody_append hy]
      exact ⟨Or.inl hy, List.sublist_append_left y r⟩
    · rw [readCommentBody_unclosed hopen]
      exact ⟨Or.inr hopen, List.Sublist.refl t⟩
  exact ⟨_, rfl, hbody.1, (hbody.2.cons_cons '*').cons_cons '/'⟩

/-- A string and a cut string ask the same of their text. -/
theorem lexical_stringToken {l : Literal} (h : '\x00' ∉ l.text) : l.stringToken.Lexical := by
  have htext : '\x00' ∉ (String.ofList l.text).toList := by rwa [String.toList_ofList]
  rcases stringToken_cases l with hl | hl <;> rw [hl] <;> exact htext

theorem lexical_urlToken {l : Literal} (h : '\x00' ∉ l.text) : l.urlToken.Lexical := by
  have htext : '\x00' ∉ (String.ofList l.text).toList := by rwa [String.toList_ofList]
  rcases urlToken_cases l with hl | hl <;> rw [hl] <;> exact htext

/-- What a numeral leaves of a normal text is normal, which the unit of a dimension needs. -/
theorem isNormal_rest_readNumeral {s r : List Char} {m : Numeral} (hs : IsNormal s)
    (hm : readNumeral s = (m, r)) : IsNormal r := by
  have happend := text_readNumeral_append s
  rw [hm] at happend
  rw [← happend, isNormal_append_iff] at hs
  exact hs.2

/-- The name that is read where an identifier begins, and the text behind it. -/
theorem isName_of_startsIdent {s n r : List Char} {t : Trace} (hs : IsNormal s)
    (h : startsIdent s = true) (hn : readName s = ⟨n, r, t⟩) :
    IsName (String.ofList n).toList ∧ IsNormal r := by
  have hname := isName_value_readName hs (startsName_of_startsIdent h)
  have hrest := (readName_splits s).isNormal_rest hs
  rw [hn] at hname hrest
  rw [String.toList_ofList]
  exact ⟨hname, hrest⟩

/-- **What is read from a normal text could have been read.** -/
theorem lexical_readToken {s : List Char} (hs : IsNormal s) (h : s ≠ []) :
    (readToken s).value.Lexical := by
  have hreads := reads_readToken h
  generalize readToken s = reading at hreads
  cases hreads with
  | comment hcomment =>
    obtain ⟨y, hvalue, hy, hsub⟩ := exists_value_readComment hcomment
    simp only [Reading.value_map, Token.Lexical, String.toList_ofList, hvalue]
    exact ⟨hs.of_sublist hsub, y, rfl, hy⟩
  | @whitespace c s hw =>
    simp only [readWhitespace, Token.Lexical, String.toList_ofList]
    constructor
    · simp [hw]
    · exact List.all_eq_true.1 List.all_takeWhile
  | @dimension _ r m hnum hm hr =>
    have hunit := (isName_of_startsIdent (isNormal_rest_readNumeral hs hm) hr rfl).1
    exact ⟨hasOneSign_toNumeric m, hunit⟩
  | percentage => exact hasOneSign_toNumeric _
  | number => exact hasOneSign_toNumeric _
  | ident hident hn => exact (isName_of_startsIdent hs hident hn).1
  | function hident hn => exact (isName_of_startsIdent hs hident hn).1
  | urlFunction hident hn => exact (isName_of_startsIdent hs hident hn).1
  | url hident hn =>
    have hrest := (isName_of_startsIdent hs hident hn).2
    exact lexical_urlToken (not_mem_text_readUrl (isNormal_cons_iff.1 hrest).2)
  | strayBackslash => exact ⟨(isNormal_cons_iff.2 ⟨by decide, isNormal_nil⟩), by decide⟩
  | string hq =>
    exact lexical_stringToken (not_mem_text_readQuoted (isNormal_cons_iff.1 hs).2)
  | @hash s hname =>
    have hs := (isNormal_cons_iff.1 hs).2
    simp only [Reading.value_after, Reading.value_map]
    -- the hash is an id exactly where an identifier begins
    by_cases hident : startsIdent s = true
    · rw [if_pos hident]
      exact (isName_of_startsIdent hs hident rfl).1
    · rw [if_neg hident, Token.Lexical, String.toList_ofList]
      exact ⟨isLooseName_value_readName hname (by simpa using hident), not_mem_value_readName hs⟩
  | atKeyword hident => exact (isName_of_startsIdent (isNormal_cons_iff.1 hs).2 hident rfl).1
  | cdo => trivial
  | cdc => trivial
  | punctuation => trivial
  | @delim c s hdelim =>
    -- no number and no identifier begins with the code point, so it is neither digit nor name start
    have hnumber := Bool.eq_false_iff.1 hdelim.number
    have hident := Bool.eq_false_iff.1 hdelim.ident
    rw [ne_eq, startsNumber_cons_iff, not_or] at hnumber
    rw [ne_eq, startsIdent_cons_iff, not_or] at hident
    refine ⟨isNormal_cons_iff.2 ⟨(isNormal_cons_iff.1 hs).1, isNormal_nil⟩, hdelim.white,
      by simpa using hnumber.1, by simpa using hident.1, hdelim.quote, hdelim.mark⟩

end CssLex
