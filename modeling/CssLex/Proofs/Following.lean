import CssLex.Proofs.Grammar
import CssLex.Proofs.Neighbours
import Mathlib.Data.List.Chain

/-!
# CssLex — what follows a token in a text

Of the tokens that must be kept apart few can follow each other in a text. A token ends where it does not go
on, so what stands behind it is not what it would run into (`goesOn_readToken`): a number with a sign or
a point first is all that is left, and a lone hyphen behind an `@`. Every two neighbours of a text that was
read follow each other like this (`meets_tokensOf`).
-/

namespace CssLex

/-! ## What stands behind a token

Each kind of token ends where something does not go on. The inversion goes by the kinds: which tokens would
have to be kept apart from this one, and which of them can begin there. -/

theorem exists_source {s : List Char} {t : Token} (h : (readToken s).value = t) :
    ∃ w, t.Source w (readToken s).rest ∧ w ++ (readToken s).rest = s := by
  rw [← h]
  exact ⟨_, source_readToken s, readToken_splits s⟩

theorem head?_of_value_delim {c : Char} {s : List Char} (h : (readToken s).value = .delim c) :
    s.head? = some c := by
  obtain ⟨w, hw, hsplits⟩ := exists_source h
  rw [← hsplits, show w = [c] from hw]
  rfl

/-- A closing sign is spelled with a hyphen first. -/
theorem head?_of_value_cdc {s : List Char} (h : (readToken s).value = .cdc) : s.head? = some '-' := by
  obtain ⟨w, hw, hsplits⟩ := exists_source h
  rw [← hsplits, show w = "-->".toList from hw]
  rfl

theorem startsDigit_of_head? {c : Char} {s : List Char} (h : s.head? = some c)
    (hc : c.isDigit = false) : startsDigit s = false := by
  rw [startsDigit, h, Option.any_some, hc]

/-- What can stand behind a token that it would have to be kept apart from: a number with a sign or a
point first, which behind a name is no minus; or a lone hyphen behind an `@`. -/
inductive GoesOn (t : Token) (r : List Char) : Prop where
  | number (hdigit : startsDigit r = false) (hnumber : startsNumber r = true)
      (hminus : t.mustSeparate (.delim '-') = true → r.head? ≠ some '-')
  | hyphen (ht : t = .delim '@') (hr : r.head? = some '-') (hident : startsIdent r = false)
      (hnumber : startsNumber r = false)

/-- In neither case a digit stands there. -/
theorem GoesOn.startsDigit_eq {t : Token} {r : List Char} (h : GoesOn t r) :
    startsDigit r = false := by
  cases h with
  | number hdigit => exact hdigit
  | hyphen _ hr => exact startsDigit_of_head? hr (by decide)

section

variable {t : Token} {r : List Char}

/-- Where no name goes on, only a number can be read that would go on with one. -/
theorem goesOn_of_not_startsName (hr : startsName r = false)
    (h : (readToken r).value.continuesName = true) : GoesOn t r := by
  have hhead : ∀ c, isNameChar c = true → r.head? ≠ some c := by
    intro c hc hhead
    rw [startsName, hhead, Option.any_some, hc] at hr
    contradiction
  have hhyphen := hhead '-' (by decide)
  refine .number ?_ ?_ fun _ => hhyphen
  -- a digit would go on with the name
  · rw [Bool.eq_false_iff]
    intro hdigit
    obtain ⟨d, hd, hisdigit⟩ := (Option.any_eq_true _ _).1 hdigit
    exact hhead d (isNameChar_of_isDigit hisdigit) hd
  · simp only [Token.continuesName, Bool.or_eq_true, beq_iff_eq, beginsName_value_readToken,
      beginsNumber_value_readToken] at h
    -- an identifier or a hyphen would go on with the name, so it is a number
    rcases h with ((hident | hnumber) | hdelim) | hcdc
    · rw [startsName_of_startsIdent hident] at hr
      contradiction
    · exact hnumber
    · exact absurd (head?_of_value_delim hdelim) hhyphen
    · exact absurd (head?_of_value_cdc hcdc) hhyphen

theorem goesOn_of_number {s : List Char} {m : Numeral} (hm : readNumeral s = (m, r))
    (hident : startsIdent r = false) (hpercent : r.head? ≠ some '%')
    (h : (Token.number m.toNumeric).mustSeparate (readToken r).value = true) :
    GoesOn (.number m.toNumeric) r := by
  -- the digits end where no digit stands, so the number behind them has a sign or a point
  have hdigit := startsDigit_readNumeral s
  rw [hm] at hdigit
  have hcases : ((readToken r).value.beginsName || (readToken r).value.beginsNumber ||
      (readToken r).value == .delim '%') = true := h
  simp only [Bool.or_eq_true, beq_iff_eq, beginsName_value_readToken, beginsNumber_value_readToken,
    hident] at hcases
  rcases hcases with (hname | hnumber) | hsign
  · contradiction
  · exact .number hdigit hnumber nofun
  · exact absurd (head?_of_value_delim hsign) hpercent

/-- Behind a point or a plus no digit is left either. -/
theorem goesOn_of_point {c : Char} (hc : c = '.' ∨ c = '+') (hstart : startsNumber (c :: r) = false)
    (h : (Token.delim c).mustSeparate (readToken r).value = true) : GoesOn (.delim c) r := by
  have hdigit : startsDigit r = false := by
    rw [Bool.eq_false_iff] at hstart ⊢
    intro hdigit
    refine hstart (startsNumber_cons_iff.2 ?_)
    rcases hc with rfl | rfl
    · exact Or.inr (Or.inl ⟨rfl, hdigit⟩)
    · exact Or.inr (Or.inr ⟨Or.inl rfl, Or.inl hdigit⟩)
  have hnumber : (readToken r).value.beginsNumber = true := by
    rcases hc with rfl | rfl <;> exact h
  rw [beginsNumber_value_readToken] at hnumber
  refine .number hdigit hnumber fun hminus => ?_
  rcases hc with rfl | rfl <;> contradiction

/-- Behind an `@` no identifier begins, but a hyphen can stand there. -/
theorem goesOn_of_at (hident : startsIdent r = false)
    (h : (Token.delim '@').mustSeparate (readToken r).value = true) : GoesOn (.delim '@') r := by
  have hcases : ((readToken r).value.beginsName || (readToken r).value == .delim '-' ||
      (readToken r).value == .cdc) = true := h
  simp only [Bool.or_eq_true, beq_iff_eq, beginsName_value_readToken, hident] at hcases
  rcases hcases with (hname | hdelim) | hcdc
  · contradiction
  · refine .hyphen rfl (head?_of_value_delim hdelim) hident ?_
    rw [← beginsNumber_value_readToken, hdelim]
    rfl
  · refine .hyphen rfl (head?_of_value_cdc hcdc) hident ?_
    rw [← beginsNumber_value_readToken, hcdc]
    rfl

/-- Behind a lone hyphen no name begins. -/
theorem startsName_of_isDelim (h : IsDelim '-' r) : startsName r = false := by
  have hname : startsName ('-' :: r) = true := rfl
  -- a hyphen, a digit or a `>` behind it would have made another token of the hyphen
  rcases not_startsIdent_cases hname h.ident with
    ⟨d, t, heq, hd⟩ | ⟨t, heq, ht⟩ | ⟨d, t, heq, hd⟩ | ⟨t, heq⟩
  · rw [← (List.cons.inj heq).1] at hd
    contradiction
  · rwa [(List.cons.inj heq).2]
  · have hnumber := h.number
    rw [heq, Bool.eq_false_iff, ne_eq, startsNumber_cons_iff] at hnumber
    exact absurd (Or.inr (Or.inr ⟨Or.inr rfl, Or.inl hd⟩)) hnumber
  · exact absurd ⟨t, (List.cons.inj heq).2.symm⟩ (h.cdc rfl)

/-- A delimiter is recognised for what cannot follow it, one delimiter after another. -/
theorem goesOn_of_delim {c : Char} (hd : IsDelim c r)
    (h : (Token.delim c).mustSeparate (readToken r).value = true) : GoesOn (.delim c) r := by
  have hc : c = '#' ∨ c = '-' ∨ c = '@' ∨ (c = '.' ∨ c = '+') ∨ c = '/' := by
    unfold Token.mustSeparate at h
    split at h <;> simp_all
  rcases hc with rfl | rfl | rfl | hc | rfl
  · exact goesOn_of_not_startsName (hd.hash rfl) h
  · exact goesOn_of_not_startsName (startsName_of_isDelim hd) h
  · exact goesOn_of_at (hd.keyword rfl) h
  · exact goesOn_of_point hc hd.number h
  · -- an asterisk behind a `/` would have made a comment of the two
    have hstar : (readToken r).value = .delim '*' := beq_iff_eq.1 h
    have hcomment := hd.comment
    cases r with
    | nil => contradiction
    | cons d r =>
      obtain rfl : d = '*' := by simpa using head?_of_value_delim hstar
      rw [startsComment_cons_cons] at hcomment
      contradiction

end

/-- **What stands behind a token** that it would have to be kept apart from. -/
theorem goesOn_readToken {s : List Char} (hs : s ≠ [])
    (h : (readToken s).value.mustSeparate (readToken (readToken s).rest).value = true) :
    GoesOn (readToken s).value (readToken s).rest := by
  have hreads := reads_readToken hs
  generalize readToken s = reading at hreads h ⊢
  have hstops : ∀ u, startsName (readName u).rest = false := fun u => (nameText_readName u).stops
  cases hreads with
  | dimension => exact goesOn_of_not_startsName (hstops _) h
  | number _ hm hident hpercent => exact goesOn_of_number hm hident hpercent h
  | @ident s n r t _ hn hopen =>
    have hr := hstops s
    rw [hn] at hr
    have hcases : ((readToken r).value.continuesName ||
        (readToken r).value == .punctuation .openParenthesis) = true := h
    rw [Bool.or_eq_true, beq_iff_eq] at hcases
    rcases hcases with hname | hmark
    · exact goesOn_of_not_startsName hr hname
    · -- with a parenthesis behind it the name would have been read as a function's
      obtain ⟨w, hw, hsplits⟩ := exists_source hmark
      rw [← hsplits, show w = ['('] from hw] at hopen
      exact absurd rfl hopen
  | hash => exact goesOn_of_not_startsName (hstops _) h
  | atKeyword => exact goesOn_of_not_startsName (hstops _) h
  | delim hd => exact goesOn_of_delim hd h
  | url =>
    simp only [Reading.value_after, Reading.value_map] at h
    rcases urlToken_cases (readUrl _).value with hl | hl <;> rw [hl] at h <;> contradiction
  | string =>
    simp only [Reading.value_after, Reading.value_map] at h
    rcases stringToken_cases (readQuoted _ _).value with hl | hl <;> rw [hl] at h <;> contradiction
  | _ => contradiction

/-! ## How numbers are written

A number that is left behind a token has a sign or a point first. When it is written again it begins with a
digit or a sign, but with a minus only where it had one. -/

theorem exists_body_number {u : Token} (hu : u.beginsNumber = true) :
    ∃ (n : Numeric) (s : List Char), u.body = n.write ++ s := by
  unfold Token.beginsNumber at hu
  split at hu
  · next n => exact ⟨n, [], (List.append_nil _).symm⟩
  · next n => exact ⟨n, ['%'], rfl⟩
  · next n unit => exact ⟨n, writeUnit unit.toList, rfl⟩
  · contradiction

theorem body_number_cases {u : Token} (hu : u.beginsNumber = true) :
    startsDigit u.body = true ∨ (∃ s, u.body = '+' :: s) ∨ ∃ s, u.body = '-' :: s := by
  obtain ⟨n, x, hbody⟩ := exists_body_number hu
  rw [hbody]
  -- a digit, a plus or a minus stands first
  rcases write_cases n with h | ⟨s, hs⟩ | ⟨⟨s, hs⟩, _⟩
  · left
    cases hwrite : n.write with
    | nil =>
      rw [hwrite] at h
      contradiction
    | cons c s =>
      rw [hwrite] at h
      exact h
  · exact Or.inr (Or.inl ⟨s ++ x, by rw [hs]; rfl⟩)
  · exact Or.inr (Or.inr ⟨s ++ x, by rw [hs]; rfl⟩)

/-- What is read with no minus in front is written with none. -/
theorem head?_body_of_startsNumber {r : List Char} (hnumber : startsNumber r = true)
    (hr : r.head? ≠ some '-') : (readToken r).value.body.head? ≠ some '-' := by
  have hsign : (readNumeral r).1.sign ≠ some .minus := by
    show (readSign r).1 ≠ some .minus
    unfold readSign
    split
    · simp
    · exact absurd rfl hr
    · simp
  obtain ⟨c, s, hwrite, hc⟩ := head_write_of_not_minus hsign
  -- whatever comes behind the number, it is written first
  have hbody : ∃ x, (readNumeric r).value.body = (readNumeral r).1.toNumeric.write ++ x := by
    unfold readNumeric
    simp only [Reading.value_after]
    split
    · exact ⟨_, rfl⟩
    · split
      · exact ⟨_, rfl⟩
      · exact ⟨[], (List.append_nil _).symm⟩
  obtain ⟨x, hx⟩ := hbody
  rw [readToken_of_startsNumber hnumber, hx, hwrite]
  simpa using hc

/-! ## Neighbours

What was said of a token and the text behind it is said of two tokens now, without the text: which pairs can
stand in a text although they have to be kept apart, and which never do. -/

/-- How the second token can follow the first in a text although the two have to be kept apart. -/
def Token.Meets (t u : Token) : Prop :=
  t.mustSeparate u = true →
    (u.beginsNumber = true ∧ (t.mustSeparate (.delim '-') = true → u.body.head? ≠ some '-')) ∨
      (t = .delim '@' ∧ u.beginsName = false ∧ u.beginsNumber = false)

/-- The second token is the one that is read where the first ends. -/
theorem meets_readToken {s : List Char} (hs : s ≠ []) :
    (readToken s).value.Meets (readToken (readToken s).rest).value := by
  intro hseparate
  rw [beginsNumber_value_readToken, beginsName_value_readToken]
  cases goesOn_readToken hs hseparate with
  | number _ hnumber hminus =>
    exact Or.inl ⟨hnumber, fun h => head?_body_of_startsNumber hnumber (hminus h)⟩
  | hyphen ht _ hident hnumber => exact Or.inr ⟨ht, hident, hnumber⟩

/-- Along a text every two neighbours meet like this. The induction is on the text, token by token. -/
theorem meets_tokensOf (s : List Char) : (tokensOf s).IsChain Token.Meets := by
  by_cases hs : s = []
  · rw [hs, tokensOf_nil]
    exact .nil
  · have ih := meets_tokensOf (readToken s).rest
    rw [tokensOf_of_ne_nil hs]
    by_cases hr : (readToken s).rest = []
    · rw [hr, tokensOf_nil]
      exact .singleton _
    · rw [tokensOf_of_ne_nil hr] at ih ⊢
      exact .cons_cons (meets_readToken hs) ih
termination_by s.length
decreasing_by exact length_rest_readToken_lt hs

/-- The second token never stands directly behind the first: the text of the two would be read otherwise. -/
def Token.Excludes (t u : Token) : Prop :=
  match t with
  | .ident _ =>
      u.beginsName = true ∨ u = .cdc ∨ u = .delim '-' ∨ u = .punctuation .openParenthesis
  | .atKeyword _ | .hash _ _ | .dimension _ _ => u.beginsName = true ∨ u = .cdc ∨ u = .delim '-'
  | .number _ => u.beginsName = true ∨ u = .delim '%'
  | .delim '/' => u = .delim '*'
  | _ => False

/-- A token begins with a name or with a number, never with both. -/
theorem beginsNumber_of_beginsName {u : Token} (h : u.beginsName = true) : u.beginsNumber = false := by
  cases u <;> first | rfl | contradiction

/-- What goes on a name without a number in front. -/
theorem continuesName_of_name {u : Token} (h : u.beginsName = true ∨ u = .cdc ∨ u = .delim '-') :
    u.continuesName = true ∧ u.beginsNumber = false := by
  rcases h with hname | rfl | rfl
  · exact ⟨by simp [Token.continuesName, hname], beginsNumber_of_beginsName hname⟩
  · exact ⟨rfl, rfl⟩
  · exact ⟨rfl, rfl⟩

/-- Such tokens would have to be kept apart, and are not among those that follow each other all the same. -/
theorem Token.Excludes.mustSeparate {t u : Token} (h : t.Excludes u) :
    t.mustSeparate u = true ∧ u.beginsNumber = false ∧ t ≠ .delim '@' := by
  unfold Excludes at h
  split at h
  · -- behind an identifier a parenthesis counts, too
    rcases h with hname | rfl | rfl | rfl
    · obtain ⟨hcontinues, hnumber⟩ := continuesName_of_name (Or.inl hname)
      exact ⟨by simp [Token.mustSeparate, hcontinues], hnumber, nofun⟩
    all_goals exact ⟨rfl, rfl, nofun⟩
  · exact ⟨(continuesName_of_name h).1, (continuesName_of_name h).2, nofun⟩
  · exact ⟨(continuesName_of_name h).1, (continuesName_of_name h).2, nofun⟩
  · exact ⟨(continuesName_of_name h).1, (continuesName_of_name h).2, nofun⟩
  · rcases h with hname | rfl
    · exact ⟨by simp [Token.mustSeparate, hname], beginsNumber_of_beginsName hname, nofun⟩
    · exact ⟨rfl, rfl, nofun⟩
  · rw [h]
    exact ⟨rfl, rfl, by decide⟩
  · contradiction

/-- A token that would have gone on the first is not read behind it. -/
theorem not_excludes_readToken {s : List Char} (hs : s ≠ []) :
    ¬ (readToken s).value.Excludes (readToken (readToken s).rest).value := by
  intro h
  obtain ⟨hseparate, hnumber, hat⟩ := h.mustSeparate
  rcases meets_readToken hs hseparate with ⟨hbegins, _⟩ | ⟨ht, _⟩
  · rw [hnumber] at hbegins
    contradiction
  · exact hat ht

/-- Every token of a text was read from what the tokens before it left. -/
theorem exists_rest_of_tokensOf {s : List Char} {before after : List Token} {t : Token}
    (h : tokensOf s = before ++ t :: after) :
    ∃ r, r ≠ [] ∧ (readToken r).value = t ∧ tokensOf (readToken r).rest = after := by
  have hs : s ≠ [] := by
    rintro rfl
    rw [tokensOf_nil] at h
    simp at h
  rw [tokensOf_of_ne_nil hs] at h
  cases before with
  | nil =>
    obtain ⟨hvalue, hafter⟩ := List.cons.inj h
    exact ⟨s, hs, hvalue, hafter⟩
  | cons u before => exact exists_rest_of_tokensOf (List.cons.inj h).2
termination_by s.length
decreasing_by exact length_rest_readToken_lt hs

/-- **How the tokens of a text follow each other.** Whatever stands behind a token is what always follows it,
and no two neighbours are such that the text of the second would have gone on the first. -/
theorem neighbours_of_text (text : String) :
    ∃ (l : Lexer) (tokens : List Token),
      Lexer.ofText text .lenient .preserve = .ok l ∧ l.collect.1 = tokens.map .ok ∧
      ∀ before t after, tokens = before ++ t :: after →
        t.Settled after ∧ ∀ u, after.head? = some u → ¬ t.Excludes u := by
  let l := Lexer.ofCursor (.ofText text .lenient)
  refine ⟨l, tokensOf l.cursor.rest, rfl, ?_, ?_⟩
  · rw [l.collect_lenient rfl rfl, tokensOf, List.map_map]
    rfl
  · intro before t after htokens
    obtain ⟨r, hr, rfl, rfl⟩ := exists_rest_of_tokensOf htokens
    refine ⟨settled_readToken hr, fun u hu => ?_⟩
    have hne : (readToken r).rest ≠ [] := by
      intro hnil
      rw [hnil, tokensOf_nil] at hu
      contradiction
    rw [tokensOf_of_ne_nil hne] at hu
    rw [← Option.some.inj hu]
    exact not_excludes_readToken hr

end CssLex
