import CssLex.Proofs.Merging
import CssLex.RoundTrip

/-!
# CssLex — there and back again

What is written for the tokens of a text is read as these tokens again, comments left out of account,
unless some of them make a `-->` or a `<!--` together (`roundTrip_preserve_iff`). The same holds of lists
that no text has (`tokenize_writeTokens`): it is enough that every token of the list is read back on its
own, and that no whitespace follows whitespace.

* `readTokens_spell_cons`: the step, from a list to the list without its first token.
* `withoutComments_tokensOf_spell`: the run, for lists that make neither.
* `faithful_iff_unmerged`: and for those that do, where the two readings part.
-/

namespace CssLex

/-- The tokens that are not comments. -/
def withoutComments (ts : List Token) : List Token :=
  ts.filter fun t => !t.isComment

/-- The token with what it says of its number forgotten. -/
def Token.forgetNumber : Token → Token
  | .number _ => .number ⟨.ofDecimal false ⟨0, 0⟩, none, false, ""⟩
  | .percentage _ => .percentage ⟨.ofDecimal false ⟨0, 0⟩, none, false, ""⟩
  | .dimension _ unit => .dimension ⟨.ofDecimal false ⟨0, 0⟩, none, false, ""⟩ unit
  | t => t

theorem withoutComments_append (ts us : List Token) :
    withoutComments (ts ++ us) = withoutComments ts ++ withoutComments us :=
  List.filter_append ..

theorem isComment_reread (t : Token) : t.reread.isComment = t.isComment := by
  cases t <;> rfl

/-! ## From a list to the list without its first token

One token is read off the front of a spelling, and perhaps the comment that keeps it from the next. What is
left is the spelling of the others, so lists are read back by induction, one token at a time. -/

section

variable {t : Token} {ts : List Token}

/-- What is read of a written token is never the end. -/
theorem seen_ne_endOfInput (ht : t.Lexical) : t.seen ts ≠ .endOfInput := by
  unfold Token.seen
  split
  · cases t <;> simp [Token.collided]
  · cases t <;> first | contradiction | simp [Token.reread]

/-- So something is written for every token. -/
theorem spell_cons_ne_nil (hlex : ∀ u ∈ t :: ts, u.Lexical) (hs : Settles (t :: ts)) :
    spell (t :: ts) ≠ [] := by
  intro hnil
  have hvalue := (readToken_spell t ts hlex hs).1
  rw [hnil] at hvalue
  exact seen_ne_endOfInput (List.forall_mem_cons.1 hlex).1 hvalue.symm

/-- A gap is read as nothing at all, or as one empty comment. -/
theorem readTokens_gap_append (t : Token) (ts : List Token) (r : List Char) :
    readTokens (gap t ts ++ r) = readTokens r ∨
      readTokens (gap t ts ++ r) = ⟨.comment "/**/", r, .taking "/**/".toList⟩ :: readTokens r := by
  unfold gap
  split
  · exact Or.inl rfl
  · split
    · -- the gap is a comment of its own
      right
      exact readTokens_append (by decide) (readToken_gap r) rfl
    · exact Or.inl rfl

/-- The first token is read back, and behind it the others, a comment perhaps in between. -/
theorem readTokens_spell_cons (hlex : ∀ u ∈ t :: ts, u.Lexical) (hs : Settles (t :: ts))
    (hcollides : collides (t :: ts) = false) :
    ∃ reading gaps, readTokens (spell (t :: ts)) = reading :: (gaps ++ readTokens (spell ts)) ∧
      reading.value = t.reread ∧ Trace.reported reading.trace = t.reports ∧
      ∀ r ∈ gaps, r.value.isComment = true ∧ Trace.reported r.trace = [] := by
  -- the first token leaves the gap and the text of the others
  have hback := (readToken_spell t ts hlex hs).2 hcollides
  have hne := spell_cons_ne_nil hlex hs
  have hread := readTokens_of_ne_nil hne
  rw [spell, hback.rest] at hread
  rcases readTokens_gap_append t ts (spell ts) with hgap | hgap
  · refine ⟨_, [], ?_, hback.value, hback.reported, by simp⟩
    rw [spell, hread, hgap]
    rfl
  · refine ⟨_, [⟨.comment "/**/", spell ts, .taking "/**/".toList⟩], ?_, hback.value,
      hback.reported, ?_⟩
    · rw [spell, hread, hgap]
      rfl
    · intro r hr
      rw [List.mem_singleton.1 hr]
      exact ⟨rfl, Trace.reported_taking _⟩

/-- The same step with the comments left out, where it does not show whether there is a gap. -/
theorem withoutComments_tokensOf_spell_cons (hlex : ∀ u ∈ t :: ts, u.Lexical)
    (hs : Settles (t :: ts)) (hcollides : collides (t :: ts) = false) :
    withoutComments (tokensOf (spell (t :: ts))) =
      withoutComments [t.reread] ++ withoutComments (tokensOf (spell ts)) := by
  obtain ⟨reading, gaps, hread, hvalue, _, hgaps⟩ := readTokens_spell_cons hlex hs hcollides
  have hnone : withoutComments (gaps.map (·.value)) = [] := by
    simp only [withoutComments, List.filter_eq_nil_iff, List.mem_map]
    rintro _ ⟨r, hr, rfl⟩
    simp [(hgaps r hr).1]
  rw [tokensOf, hread, List.map_cons, List.map_append, hvalue, ← List.singleton_append,
    withoutComments_append, withoutComments_append, hnone, List.nil_append, tokensOf]

end

/-! ## Lists

Two inductions over the same step: where no two tokens make a sign, all are read back; where two do, the lists
differ from the first of them on. -/

/-- A list that makes neither sign is read back whole. -/
theorem withoutComments_tokensOf_spell {ts : List Token} (hlex : ∀ t ∈ ts, t.Lexical)
    (hs : Settles ts) (hu : Unmerged ts) :
    withoutComments (tokensOf (spell ts)) = withoutComments (ts.map Token.reread) := by
  induction ts with
  | nil => rw [spell, tokensOf_nil, List.map_nil]
  | cons t ts ih =>
    obtain ⟨hcollides, hu⟩ := unmerged_cons_iff.1 hu
    rw [withoutComments_tokensOf_spell_cons hlex hs hcollides,
      ih (List.forall_mem_cons.1 hlex).2 hs.2 hu, ← withoutComments_append]
    rfl

/-- Where no token is damaged, nothing is reported. -/
theorem reported_readTokens_spell {ts : List Token} (hlex : ∀ t ∈ ts, t.Lexical) (hs : Settles ts)
    (hu : Unmerged ts) (hreports : ∀ t ∈ ts, t.reports = []) :
    ∀ r ∈ readTokens (spell ts), Trace.reported r.trace = [] := by
  induction ts with
  | nil => simp [spell]
  | cons t ts ih =>
    obtain ⟨hcollides, hu⟩ := unmerged_cons_iff.1 hu
    obtain ⟨ht, hreports⟩ := List.forall_mem_cons.1 hreports
    obtain ⟨reading, gaps, hread, _, hreported, hgaps⟩ := readTokens_spell_cons hlex hs hcollides
    rw [hread, List.forall_mem_cons, List.forall_mem_append]
    exact ⟨hreported.trans ht, fun r hr => (hgaps r hr).2,
      ih (List.forall_mem_cons.1 hlex).2 hs.2 hu hreports⟩

/-- Written anew, only the number of a token and the text of a comment may change. -/
theorem forgetNumber_reread {t : Token} (h : t.isComment = false) :
    t.reread.forgetNumber = t.forgetNumber := by
  cases t <;> first | rfl | contradiction

/-- A collision is not read as the token that it begins with. -/
theorem forgetNumber_collided_ne {t : Token} {ts : List Token} (h : collides (t :: ts) = true) :
    t.isComment = false ∧ t.collided.isComment = false ∧
      t.collided.forgetNumber ≠ t.forgetNumber := by
  rcases collided_cases h with hdashes | rfl
  · unfold Token.endsDashes at hdashes
    split at hdashes
    all_goals first | contradiction | simp [Token.collided, Token.isComment, Token.forgetNumber]
  · decide

/-- **A written list is read back exactly if its tokens make neither of the two signs.** -/
theorem faithful_iff_unmerged {ts : List Token} (hlex : ∀ t ∈ ts, t.Lexical) (hs : Settles ts) :
    (withoutComments (tokensOf (spell ts))).map Token.forgetNumber =
        (withoutComments ts).map Token.forgetNumber ↔ Unmerged ts := by
  induction ts with
  | nil =>
    rw [spell, tokensOf_nil]
    exact iff_of_true rfl unmerged_nil
  | cons t ts ih =>
    rw [unmerged_cons_iff]
    by_cases hcollides : collides (t :: ts) = true
    · obtain ⟨hcomment, hcollided, hne⟩ := forgetNumber_collided_ne hcollides
      have hvalue := (readToken_spell t ts hlex hs).1
      rw [Token.seen, if_pos hcollides] at hvalue
      -- the lists differ in their first tokens
      refine iff_of_false (fun heq => hne ?_) (by simp [hcollides])
      rw [tokensOf_of_ne_nil (spell_cons_ne_nil hlex hs), hvalue] at heq
      simp only [withoutComments, List.filter_cons, hcomment, hcollided, Bool.not_false, if_true,
        List.map_cons] at heq
      exact (List.cons.inj heq).1
    · -- the first tokens are the same, so the lists behind them decide
      rw [Bool.not_eq_true] at hcollides
      have hhead : (withoutComments [t.reread]).map Token.forgetNumber =
          (withoutComments [t]).map Token.forgetNumber := by
        cases hcomment : t.isComment with
        | true => simp [withoutComments, isComment_reread, hcomment]
        | false => simp [withoutComments, isComment_reread, hcomment, forgetNumber_reread hcomment]
      have htail : withoutComments (t :: ts) = withoutComments [t] ++ withoutComments ts :=
        withoutComments_append [t] ts
      rw [withoutComments_tokensOf_spell_cons hlex hs hcollides, htail, List.map_append,
        List.map_append, hhead, List.append_cancel_left_eq, ih (List.forall_mem_cons.1 hlex).2 hs.2]
      simp [hcollides]

/-! ## Texts

The tokens of a text settle and could have been read, so what holds of lists holds of them. Between the two
readings stands only that what is written is normal. -/

/-- What a lenient lexer reads of its text. -/
theorem scan_of_lexer {text : String} {mode : CommentMode} {l : Lexer}
    (hl : Lexer.ofText text .lenient mode = .ok l) (hp : l.cursor.policy = .lenient)
    (hf : l.finished = false) :
    ∃ errors, Scan.ofText text mode = .ok ⟨tokensOf l.cursor.rest, errors⟩ := by
  -- leniently every answer is a token, so none ends the scan
  have hanswers : l.collect.1.mapM id = .ok (tokensOf l.cursor.rest) := by
    rw [mapM_id_eq_ok_iff, l.collect_lenient hp hf, tokensOf, List.map_map]
    rfl
  refine ⟨l.collect.2.errors, ?_⟩
  rw [Scan.ofText, hl]
  show (do return (⟨← l.collect.1.mapM id, l.collect.2.errors⟩ : Scan)) = _
  rw [hanswers]
  rfl

/-- What is read from a text with its comments kept. -/
theorem scan_preserve (text : String) :
    ∃ errors, Scan.ofText text .preserve = .ok ⟨tokensOf (normalize text.toList), errors⟩ :=
  scan_of_lexer (l := Lexer.ofCursor (.ofText text .lenient)) rfl rfl rfl

/-- What is written for the tokens of a normal text is normal already. -/
theorem normalize_css {s : List Char} (hs : IsNormal s) (errors : Array ParseError) :
    normalize (Scan.css ⟨tokensOf s, errors⟩).toList = spell (tokensOf s) := by
  rw [Scan.css, String.toList_ofList, writeTokens_eq_spell (settles_tokensOf _),
    normalize_eq_self (isNormal_spell (lexical_tokensOf hs))]

/-- What is read the second time is read from the written list of the first. -/
theorem roundTrip_preserve (text : String) :
    ∃ errors errors', RoundTrip.ofText text .preserve =
      .ok ⟨⟨tokensOf (normalize text.toList), errors⟩,
        ⟨tokensOf (spell (tokensOf (normalize text.toList))), errors'⟩⟩ := by
  obtain ⟨errors, hfirst⟩ := scan_preserve text
  let first : Scan := ⟨tokensOf (normalize text.toList), errors⟩
  obtain ⟨errors', hsecond⟩ := scan_preserve first.css
  rw [normalize_css (isNormal_normalize _)] at hsecond
  refine ⟨errors, errors', ?_⟩
  rw [RoundTrip.ofText, hfirst]
  show (do return (⟨first, ← Scan.ofText first.css .preserve⟩ : RoundTrip)) = _
  rw [hsecond]
  rfl

/-- **A text is read, written and read again.** The tokens are the same, comments left out of account and
numbers told apart by their units only, exactly if those of the text do not make a `-->` or a `<!--` where
they are written. -/
theorem roundTrip_preserve_iff (text : String) :
    ∃ r, RoundTrip.ofText text .preserve = .ok r ∧
      ((withoutComments r.second.tokens).map Token.forgetNumber =
          (withoutComments r.first.tokens).map Token.forgetNumber ↔ Unmerged r.first.tokens) := by
  obtain ⟨errors, errors', hround⟩ := roundTrip_preserve text
  exact ⟨_, hround, faithful_iff_unmerged (lexical_tokensOf (isNormal_normalize _)) (settles_tokensOf _)⟩

/-- An escaped hyphen before another and a `>`: the `--` is a name, but is written as the front of a
`-->`. -/
theorem not_roundTrip_preserve_always :
    ¬ ∀ text, ∃ r, RoundTrip.ofText text .preserve = .ok r ∧
      (withoutComments r.second.tokens).map Token.forgetNumber =
        (withoutComments r.first.tokens).map Token.forgetNumber := by
  intro h
  obtain ⟨r, hr, heq⟩ := h "\\-->"
  obtain ⟨errors, errors', hround⟩ := roundTrip_preserve "\\-->"
  rw [hround] at hr
  obtain rfl := Except.ok.inj hr
  have hfirst : tokensOf (normalize "\\-->".toList) = [.ident "--", .delim '>'] := by
    decide +kernel
  have hspell : spell [.ident "--", .delim '>'] = ['-', '-', '>'] := by decide
  have hsecond : tokensOf ['-', '-', '>'] = [.cdc] := by decide +kernel
  simp only [hfirst, hspell, hsecond] at heq
  revert heq
  decide

/-! ## Lists that no text need have

Of a list that was not read, nothing is known but that each token reads itself. What a token needs of its
neighbours is then found by reading it alone: a token that settles with nothing behind it settles with every
other one behind it, white space apart. -/

/-- Read strictly, the text of the token is the token; the sign of a zero may differ. -/
def Token.SelfReading (t : Token) : Prop :=
  ∃ u, tokenize (.ofList t.write) = .ok [u] ∧ u.forgetZeroSign = t.forgetZeroSign

/-- Tokens without a number have no zero to forget the sign of. -/
theorem eq_of_forgetZeroSign_eq {t u : Token} (h : u.forgetZeroSign = t.forgetZeroSign)
    (ht : t.beginsNumber = false) : u = t := by
  cases t with
  | number n | percentage n | dimension n unit => contradiction
  | _ => cases u <;> first | exact h | contradiction

/-- What is read of a token that reads itself. -/
structure ReadsItself (t u : Token) (w : List Char) : Prop where
  text : w = normalize t.write
  tokens : tokensOf w = [u]
  reported : Trace.reported (readToken w).trace = []
  same : u.forgetZeroSign = t.forgetZeroSign

section

variable {t u : Token} {w : List Char}

/-- Read strictly without an error, the token is all that there is to read. -/
theorem Token.SelfReading.exists_readsItself (h : t.SelfReading) : ∃ u w, ReadsItself t u w := by
  obtain ⟨u, hread, hsame⟩ := h
  rw [tokenize_eq_ok_iff, String.toList_ofList] at hread
  obtain ⟨hreported, htokens⟩ := hread
  have hne : normalize t.write ≠ [] := by
    intro hnil
    rw [hnil, readTokens_nil] at htokens
    contradiction
  rw [readTokens_of_ne_nil hne, List.forall_mem_cons] at hreported
  exact ⟨u, _, rfl, htokens.symm, hreported.1, hsame⟩

theorem ReadsItself.ne_nil (h : ReadsItself t u w) : w ≠ [] := by
  rintro rfl
  have htokens := h.tokens
  rw [tokensOf_nil] at htokens
  contradiction

theorem ReadsItself.value (h : ReadsItself t u w) : (readToken w).value = u ∧
    tokensOf (readToken w).rest = [] := by
  have htokens := h.tokens
  rw [tokensOf_of_ne_nil h.ne_nil] at htokens
  exact List.cons.inj htokens

/-- What was read could have been read. -/
theorem ReadsItself.lexical_read (h : ReadsItself t u w) : u.Lexical := by
  have hnormal : IsNormal w := h.text ▸ isNormal_normalize _
  have hlex := lexical_readToken hnormal h.ne_nil
  rwa [h.value.1] at hlex

theorem ReadsItself.settled_read (h : ReadsItself t u w) : u.Settled [] := by
  have hsettled := settled_readToken h.ne_nil
  rwa [h.value.1, h.value.2] at hsettled

/-- A number is not read where two signs are written. -/
theorem ReadsItself.hasOneSign {n : Numeric} {s : List Char} (h : ReadsItself t u w)
    (hu : u.beginsNumber = true) (hwrite : t.write = n.write ++ s) : n.HasOneSign := by
  refine Classical.byContradiction fun hsigns => ?_
  obtain ⟨v, hv⟩ := write_of_not_hasOneSign hsigns
  -- a plus and a minus begin no number
  have hw : w = '+' :: '-' :: normalize (v ++ s) := by
    rw [h.text, hwrite, hv, List.cons_append, List.cons_append, normalize_cons_of_ne (by decide),
      normalize_cons_of_ne (by decide)]
    rfl
  rw [← h.value.1, beginsNumber_value_readToken, hw] at hu
  contradiction

/-- So could the token itself, which is the one that was read unless it has a number; and of a number no more
is asked than its one sign. -/
theorem ReadsItself.lexical (h : ReadsItself t u w) : t.Lexical := by
  have hlex := h.lexical_read
  -- A token without a number is the one that was read. One with a number has the name of that, and of its own
  -- number only the sign is asked.
  by_cases hnumber : t.beginsNumber = true
  · have hsame := h.same
    cases t with
    | number n =>
      cases u with
      | number m => exact h.hasOneSign (s := []) rfl (List.append_nil _).symm
      | _ => contradiction
    | percentage n =>
      cases u with
      | percentage m => exact h.hasOneSign rfl rfl
      | _ => contradiction
    | dimension n unit =>
      cases u with
      | dimension m unit' =>
        have hunit : unit' = unit := (Token.dimension.inj hsame).2
        exact ⟨h.hasOneSign rfl rfl, hunit ▸ hlex.2⟩
      | _ => contradiction
    | _ => contradiction
  · rwa [eq_of_forgetZeroSign_eq h.same (by simpa using hnumber)] at hlex

/-- It settles as well, for no number asks anything of what follows. -/
theorem ReadsItself.settled (h : ReadsItself t u w) : t.Settled [] := by
  by_cases hnumber : t.beginsNumber = true
  · unfold Token.beginsNumber at hnumber
    split at hnumber <;> first | contradiction | trivial
  · have hsettled := h.settled_read
    rwa [eq_of_forgetZeroSign_eq h.same (by simpa using hnumber)] at hsettled

/-- The token is what its body says, and nothing is reported. -/
theorem ReadsItself.reread (h : ReadsItself t u w) : t.reread = u ∧ t.reports = [] := by
  -- a newline behind the token would be read as a second token
  have hline : t.endsLine = false := by
    rw [Bool.eq_false_iff]
    intro hline
    obtain ⟨v, us, hts⟩ := exists_newline_of_endsLine hline h.settled
    contradiction
  have hw : w = t.body := by
    rw [h.text, t.write_eq_body, hline]
    simp [normalize_eq_self (isNormal_body h.lexical)]
  have hcollides : collides [t] = false := by
    rw [Bool.eq_false_iff]
    intro hcollides
    rcases collides_cases hcollides with ⟨us, hnil, _⟩ | ⟨v, us, _, hnil, _⟩ <;> contradiction
  have hback := (readToken_spell t [] (by simpa using h.lexical) ⟨h.settled, trivial⟩).2 hcollides
  have hvalue := hback.value
  have hreported := hback.reported
  have hbody : t.body ++ (gap t [] ++ spell []) = w := by simp [hw, gap, spell]
  rw [hbody] at hvalue hreported
  exact ⟨by rw [← hvalue, h.value.1], by rw [← hreported, h.reported]⟩

/-- Only for whitespace it matters what follows a token that reads itself. -/
theorem settled_of_settled_nil {us : List Token} (h : t.Settled [])
    (hspace : ∀ v, t = .whitespace v → ∀ w, us.head? ≠ some (.whitespace w)) : t.Settled us := by
  unfold Token.Settled at h ⊢
  split
  · next v => exact hspace v rfl
  · obtain ⟨w, hw⟩ := h
    contradiction
  · obtain ⟨w, hw⟩ := h
    contradiction
  · intro hname
    have hnext := h hname
    contradiction
  · intro hurl
    obtain ⟨u, us', _, hts | ⟨c, _, hts⟩⟩ := h hurl <;> contradiction
  · trivial

/-- Tokens that settle alone settle in a list, as long as white space is not split. -/
theorem settles_of_forall {ts : List Token} (h : ∀ t ∈ ts, t.Settled [])
    (hspace : ∀ p v w q, ts ≠ p ++ .whitespace v :: .whitespace w :: q) : Settles ts := by
  induction ts with
  | nil => trivial
  | cons t ts ih =>
    obtain ⟨ht, hts⟩ := List.forall_mem_cons.1 h
    refine ⟨settled_of_settled_nil ht ?_, ih hts fun p v w q heq => ?_⟩
    · rintro v rfl w hhead
      cases ts with
      | nil => contradiction
      | cons u us =>
        obtain rfl := Option.some.inj hhead
        exact hspace [] v w us rfl
    · exact hspace (t :: p) v w q (by rw [heq]; rfl)

end

/-- **Lists of tokens are kept apart.** Tokens that are read back one by one are read back from the text
of their list, whatever their order, if no whitespace follows whitespace and they make neither a `-->` nor
a `<!--`. -/
theorem tokenize_writeTokens (ts : List Token) (hself : ∀ t ∈ ts, t.SelfReading)
    (hspace : ∀ p v w q, ts ≠ p ++ .whitespace v :: .whitespace w :: q) (hmerge : Unmerged ts) :
    ∃ us, tokenize (.ofList (writeTokens ts)) = .ok us ∧
      (withoutComments us).map Token.forgetZeroSign =
        (withoutComments ts).map Token.forgetZeroSign := by
  -- what is read of a token by itself says all that is needed of it
  have hfacts : ∀ t ∈ ts, t.Lexical ∧ t.Settled [] ∧ t.reports = [] ∧
      t.reread.forgetZeroSign = t.forgetZeroSign := by
    intro t ht
    obtain ⟨u, w, hreads⟩ := (hself t ht).exists_readsItself
    obtain ⟨hreread, hreports⟩ := hreads.reread
    exact ⟨hreads.lexical, hreads.settled, hreports, hreread ▸ hreads.same⟩
  -- so the list is like one that was read, and is written as its bodies
  have hlex : ∀ t ∈ ts, t.Lexical := fun t ht => (hfacts t ht).1
  have hs : Settles ts := settles_of_forall (fun t ht => (hfacts t ht).2.1) hspace
  have hnormal : normalize (String.ofList (writeTokens ts)).toList = spell ts := by
    rw [String.toList_ofList, writeTokens_eq_spell hs, normalize_eq_self (isNormal_spell hlex)]
  refine ⟨tokensOf (spell ts), ?_, ?_⟩
  · rw [tokenize_eq_ok_iff, hnormal]
    exact ⟨reported_readTokens_spell hlex hs hmerge fun t ht => (hfacts t ht).2.2.1, rfl⟩
  · rw [withoutComments_tokensOf_spell hlex hs hmerge, withoutComments, withoutComments,
      List.filter_map, List.map_map]
    have hkept : (fun t : Token => !t.isComment) ∘ Token.reread = fun t => !t.isComment := by
      funext t
      simp [isComment_reread]
    rw [hkept]
    refine List.map_congr_left fun t ht => ?_
    exact (hfacts t (List.mem_filter.1 ht).1).2.2.2

/-- A name of hyphens, a `/` and a `*` that would open a comment, and two names in a row. -/
theorem tokenize_writeTokens_of_runs :
    ∃ us, tokenize (.ofList (writeTokens
        [.ident "--", .delim '/', .delim '*', .ident "b", .ident "c"])) = .ok us ∧
      (withoutComments us).map Token.forgetZeroSign =
        (withoutComments [.ident "--", .delim '/', .delim '*', .ident "b", .ident "c"]).map
          Token.forgetZeroSign := by
  have hdashes : tokenize "--" = .ok [.ident "--"] := tokenize_eq_ok_iff.2 (by decide +kernel)
  have hslash : tokenize "/" = .ok [.delim '/'] := tokenize_eq_ok_iff.2 (by decide +kernel)
  have hstar : tokenize "*" = .ok [.delim '*'] := tokenize_eq_ok_iff.2 (by decide +kernel)
  have hb : tokenize "b" = .ok [.ident "b"] := tokenize_eq_ok_iff.2 (by decide +kernel)
  have hc : tokenize "c" = .ok [.ident "c"] := tokenize_eq_ok_iff.2 (by decide +kernel)
  refine tokenize_writeTokens _ ?_ ?_ ?_
  · intro t ht
    simp only [List.mem_cons, List.not_mem_nil, or_false] at ht
    rcases ht with rfl | rfl | rfl | rfl | rfl
    · exact ⟨_, hdashes, rfl⟩
    · exact ⟨_, hslash, rfl⟩
    · exact ⟨_, hstar, rfl⟩
    · exact ⟨_, hb, rfl⟩
    · exact ⟨_, hc, rfl⟩
  · intro p v w q h
    have hmem : Token.whitespace v ∈ p ++ .whitespace v :: .whitespace w :: q := by simp
    rw [← h] at hmem
    simp at hmem
  · simp only [unmerged_cons_iff, unmerged_nil, and_true]
    decide

end CssLex
