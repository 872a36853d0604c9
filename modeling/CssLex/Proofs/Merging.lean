import CssLex.Proofs.Writing

/-!
# CssLex — where written tokens run into each other

`Token.mustSeparate` knows of two neighbours, but a `-->` can also be made of a name `--` and a `>`, and a
`<!--` of three tokens. These are the only ways for a list of tokens to be written so that it is not read
back (`collides`). What is read in their place is `Token.collided`; everywhere else a token is read from its
body, and what is left is the text of the others (`readToken_spell`). The proof goes from the end of the
list to its front, since what a token can run into shows in what is read behind it.
-/

namespace CssLex

/-! ## Collisions

Which tokens make a `-->` or a `<!--` with those behind them. `collides` asks this of the front of a list,
`Unmerged` of all its places. -/

namespace Token

/-- The text of the token ends with a name that is two hyphens. -/
def endsDashes : Token → Bool
  | .ident name | .atKeyword name | .hash .id name | .dimension _ name => name == "--"
  | _ => false

/-- The text of the token begins with two hyphens. -/
def beginsDashes : Token → Bool
  | .cdc => true
  | .ident name | .function name => ['-', '-'].isPrefixOf name.toList
  | _ => false

/-- What is read instead of the token where it collides. -/
def collided : Token → Token
  | .ident _ => .cdc
  | .atKeyword _ => .delim '@'
  | .hash _ name => .hash .unrestricted name
  | .dimension n _ => .number n.reread
  | _ => .cdo

end Token

/-- The first token makes a `-->` or a `<!--` with those behind it. -/
def collides : List Token → Bool
  | .delim '<' :: .delim '!' :: t :: _ => t.beginsDashes
  | t :: .delim '>' :: _ => t.endsDashes
  | _ => false

/-- No three tokens make a `<!--`, and no two a `-->`. -/
structure Unmerged (ts : List Token) : Prop where
  arrow : ∀ p t q, ts = p ++ t :: .delim '>' :: q → t.endsDashes = false
  opening : ∀ p t q, ts = p ++ .delim '<' :: .delim '!' :: t :: q → t.beginsDashes = false

/-- What is read in front of the others. -/
def Token.seen (t : Token) (ts : List Token) : Token :=
  if collides (t :: ts) then t.collided else t.reread

/-- In front of a `>` only the two hyphens matter. -/
theorem collides_greater (t : Token) (ts : List Token) :
    collides (t :: .delim '>' :: ts) = t.endsDashes := by
  unfold collides
  split <;> simp_all

/-- There are two ways to collide, and both show which tokens stand there. -/
theorem collides_cases {t : Token} {ts : List Token} (h : collides (t :: ts) = true) :
    (∃ us, ts = .delim '>' :: us ∧ t.endsDashes = true) ∨
      ∃ u us, t = .delim '<' ∧ ts = .delim '!' :: u :: us ∧ u.beginsDashes = true := by
  unfold collides at h
  split at h
  · next u us heq =>
    obtain ⟨rfl, rfl⟩ := List.cons.inj heq
    exact Or.inr ⟨u, us, rfl, rfl, h⟩
  · next u us heq =>
    obtain ⟨rfl, rfl⟩ := List.cons.inj heq
    exact Or.inl ⟨_, rfl, h⟩
  · contradiction

theorem unmerged_nil : Unmerged [] :=
  ⟨fun p _ _ h => by cases p <;> contradiction, fun p _ _ h => by cases p <;> contradiction⟩

/-- A list is free of collisions if its front is and the rest is, which is how the inductions go. -/
theorem unmerged_cons_iff {t : Token} {ts : List Token} :
    Unmerged (t :: ts) ↔ collides (t :: ts) = false ∧ Unmerged ts := by
  constructor
  · intro h
    refine ⟨?_, fun p u q hts => h.arrow (t :: p) u q (by rw [hts]; rfl),
      fun p u q hts => h.opening (t :: p) u q (by rw [hts]; rfl)⟩
    rw [Bool.eq_false_iff]
    intro hcollides
    -- a collision in front is one of the two, with nothing before it
    rcases collides_cases hcollides with ⟨us, rfl, hdashes⟩ | ⟨u, us, rfl, rfl, hu⟩
    · rw [h.arrow [] t us rfl] at hdashes
      contradiction
    · rw [h.opening [] u us rfl] at hu
      contradiction
  · rintro ⟨hcollides, h⟩
    constructor
    · intro p u q hts
      cases p with
      | nil =>
        obtain ⟨rfl, rfl⟩ := List.cons.inj hts
        rwa [collides_greater] at hcollides
      | cons s p => exact h.arrow p u q (List.cons.inj hts).2
    · intro p u q hts
      cases p with
      | nil =>
        obtain ⟨rfl, rfl⟩ := List.cons.inj hts
        exact hcollides
      | cons s p => exact h.opening p u q (List.cons.inj hts).2

/-! ## What a token sees of the text behind it

Whether a token runs into the text behind it is decided by what is read from there (`Ahead`).
`Token.mustSeparate` is asked of that token, not of the one that was written, and its answer is turned into
what the reader of the first token looks for (`Token.Parted`). -/

/-- Where no token is read that goes on a name, no name goes on. -/
theorem startsName_eq_false_of {r : List Char} (h : (readToken r).value.continuesName = false) :
    startsName r = false := by
  rw [Bool.eq_false_iff]
  intro hname
  rw [continuesName_value_readToken hname] at h
  contradiction

theorem startsNumber_of_startsDigit {r : List Char} (h : startsDigit r = true) :
    startsNumber r = true := by
  cases r with
  | nil => contradiction
  | cons c r => exact startsNumber_cons_iff.2 (Or.inl h)

/-- A sign or a point begins a number only before a number. -/
theorem startsNumber_cons_eq_false_of {c : Char} {r : List Char} (hc : c.isDigit = false)
    (h : c = '.' ∨ c = '+' ∨ c = '-' → startsNumber r = false) : startsNumber (c :: r) = false := by
  rw [Bool.eq_false_iff]
  intro hnumber
  rcases startsNumber_cons_iff.1 hnumber with hdigit | ⟨rfl, hdigit⟩ | ⟨hsign, hdigits⟩
  · rw [hc] at hdigit
    contradiction
  · have hr := h (Or.inl rfl)
    rw [startsNumber_of_startsDigit hdigit] at hr
    contradiction
  · have hr := h (Or.inr hsign)
    rcases hdigits with hdigit | ⟨t, rfl, hdigit⟩
    · rw [startsNumber_of_startsDigit hdigit] at hr
      contradiction
    · -- a point and a digit are a number without the sign as well
      rw [startsNumber_cons_iff.2 (Or.inr (Or.inl ⟨rfl, hdigit⟩))] at hr
      contradiction

/-- A mark that is read by itself is read wherever it stands in front. -/
theorem value_readToken_of_head? {c : Char} {t : Token} {r : List Char} (hr : r.head? = some c)
    (hc : IsMark c) (h : ∀ s, (readMark c s).value = t) : (readToken r).value = t := by
  cases r with
  | nil => contradiction
  | cons d s =>
    obtain rfl : d = c := by simpa using hr
    rw [readToken_of_isMark s hc]
    exact h s

/-- The text behind a token, by the token that is read there. -/
structure Ahead (t : Token) (ts : List Token) (r : List Char) : Prop where
  separate : t.mustSeparate (readToken r).value = false
  greater : (readToken r).value = .delim '>' → ts.head? = some (.delim '>')
  white : ∀ w, (readToken r).value = .whitespace w → ∃ v, ts.head? = some (.whitespace v)

section

variable {t : Token} {ts : List Token} {r : List Char}

/-- A mark that would have to be kept apart from the token is not the next code point. -/
theorem head?_ne_of_separate {c : Char} {u : Token} (hc : IsMark c)
    (hu : ∀ s, (readMark c s).value = u) (hsep : t.mustSeparate u = true) (ha : Ahead t ts r) :
    r.head? ≠ some c := by
  intro hr
  have hseparate := ha.separate
  rw [value_readToken_of_head? hr hc hu, hsep] at hseparate
  contradiction

/-- Behind a name that is two hyphens no `>` is read. -/
theorem head?_ne_greater (hdashes : t.endsDashes = true) (hcollides : collides (t :: ts) = false)
    (ha : Ahead t ts r) : r.head? ≠ some '>' := by
  intro hr
  have hnext := ha.greater (value_readToken_of_head? hr (by decide) fun _ => rfl)
  cases ts with
  | nil => contradiction
  | cons u us =>
    obtain rfl := Option.some.inj hnext
    rw [collides_greater, hdashes] at hcollides
    contradiction

theorem endsDashes_of_eq {name : String} (h : name.toList = ['-', '-']) : (name == "--") = true := by
  rw [beq_iff_eq, ← String.ofList_toList (s := name), h]

/-- Behind a number no unit, no digit, no point with a digit and no percent sign stands. -/
theorem parted_number {n : Numeric} (ha : Ahead (.number n) ts r) : (Token.number n).Parted r := by
  have hseparate : (((readToken r).value.beginsName || (readToken r).value.beginsNumber) ||
      (readToken r).value == .delim '%') = false := ha.separate
  simp only [Bool.or_eq_false_iff, beginsName_value_readToken, beginsNumber_value_readToken] at hseparate
  obtain ⟨⟨hident, hnumber⟩, hpercent⟩ := hseparate
  -- a digit or a point with one would begin a number, a percent sign would be read as itself
  refine ⟨hident, ?_, ?_, ?_⟩
  · rw [Bool.eq_false_iff]
    intro hdigit
    rw [startsNumber_of_startsDigit hdigit] at hnumber
    contradiction
  · rintro s rfl
    rw [Bool.eq_false_iff]
    intro hdigit
    rw [startsNumber_cons_iff.2 (Or.inr (Or.inl ⟨rfl, hdigit⟩))] at hnumber
    contradiction
  · intro hr
    have hvalue : (readToken r).value = .delim '%' :=
      value_readToken_of_head? hr (by decide) fun _ => rfl
    rw [hvalue] at hpercent
    simp at hpercent

/-- A lone code point stays alone where nothing goes on with it. -/
theorem isDelim_of_lexical {c : Char} (hc : c ≠ '\\') (ht : (Token.delim c).Lexical)
    (hnumber : startsNumber (c :: r) = false) (hname : c = '-' ∨ c = '#' → startsName r = false)
    (hkeyword : c = '@' → startsIdent r = false) (hstar : c = '/' → r.head? ≠ some '*')
    (hcdo : c = '<' → ¬ ['!', '-', '-'] <+: r) : IsDelim c r := by
  obtain ⟨_, hwhite, _, hstart, hquote, hmark⟩ := ht
  have hcomment : startsComment (c :: r) = false := by
    rw [Bool.eq_false_iff]
    intro hopens
    obtain ⟨s, heq⟩ := startsComment_iff.1 hopens
    obtain ⟨rfl, rfl⟩ := List.cons.inj heq
    exact hstar rfl rfl
  refine ⟨hcomment, hwhite, hnumber, startsIdent_cons_eq_false_of hstart hc fun h => hname (Or.inl h),
    hc, hquote, fun h => hname (Or.inr h), hkeyword, hcdo, ?_, hmark⟩
  -- no name begins behind a hyphen, so no second hyphen either
  rintro rfl ⟨s, rfl⟩
  have hr := hname (Or.inl rfl)
  contradiction

/-- A lone code point is parted from the text behind it, whichever it is: for each that can go on there is a
line among the separators. -/
theorem isDelim_of_ahead {c : Char} (hc : c ≠ '\\') (ht : (Token.delim c).Lexical)
    (hcdo : c = '<' → ¬ ['!', '-', '-'] <+: r) (ha : Ahead (.delim c) ts r) : IsDelim c r := by
  have hdigit : c.isDigit = false := ht.2.2.1
  -- what the separators say for each of the code points that can go on
  have hname : c = '-' ∨ c = '#' → startsName r = false := by
    rintro (rfl | rfl) <;> exact startsName_eq_false_of ha.separate
  have hnumber : c = '.' ∨ c = '+' ∨ c = '-' → startsNumber r = false := by
    rw [← beginsNumber_value_readToken]
    rintro (rfl | rfl | rfl)
    · exact ha.separate
    · exact ha.separate
    · have hcontinues : (readToken r).value.continuesName = false := ha.separate
      simp only [Token.continuesName, Bool.or_eq_false_iff] at hcontinues
      exact hcontinues.1.1.2
  have hkeyword : c = '@' → startsIdent r = false := by
    rintro rfl
    have hseparate : (((readToken r).value.beginsName || (readToken r).value == .delim '-') ||
        (readToken r).value == .cdc) = false := ha.separate
    simp only [Bool.or_eq_false_iff, beginsName_value_readToken] at hseparate
    exact hseparate.1.1
  have hstar : c = '/' → r.head? ≠ some '*' := by
    rintro rfl
    exact head?_ne_of_separate (u := .delim '*') (by decide) (fun _ => rfl) rfl ha
  exact isDelim_of_lexical hc ht (startsNumber_cons_eq_false_of hdigit hnumber) hname hkeyword hstar hcdo

theorem gap_eq_nil (h : ∀ u, ts.head? = some u → t.mustSeparate u = false) : gap t ts = [] := by
  unfold gap
  split
  · rfl
  · next u us => rw [h u rfl]; rfl

theorem exists_body_string {u : Token} (hu : u.isString = true) : ∃ s, u.body = '"' :: s := by
  unfold Token.isString at hu
  split at hu
  · next text => exact ⟨writeStringText text.toList ++ ['"'], rfl⟩
  · next text => exact ⟨writeStringText text.toList, rfl⟩
  · contradiction

/-- A double quote behind at most one whitespace is seen as a string that follows. -/
theorem quoteFollows_append {g : List Char} (hg : ∀ c ∈ g, isWhitespace c = true)
    (hlength : g.length ≤ 1) (s : List Char) :
    quoteFollows (g ++ '"' :: s) = true ∧ ((g ++ '"' :: s).takeWhile isWhitespace).length ≤ 1 := by
  obtain ⟨htake, hdrop⟩ := takeWhile_append_stop hg (r := '"' :: s) rfl
  rw [quoteFollows, htake, hdrop]
  exact ⟨rfl, hlength⟩

/-- What always follows the token in its text begins the text behind it. -/
structure Continued (t : Token) (r : List Char) : Prop where
  line : t.endsLine = true → r.head? = some '\n'
  opens : ∀ name, t = .function name → isUrlName name.toList = true →
    quoteFollows r = true ∧ (r.takeWhile isWhitespace).length ≤ 1
  closes : ∀ name, t = .hash .unrestricted name → name.toList = ['-', '-'] → r.head? = some '>'

/-- It does where the bodies of the next two tokens do. -/
theorem continued_of_settled (hs : t.Settled ts)
    (hnext : ∀ u us, ts = u :: us → t.mustSeparate u = false → ∃ s, r = u.body ++ s)
    (hwhite : ∀ w u us, ts = .whitespace w :: u :: us → ∃ s, r = w.toList ++ (u.body ++ s)) :
    Continued t r := by
  constructor
  -- a stray backslash or a damaged string: its newline is the whitespace that follows
  · intro hline
    obtain ⟨w, us, hts⟩ := exists_newline_of_endsLine hline hs
    obtain ⟨s, hr⟩ := hnext _ us hts (mustSeparate_whitespace t _)
    have hbody : (Token.whitespace (.ofList ('\n' :: w))).body = '\n' :: w := String.toList_ofList
    rw [hr, hbody]
    rfl
  -- a function named `url`: its string follows, at once or behind one whitespace
  · rintro name rfl hurl
    obtain ⟨u, us, hu, hts⟩ : Token.OpensString ts := hs hurl
    obtain ⟨v, hbody⟩ := exists_body_string hu
    rcases hts with hts | ⟨c, hc, hts⟩
    · obtain ⟨s, hr⟩ := hnext u us hts rfl
      rw [hr, hbody]
      exact quoteFollows_append (g := []) (by simp) (by decide) (v ++ s)
    · obtain ⟨s, hr⟩ := hwhite _ u us hts
      rw [hr, hbody, String.toList_ofList]
      exact quoteFollows_append (by simpa using hc) (by simp) (v ++ s)
  -- a hash of two hyphens: the `>` behind it is its own token
  · rintro name rfl hn
    have hhead := hs hn
    cases ts with
    | nil => contradiction
    | cons u us =>
      obtain rfl := Option.some.inj hhead
      obtain ⟨s, hr⟩ := hnext _ us rfl rfl
      rw [hr]
      rfl

/-- In a written list no separator stands between such a token and what follows it. -/
theorem continued_spell (hs : t.Settled ts) : Continued t (gap t ts ++ spell ts) := by
  refine continued_of_settled hs ?_ ?_
  · rintro u us rfl hseparate
    refine ⟨gap u us ++ spell us, ?_⟩
    rw [gap_eq_nil (by rintro v hv; rwa [← Option.some.inj hv])]
    rfl
  · rintro w u us rfl
    refine ⟨gap u us ++ spell us, ?_⟩
    rw [gap, mustSeparate_whitespace, spell, gap_eq_nil fun _ _ => rfl]
    rfl

/-- **A token that is kept apart from what is read behind it does not run into it.** Each kind of token asks
for something else, and finds it among the separators, among the collisions or in what always follows it. -/
theorem parted_of_ahead (ht : t.Lexical) (hs : t.Settled ts) (hcollides : collides (t :: ts) = false)
    (hcontinued : Continued t r) (hcdo : t = .delim '<' → ¬ ['!', '-', '-'] <+: r)
    (ha : Ahead t ts r) : t.Parted r := by
  cases t with
  | ident name =>
    have hseparate : ((readToken r).value.continuesName ||
        (readToken r).value == .punctuation .openParenthesis) = false := ha.separate
    rw [Bool.or_eq_false_iff] at hseparate
    refine ⟨startsName_eq_false_of hseparate.1, ?_, fun hn => ?_⟩
    · exact head?_ne_of_separate (u := .punctuation .openParenthesis) (by decide) (fun _ => rfl) rfl ha
    · exact head?_ne_greater (t := .ident name) (endsDashes_of_eq hn) hcollides ha
  | atKeyword name =>
    exact ⟨startsName_eq_false_of ha.separate, fun hn =>
      head?_ne_greater (t := .atKeyword name) (endsDashes_of_eq hn) hcollides ha⟩
  | dimension n unit =>
    exact ⟨startsName_eq_false_of ha.separate, fun hn =>
      head?_ne_greater (t := .dimension n unit) (endsDashes_of_eq hn) hcollides ha⟩
  | hash kind name =>
    cases kind with
    | id =>
      exact ⟨startsName_eq_false_of ha.separate, fun hn =>
        head?_ne_greater (t := .hash .id name) (endsDashes_of_eq hn) hcollides ha⟩
    | unrestricted => exact ⟨startsName_eq_false_of ha.separate, hcontinued.closes name rfl⟩
  | function name => exact hcontinued.opens name rfl
  | number n => exact parted_number ha
  | whitespace text =>
    rw [Token.Parted, Bool.eq_false_iff]
    intro hwhite
    -- whitespace would be read from it, but none follows
    obtain ⟨c, hc, hcw⟩ := (Option.any_eq_true _ _).1 hwhite
    cases r with
    | nil => contradiction
    | cons d s =>
      obtain rfl : d = c := by simpa using hc
      have hvalue := congrArg Reading.value (Reads.whitespace (s := s) hcw).readToken_eq
      obtain ⟨v, hv⟩ := ha.white _ hvalue
      exact hs v hv
  | badString text => exact hcontinued.line rfl
  | delim c =>
    by_cases hc : c = '\\'
    · subst hc
      exact Or.inl ⟨rfl, hcontinued.line rfl⟩
    · exact Or.inr (isDelim_of_ahead hc ht (fun h => hcdo (by rw [h])) ha)
  | _ => trivial

end

/-! ## What is read in front of the others

What is read behind a token is not always the token that was written there: numbers change, comments are
closed, and tokens that collide are read as others. None of this makes a separator necessary where there was
none. -/

/-- A token that goes on no name and is no parenthesis, percent sign or asterisk has to be kept apart from
nothing. -/
theorem mustSeparate_of_shape (t : Token) {u : Token} (hu : u.continuesName = false)
    (hmark : u ≠ .punctuation .openParenthesis ∧ u ≠ .delim '%' ∧ u ≠ .delim '*') :
    t.mustSeparate u = false := by
  obtain ⟨hopen, hpercent, hstar⟩ := hmark
  have hflags := hu
  simp only [Token.continuesName, Bool.or_eq_false_iff, beq_eq_false_iff_ne] at hflags
  unfold Token.mustSeparate
  split <;> simp [hu, hflags, hopen, hpercent, hstar]

/-- All numbers are kept apart alike. -/
theorem mustSeparate_number {t u v : Token} (hu : u.beginsNumber = true) (hv : v.beginsNumber = true)
    (h : t.mustSeparate u = false) : t.mustSeparate v = false := by
  have hflags (w : Token) (hw : w.beginsNumber = true) :
      w.beginsName = false ∧ w ≠ .delim '%' ∧ w ≠ .punctuation .openParenthesis ∧ w ≠ .delim '-' ∧
        w ≠ .cdc ∧ w ≠ .delim '*' := by
    unfold Token.beginsNumber at hw
    split at hw <;> first | contradiction | simp [Token.beginsName]
  have hflagsu := hflags u hu
  have hflagsv := hflags v hv
  unfold Token.mustSeparate at h ⊢
  split at h <;> simp_all [Token.continuesName]

/-- What need not be kept apart from a name need not be from a `-->`. -/
theorem mustSeparate_cdc {t u : Token} (hu : u.beginsName = true) (h : t.mustSeparate u = false) :
    t.mustSeparate .cdc = false := by
  unfold Token.mustSeparate at h ⊢
  split at h <;> simp_all [Token.continuesName, Token.beginsName, Token.beginsNumber]

/-- A token that is written anew needs no separator that it did not need before. -/
theorem mustSeparate_reread {t u : Token} (h : t.mustSeparate u = false) :
    t.mustSeparate u.reread = false := by
  cases u with
  -- a number stays a number, and the separators ask for no more
  | number n => exact mustSeparate_number (u := .number n) rfl rfl h
  | percentage n => exact mustSeparate_number (u := .percentage n) rfl rfl h
  | dimension n unit => exact mustSeparate_number (u := .dimension n unit) rfl rfl h
  | comment text => exact mustSeparate_of_shape t rfl (by simp [Token.reread])
  | _ => exact h

/-- Nor does what is read where tokens collide. -/
theorem mustSeparate_collided {t u : Token} (hu : u.endsDashes = true ∨ u = .delim '<')
    (h : t.mustSeparate u = false) : t.mustSeparate u.collided = false := by
  rcases hu with hu | rfl
  · unfold Token.endsDashes at hu
    split at hu
    · exact mustSeparate_cdc rfl h
    · exact mustSeparate_of_shape t rfl (by simp [Token.collided])
    · exact mustSeparate_of_shape t rfl (by simp [Token.collided])
    · next n unit => exact mustSeparate_number (u := .dimension n unit) rfl rfl h
    · contradiction
  · exact mustSeparate_of_shape t rfl (by simp [Token.collided])

/-- Only these two kinds of token collide with those behind them. -/
theorem collided_cases {t : Token} {ts : List Token} (h : collides (t :: ts) = true) :
    t.endsDashes = true ∨ t = .delim '<' := by
  rcases collides_cases h with ⟨us, rfl, hdashes⟩ | ⟨u, us, rfl, rfl, hu⟩
  · exact Or.inl hdashes
  · exact Or.inr rfl

/-- So whatever is seen of a token, it needs no separator that the token does not need. -/
theorem mustSeparate_seen {t u : Token} {us : List Token} (h : t.mustSeparate u = false) :
    t.mustSeparate (u.seen us) = false := by
  unfold Token.seen
  split
  · next hcollides => exact mustSeparate_collided (collided_cases hcollides) h
  · exact mustSeparate_reread h

/-- Lone code points and whitespace are read as they are, and nothing else is. -/
theorem eq_of_reread_eq {t u : Token} (h : t.reread = u)
    (hu : (∃ w, u = .whitespace w) ∨ ∃ c, u = .delim c) : t = u := by
  cases t with
  | number n | percentage n | comment text | dimension n unit =>
    rcases hu with ⟨w, rfl⟩ | ⟨c, rfl⟩ <;> simp [Token.reread] at h
  | _ => exact h

/-- Lone code points and whitespace are seen only where they are. -/
theorem eq_of_seen_eq {t u : Token} {ts : List Token} (h : t.seen ts = u)
    (hu : (∃ w, u = .whitespace w) ∨ ∃ c, u = .delim c ∧ c ≠ '@') : t = u := by
  unfold Token.seen at h
  split at h
  · next hcollides =>
    -- what is read of a collision is neither whitespace nor a code point that could be meant
    have hcollided : t.collided ≠ u := by
      rcases collided_cases hcollides with hdashes | rfl
      · unfold Token.endsDashes at hdashes
        split at hdashes
        all_goals first | contradiction | skip
        all_goals
          rcases hu with ⟨w, rfl⟩ | ⟨c, rfl, hc⟩
          · simp [Token.collided]
          · simp [Token.collided, hc.symm]
      · rcases hu with ⟨w, rfl⟩ | ⟨c, rfl, hc⟩ <;> simp [Token.collided]
    exact absurd h hcollided
  · exact eq_of_reread_eq h (hu.imp_right fun ⟨c, hc, _⟩ => ⟨c, hc⟩)

/-- A gap is read as a comment, and nothing else is read of it. -/
theorem readToken_gap (r : List Char) :
    readToken ("/**/".toList ++ r) = ⟨.comment "/**/", r, .taking "/**/".toList⟩ := by
  have hbody := readCommentBody_append closesComment_end r
  have hread : readComment ("/**/".toList ++ r) = ⟨"/**/".toList, r, .taking "/**/".toList⟩ := by
    show ((readCommentBody (['*', '/'] ++ r)).map _).after _ = _
    rw [hbody]
    rfl
  rw [(Reads.comment rfl).readToken_eq, hread]
  rfl

section

variable {t : Token} {ts : List Token}

/-- What is ahead of a token is the gap, or what is seen of the next token, or the end. -/
theorem ahead_of_read (hread : ∀ u us, ts = u :: us → (readToken (spell ts)).value = u.seen us) :
    Ahead t ts (gap t ts ++ spell ts) := by
  cases ts with
  | nil =>
    have hvalue : (readToken (gap t [] ++ spell [])).value = .endOfInput := rfl
    refine ⟨?_, nofun, nofun⟩
    rw [hvalue]
    exact mustSeparate_of_shape t rfl (by simp)
  | cons u us =>
    by_cases hseparate : t.mustSeparate u = true
    · -- the gap is read in front
      have hvalue : (readToken (gap t (u :: us) ++ spell (u :: us))).value = .comment "/**/" := by
        rw [gap, if_pos hseparate, readToken_gap]
      refine ⟨?_, ?_, ?_⟩
      · rw [hvalue]
        exact mustSeparate_of_shape t rfl (by simp)
      · intro h
        rw [hvalue] at h
        contradiction
      · intro w h
        rw [hvalue] at h
        contradiction
    · -- nothing is put between the two
      rw [Bool.not_eq_true] at hseparate
      have hvalue : (readToken (gap t (u :: us) ++ spell (u :: us))).value = u.seen us := by
        rw [gap_eq_nil (by rintro v hv; rwa [← Option.some.inj hv]), List.nil_append, hread u us rfl]
      refine ⟨?_, ?_, ?_⟩
      · rw [hvalue]
        exact mustSeparate_seen hseparate
      · intro h
        rw [hvalue] at h
        rw [eq_of_seen_eq h (Or.inr ⟨'>', rfl, by decide⟩)]
        rfl
      · intro w h
        rw [hvalue] at h
        rw [eq_of_seen_eq h (Or.inl ⟨w, rfl⟩)]
        exact ⟨w, rfl⟩

/-- Two hyphens are read as the front of a name, or of a `-->`. -/
theorem beginsDashes_value_readToken (s : List Char) :
    (readToken ('-' :: '-' :: s)).value.beginsDashes = true := by
  have hhyphen : isNameChar '-' = true := by decide
  -- only a `>` keeps the two hyphens from beginning a name
  by_cases hs : s.head? = some '>'
  · cases s with
    | nil => contradiction
    | cons c s =>
      obtain rfl : c = '>' := by simpa using hs
      rw [Reads.cdc.readToken_eq]
      rfl
  · have hident : startsIdent ('-' :: '-' :: s) = true := by simpa [startsIdent] using hs
    have hname : ['-', '-'] <+: (readName ('-' :: '-' :: s)).value := by
      rw [value_readName_cons hhyphen, value_readName_cons hhyphen]
      exact List.prefix_append ['-', '-'] _
    -- so the name is not that of a url, which would hide it
    have hurl : isUrlName (readName ('-' :: '-' :: s)).value = false := by
      rw [value_readName_cons hhyphen]
      rfl
    rw [readToken_of_startsIdent hident]
    unfold readIdentLike
    simp only [Reading.value_after]
    split
    · rw [hurl]
      simpa [Token.beginsDashes] using hname
    · simpa [Token.beginsDashes] using hname

/-- What is seen with two hyphens in front is written so. -/
theorem beginsDashes_of_seen (h : (t.seen ts).beginsDashes = true) : t.beginsDashes = true := by
  unfold Token.seen at h
  split at h
  · next hcollides =>
    rcases collided_cases hcollides with hdashes | rfl
    · unfold Token.endsDashes at hdashes
      split at hdashes
      · next name =>
        rw [beq_iff_eq] at hdashes
        rw [hdashes]
        decide
      all_goals contradiction
    · contradiction
  · cases t <;> exact h

/-- Without a collision no `<!--` comes about. -/
theorem not_opening_of_read (hcollides : collides (.delim '<' :: ts) = false)
    (hread : ∀ us u vs, ts = us ++ u :: vs → (readToken (spell (u :: vs))).value = u.seen vs) :
    ¬ ['!', '-', '-'] <+: gap (.delim '<') ts ++ spell ts := by
  rw [gap_eq_nil fun _ _ => rfl, List.nil_append]
  rintro ⟨s, hs⟩
  cases ts with
  | nil => contradiction
  | cons u us =>
    have hbang : (readToken (spell (u :: us))).value = .delim '!' := by
      rw [← hs]
      exact value_readToken_of_head? (c := '!') rfl (by decide) fun _ => rfl
    rw [hread [] u us rfl] at hbang
    obtain rfl := eq_of_seen_eq hbang (Or.inr ⟨'!', rfl, by decide⟩)
    -- the hyphens are the front of the token behind the `!`
    have hspell : spell (.delim '!' :: us) = '!' :: spell us := by
      rw [spell, gap_eq_nil fun _ _ => rfl]
      rfl
    rw [hspell] at hs
    have hdashes : '-' :: '-' :: s = spell us := (List.cons.inj hs).2
    cases us with
    | nil => contradiction
    | cons v vs =>
      -- read as such it is written as such, and that makes the collision
      have hvalue := beginsDashes_value_readToken s
      rw [hdashes, hread [.delim '!'] v vs rfl] at hvalue
      have hcol : collides (.delim '<' :: .delim '!' :: v :: vs) = v.beginsDashes := rfl
      rw [hcol, beginsDashes_of_seen hvalue] at hcollides
      contradiction

theorem body_beginsDashes (h : t.beginsDashes = true) : ∃ s, t.body = '-' :: '-' :: s := by
  have hident (name : List Char) (hname : ['-', '-'].isPrefixOf name = true) :
      ∃ s, writeIdent name = '-' :: '-' :: s := by
    rw [List.isPrefixOf_iff_prefix] at hname
    obtain ⟨n, rfl⟩ := hname
    exact ⟨writeName n, rfl⟩
  unfold Token.beginsDashes at h
  split at h
  · exact ⟨_, rfl⟩
  · next name => exact hident _ h
  · next name =>
    obtain ⟨s, hs⟩ := hident _ h
    refine ⟨s ++ ['('], ?_⟩
    show writeIdent name.toList ++ ['('] = _
    rw [hs]
    rfl
  · contradiction

/-- Three code points decide, and the third is in the way. -/
theorem startsIdent_arrow (s : List Char) : startsIdent ('-' :: '-' :: '>' :: s) = false := rfl

/-- Before a `>` two hyphens are no name. -/
theorem value_readToken_arrow (ht : t.Lexical) (hdashes : t.endsDashes = true) (s : List Char) :
    (readToken (t.body ++ '>' :: s)).value = t.collided := by
  unfold Token.endsDashes at hdashes
  split at hdashes
  -- behind an at sign or a number sign, the two hyphens are left or are a name that is no identifier
  · obtain rfl := eq_of_beq hdashes
    exact congrArg Reading.value (Reads.cdc (s := s)).readToken_eq
  · obtain rfl := eq_of_beq hdashes
    have hdelim : IsDelim '@' ('-' :: '-' :: '>' :: s) :=
      ⟨rfl, rfl, rfl, rfl, by decide, by decide, by simp, fun _ => startsIdent_arrow s, by simp, by simp, rfl⟩
    exact congrArg Reading.value (Reads.delim hdelim).readToken_eq
  · obtain rfl := eq_of_beq hdashes
    have hread := (Reads.hash (s := '-' :: '-' :: '>' :: s) rfl).readToken_eq
    rw [startsIdent_arrow, readName_arrow] at hread
    exact congrArg Reading.value hread
  · next n unit =>
    obtain rfl := eq_of_beq hdashes
    -- without a unit a number is left
    obtain ⟨m, hm, hwrite⟩ := exists_write_eq_text ht.1
    have hstops : StopsNumeral ('-' :: '-' :: '>' :: s) :=
      stopsNumeral_of_head (by decide) (by decide) _
    have hread := (Reads.number (startsNumber_text_append hm _) (readNumeral_text_append hm hstops)
      (startsIdent_arrow s) (by simp)).readToken_eq
    have hbody : (Token.dimension n "--").body ++ '>' :: s = m.text ++ '-' :: '-' :: '>' :: s := by
      show n.write ++ ['-', '-'] ++ '>' :: s = _
      rw [hwrite]
      simp
    rw [hbody, hread]
    exact congrArg Token.number (reread_of_write hm hwrite).symm
  · contradiction

/-- Where tokens collide something else is read, as soon as their bodies stand side by side. -/
theorem value_readToken_collided {r : List Char} (ht : t.Lexical) (hcollides : collides (t :: ts) = true)
    (hgreater : ∀ us, ts = .delim '>' :: us → ∃ s, r = '>' :: s)
    (hopening : ∀ u us, ts = .delim '!' :: u :: us → ∃ s, r = '!' :: (u.body ++ s)) :
    (readToken (t.body ++ r)).value = t.collided := by
  rcases collides_cases hcollides with ⟨us, hts, hdashes⟩ | ⟨u, us, rfl, hts, hu⟩
  · obtain ⟨s, rfl⟩ := hgreater us hts
    exact value_readToken_arrow ht hdashes s
  · obtain ⟨s, rfl⟩ := hopening u us hts
    obtain ⟨v, hv⟩ := body_beginsDashes hu
    rw [hv]
    exact congrArg Reading.value (Reads.cdo (s := v ++ s)).readToken_eq

/-- In a written list they do stand side by side, for no separator is put before a `>` or a `!`. -/
theorem value_readToken_spell_collided (ht : t.Lexical) (hcollides : collides (t :: ts) = true) :
    (readToken (spell (t :: ts))).value = t.collided := by
  refine value_readToken_collided ht hcollides ?_ ?_
  · rintro us rfl
    refine ⟨gap (.delim '>') us ++ spell us, ?_⟩
    rw [gap_eq_nil fun u hu => ?_]
    · rfl
    · rw [← Option.some.inj hu]
      exact mustSeparate_of_shape t (by decide) (by decide)
  · rintro u us rfl
    refine ⟨gap u us ++ spell us, ?_⟩
    rw [gap_eq_nil fun v hv => ?_, spell, gap_eq_nil fun _ _ => rfl, spell]
    · rfl
    · rw [← Option.some.inj hv]
      exact mustSeparate_of_shape t (by decide) (by decide)

end

/-- **What is read in front of a written list.** Where it collides, something else than the first token;
everywhere else that token, and what is left are the others. -/
theorem readToken_spell (t : Token) (ts : List Token) (hlex : ∀ u ∈ t :: ts, u.Lexical)
    (hs : Settles (t :: ts)) :
    (readToken (spell (t :: ts))).value = t.seen ts ∧
      (collides (t :: ts) = false → t.ReadsBack (gap t ts ++ spell ts)) := by
  obtain ⟨ht, hts⟩ := List.forall_mem_cons.1 hlex
  by_cases hcollides : collides (t :: ts) = true
  · refine ⟨?_, fun h => ?_⟩
    · rw [value_readToken_spell_collided ht hcollides, Token.seen, if_pos hcollides]
    · rw [hcollides] at h
      contradiction
  · rw [Bool.not_eq_true] at hcollides
    -- by induction this is known of every list behind the first token
    have hread : ∀ us u vs, ts = us ++ u :: vs → (readToken (spell (u :: vs))).value = u.seen vs := by
      intro us u vs heq
      have hsettles : Settles (u :: vs) := by
        have hlater := hs.2
        rw [heq] at hlater
        exact hlater.of_append
      have hlater : ∀ v ∈ u :: vs, v.Lexical := by
        intro v hv
        exact hts v (heq ▸ List.mem_append_right us hv)
      exact (readToken_spell u vs hlater hsettles).1
    have hahead := ahead_of_read (t := t) fun u us h => h ▸ hread [] u us h
    have hback : t.ReadsBack (gap t ts ++ spell ts) := by
      refine readToken_body_append ht (parted_of_ahead ht hs.1 hcollides (continued_spell hs.1) ?_ hahead)
      rintro rfl
      exact not_opening_of_read hcollides hread
    refine ⟨?_, fun _ => hback⟩
    rw [spell, hback.value, Token.seen, hcollides]
    rfl
termination_by ts.length
decreasing_by
  have hlength := congrArg List.length heq
  simp only [List.length_append, List.length_cons] at hlength
  omega

end CssLex
