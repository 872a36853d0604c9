import CssLex.Proofs.Agreement
import CssLex.Proofs.Following
import CssLex.Proofs.RoundTrip

/-!
# CssLex — written tokens without their separators

Taking the comments out of a written list takes out what keeps its tokens apart. What is left are their
bodies (`joined`), and a lexer that strips comments reads these. In a text that was read, few neighbours
need a separator at all (`Token.Meets`): it is numbers, and what an `@` stands before. Of those only the
numbers that are written with a digit first run into the token before them (`Unjoined`).

* `rest_readToken_of_value`: a token that is read where its body stands is read from its body.
* `tokensOf_joined_iff`: the bodies are read back exactly if no tokens merge or join.
* `roundTrip_strip_iff`: the same of texts.
-/

namespace CssLex

/-! ## Bodies side by side

The bodies of a list are what is left of it when the separators are gone. Whether that can be read back is
asked of neighbours only. -/

/-- The bodies of the tokens, with nothing between them. -/
def joined (ts : List Token) : List Char :=
  ts.flatMap Token.body

/-- No token is written with a digit first behind one that goes on with digits. -/
def Unjoined (ts : List Token) : Prop :=
  ts.IsChain fun t u => (t.mustSeparate u && startsDigit u.body) = false

@[simp] theorem joined_nil : joined [] = [] := rfl

@[simp] theorem joined_cons (t : Token) (ts : List Token) :
    joined (t :: ts) = t.body ++ joined ts := List.flatMap_cons

/-- The first two tokens are asked, and then the rest of the list. -/
theorem unjoined_cons_cons {t u : Token} {ts : List Token} :
    Unjoined (t :: u :: ts) ↔ (t.mustSeparate u && startsDigit u.body) = false ∧ Unjoined (u :: ts) :=
  List.isChain_cons_cons

/-! ## Read where its body stands

One half of the equivalence needs this converse: if what is read is the right token, then it is read from its
own body and nothing more, so that the next token is read from the next body. The spelling that the reading
took is compared with the body, kind by kind. -/

section

variable {t u : Token} {ts : List Token} {r : List Char}

/-- A spelling of a name and what is written for it are the same part of a text. -/
theorem rest_of_spells {w n x r' : List Char} (hw : SpellsName w n) (hx : NameText x n r')
    (heq : x ++ r' = w ++ r) : r' = r := by
  obtain ⟨hvalue, hrest⟩ := hx.readName_append
  rw [heq, hw.readName_front] at hvalue hrest
  -- what is written is the name, so the text behind it adds nothing
  have hnone : (readName r).value = [] := by simpa using hvalue
  have hstop : startsName r = false := by
    rw [Bool.eq_false_iff]
    exact fun hname => value_readName_ne_nil hname hnone
  rw [← hrest]
  simp [readName_of_not_startsName hstop]

/-- A token that is read where its body stands leaves what stands behind its body. -/
theorem rest_readToken_of_value (ht : t.Lexical) (hcontinued : Continued t r)
    (h : (readToken (t.body ++ r)).value = t.reread) : (readToken (t.body ++ r)).rest = r := by
  obtain ⟨w, hw, hsplits⟩ := exists_source h
  have hcancel : w = t.body → (readToken (t.body ++ r)).rest = r := by
    intro heq
    rwa [heq, List.append_cancel_left_eq] at hsplits
  generalize hrest : (readToken (t.body ++ r)).rest = rest at hw hsplits hcancel
  -- a spelling that is its text alone is the body; names need that no name goes on behind them; what carries
  -- its end with it needs nothing
  cases t with
  | endOfInput => contradiction
  | ident name => exact rest_of_spells (spellsName_writeIdent ht.2) hw hsplits
  | atKeyword name =>
    obtain ⟨x, rfl, hx⟩ := hw
    exact rest_of_spells (spellsName_writeIdent ht.2) hx (List.cons.inj hsplits).2
  | hash kind name =>
    obtain ⟨x, rfl, hx, _⟩ := hw
    cases kind with
    | id => exact rest_of_spells (spellsName_writeIdent ht.2) hx (List.cons.inj hsplits).2
    | unrestricted => exact rest_of_spells (spellsName_writeName ht.2) hx (List.cons.inj hsplits).2
  | dimension n unit =>
    obtain ⟨x, rfl, hx⟩ := hw
    have hbody : (Token.dimension n unit).body = n.write ++ writeUnit unit.toList := rfl
    rw [text_reread n ht.1, hbody, List.append_assoc, List.append_assoc,
      List.append_cancel_left_eq] at hsplits
    exact rest_of_spells (spellsName_writeUnit ht.2.2) hx hsplits
  | number n => exact hcancel (Eq.trans hw (text_reread n ht))
  | percentage n =>
    refine hcancel (Eq.trans hw ?_)
    rw [text_reread n ht]
    rfl
  | whitespace text => exact hcancel hw.1.symm
  | comment text => exact hcancel (hw.1.symm.trans String.toList_ofList)
  | cdo => exact hcancel hw
  | cdc => exact hcancel hw
  | punctuation p => exact hcancel hw
  | delim c =>
    by_cases hc : c = '\\'
    · subst hc
      exact hcancel hw
    · exact hcancel (Eq.trans hw (body_delim hc).1.symm)
  | function name =>
    exact hrest.symm.trans (readToken_body_append ht (hcontinued.opens name rfl)).rest
  | badString text =>
    exact hrest.symm.trans (readToken_body_append ht (hcontinued.line rfl)).rest
  | string text => exact hrest.symm.trans (readToken_body_append ht trivial).rest
  | url text => exact hrest.symm.trans (readToken_body_append ht trivial).rest
  | badUrl text => exact hrest.symm.trans (readToken_body_append ht trivial).rest

/-! ## Read back in front of the others

The other half: a token is parted from the bodies behind it. Where a separator would have been needed, what
follows is a number with its sign, or what an `@` stands before. -/

/-- What settles a token stands at the front of the bodies, as it would in a written list. -/
theorem continued_joined (hs : t.Settled ts) : Continued t (joined ts) := by
  refine continued_of_settled hs ?_ ?_
  · rintro u us rfl _
    exact ⟨joined us, joined_cons u us⟩
  · rintro w u us rfl
    exact ⟨joined us, by rw [joined_cons, joined_cons]; rfl⟩

/-- A number with a sign in front does not run into the token before it. -/
theorem parted_signed (ht : t.Lexical) (hcontinued : Continued t r) (hseparate : t.mustSeparate u = true)
    (hu : u.beginsNumber = true) (hnumber : startsNumber r = true)
    (hr : (∃ s, r = '+' :: s) ∨ ∃ s, r = '-' :: s)
    (hminus : t.mustSeparate (.delim '-') = true → r.head? ≠ some '-') : t.Parted r := by
  have hdigit : startsDigit r = false := by
    rcases hr with ⟨s, rfl⟩ | ⟨s, rfl⟩ <;> rfl
  -- behind a name the sign is a plus
  have hplus : t.mustSeparate (.delim '-') = true →
      startsName r = false ∧ r.head? ≠ some '(' ∧ r.head? ≠ some '>' := by
    intro hname
    rcases hr with ⟨s, rfl⟩ | ⟨s, rfl⟩
    · exact ⟨rfl, by simp, by simp⟩
    · exact absurd rfl (hminus hname)
  -- only a name, a number or one of a few delimiters has to be kept apart from a number
  cases t with
  | ident name =>
    obtain ⟨hname, hopen, hgreater⟩ := hplus rfl
    exact ⟨hname, hopen, fun _ => hgreater⟩
  | atKeyword name => exact ⟨(hplus rfl).1, fun _ => (hplus rfl).2.2⟩
  | dimension n unit => exact ⟨(hplus rfl).1, fun _ => (hplus rfl).2.2⟩
  | hash kind name =>
    cases kind with
    | id => exact ⟨(hplus rfl).1, fun _ => (hplus rfl).2.2⟩
    | unrestricted => exact ⟨(hplus rfl).1, hcontinued.closes name rfl⟩
  | number n =>
    refine ⟨startsIdent_of_startsNumber hnumber, hdigit, ?_, ?_⟩
    · rcases hr with ⟨s, rfl⟩ | ⟨s, rfl⟩ <;> simp
    · rcases hr with ⟨s, rfl⟩ | ⟨s, rfl⟩ <;> simp
  | delim c =>
    have hc : (c = '#' ∨ c = '-') ∨ c = '.' ∨ c = '+' := by
      unfold Token.beginsNumber at hu
      unfold Token.mustSeparate at hseparate
      split at hseparate <;> split at hu <;> simp_all [Token.beginsName]
    have hback : c ≠ '\\' := by
      rintro rfl
      simp at hc
    refine Or.inr (isDelim_of_lexical hback ht ?_ ?_ ?_ ?_ ?_)
    · rw [Bool.eq_false_iff, ne_eq, startsNumber_cons_iff, ht.2.2.1]
      rcases hr with ⟨s, rfl⟩ | ⟨s, rfl⟩ <;> simp [startsDigit]
    · rintro (rfl | rfl) <;> exact (hplus rfl).1
    all_goals
      rintro rfl
      simp at hc
  | _ => contradiction

/-- A hyphen that begins no identifier can stand behind an `@`. -/
theorem isDelim_at (ht : (Token.delim '@').Lexical) (hident : startsIdent r = false) :
    IsDelim '@' r :=
  isDelim_of_lexical (by decide) ht (startsNumber_cons_eq_false_of (by decide) (by simp)) (by simp)
    (fun _ => hident) (by simp) (by simp)

/-- What is ahead is told by the token that is read there, and that is the next one. -/
theorem ahead_of_reread {us : List Token} (h : (readToken r).value = u.reread)
    (hseparate : t.mustSeparate u = false) : Ahead t (u :: us) r := by
  refine ⟨?_, fun hgreater => ?_, fun w hwhite => ?_⟩
  · rw [h]
    exact mustSeparate_reread hseparate
  · rw [h] at hgreater
    rw [eq_of_reread_eq hgreater (Or.inr ⟨_, rfl⟩)]
    rfl
  · rw [h] at hwhite
    rw [eq_of_reread_eq hwhite (Or.inl ⟨_, rfl⟩)]
    exact ⟨w, rfl⟩

/-- Tokens that are read back make no `<!--` behind a `<`, unless they collide with it. -/
theorem not_opening_of_tokensOf (hcollides : collides (.delim '<' :: ts) = false)
    (hread : tokensOf (joined ts) = ts.map Token.reread) : ¬ ['!', '-', '-'] <+: joined ts := by
  rintro ⟨s, hs⟩
  have hmark : readToken ('!' :: '-' :: '-' :: s) = ⟨.delim '!', '-' :: '-' :: s, [.take '!']⟩ :=
    readToken_of_isMark _ (by decide)
  have htokens : tokensOf (joined ts) = .delim '!' :: tokensOf ('-' :: '-' :: s) := by
    rw [← hs]
    show tokensOf ('!' :: '-' :: '-' :: s) = _
    rw [tokensOf_of_ne_nil (by simp), hmark]
  rw [hread, tokensOf_of_ne_nil (by simp)] at htokens
  match ts with
  | [] => contradiction
  | [u] => simp at htokens
  | u :: v :: vs =>
    obtain ⟨hu, htail⟩ := List.cons.inj htokens
    obtain rfl := eq_of_reread_eq hu (Or.inr ⟨_, rfl⟩)
    -- what begins with the hyphens is the token behind the `!`
    have hv : v.reread = (readToken ('-' :: '-' :: s)).value := (List.cons.inj htail).1
    have hdashes := beginsDashes_value_readToken s
    rw [← hv] at hdashes
    have hbegins : v.beginsDashes = true := by cases v <;> exact hdashes
    have hcol : collides (.delim '<' :: .delim '!' :: v :: vs) = v.beginsDashes := rfl
    rw [hcol, hbegins] at hcollides
    contradiction

/-- To be written anew does not change how a token begins. -/
theorem beginsName_reread (t : Token) : t.reread.beginsName = t.beginsName := by
  cases t <;> rfl

/-- Neither does it change whether a number stands there. -/
theorem beginsNumber_reread (t : Token) : t.reread.beginsNumber = t.beginsNumber := by
  cases t <;> rfl

/-- A number that is not written with a digit first has a sign there. -/
theorem signed_joined {v : Token} (hv : v.beginsNumber = true) (hdigit : startsDigit v.body = false)
    (vs : List Token) :
    ((∃ s, joined (v :: vs) = '+' :: s) ∨ ∃ s, joined (v :: vs) = '-' :: s) ∧
      (joined (v :: vs)).head? = v.body.head? := by
  rw [joined_cons]
  rcases body_number_cases hv with h | ⟨s, hs⟩ | ⟨s, hs⟩
  · rw [hdigit] at h
    contradiction
  · rw [hs]
    exact ⟨Or.inl ⟨s ++ joined vs, rfl⟩, rfl⟩
  · rw [hs]
    exact ⟨Or.inr ⟨s ++ joined vs, rfl⟩, rfl⟩

/-- In front of tokens that are read back a token is parted from them, unless it merges or joins. -/
theorem parted_joined (ht : t.Lexical) (hs : t.Settled ts) (hmeets : (t :: ts).IsChain Token.Meets)
    (hcollides : collides (t :: ts) = false)
    (hjoins : ∀ v ∈ ts.head?, (t.mustSeparate v && startsDigit v.body) = false)
    (hread : tokensOf (joined ts) = ts.map Token.reread) : t.Parted (joined ts) := by
  have hcontinued := continued_joined hs
  have hcdo : t = .delim '<' → ¬ ['!', '-', '-'] <+: joined ts := by
    rintro rfl
    exact not_opening_of_tokensOf hcollides hread
  cases ts with
  | nil =>
    refine parted_of_ahead ht hs hcollides hcontinued hcdo ⟨?_, nofun, nofun⟩
    exact mustSeparate_of_shape t rfl (by simp [readToken])
  | cons v vs =>
    have hvalue : (readToken (joined (v :: vs))).value = v.reread := by
      have hne : joined (v :: vs) ≠ [] := by
        intro hnil
        rw [hnil, tokensOf_nil] at hread
        contradiction
      rw [tokensOf_of_ne_nil hne, List.map_cons] at hread
      exact (List.cons.inj hread).1
    cases hseparate : t.mustSeparate v with
    | false => exact parted_of_ahead ht hs hcollides hcontinued hcdo (ahead_of_reread hvalue hseparate)
    | true =>
      have hdigit : startsDigit v.body = false := by
        have hv := hjoins v rfl
        rwa [hseparate, Bool.true_and] at hv
      rcases (List.isChain_cons_cons.1 hmeets).1 hseparate with ⟨hv, hminus⟩ | ⟨rfl, hname, hnumber⟩
      · -- a number, and its sign comes first
        have hnumber : startsNumber (joined (v :: vs)) = true := by
          rw [← beginsNumber_value_readToken, hvalue, beginsNumber_reread, hv]
        obtain ⟨hsigned, hhead⟩ := signed_joined hv hdigit vs
        exact parted_signed ht hcontinued hseparate hv hnumber hsigned fun h => hhead ▸ hminus h
      · refine Or.inr (isDelim_at ht ?_)
        rw [← beginsName_value_readToken, hvalue, beginsName_reread, hname]

end

/-! ## Lists

Both halves are put together along a list, from its end to its front: the bodies behind a token are read back
as the induction says, and the token itself as above. -/

/-- A token that could have been read is written with something. -/
theorem body_ne_nil {t : Token} (ht : t.Lexical) : t.body ≠ [] := by
  -- Most bodies have a sign of their own in them. Those of names and numbers have none, but something begins
  -- there.
  have hident : ∀ {n : List Char}, IsName n → writeIdent n ≠ [] := by
    intro n hn hnil
    have hstarts := (spellsName_writeIdent hn.2).startsName_append hn.1 []
    rw [hnil] at hstarts
    contradiction
  have hnumber : ∀ {n : Numeric}, n.HasOneSign → n.write ≠ [] := by
    intro n hn hnil
    obtain ⟨m, hm, hwrite⟩ := exists_write_eq_text hn
    have hstarts := startsNumber_text_append hm []
    rw [← hwrite, hnil] at hstarts
    contradiction
  cases t with
  | endOfInput => contradiction
  | ident name => exact hident ht
  | function name => exact List.append_ne_nil_of_right_ne_nil _ (by simp)
  | atKeyword name => exact List.cons_ne_nil _ _
  | hash kind name => cases kind <;> exact List.cons_ne_nil _ _
  | string text => exact List.cons_ne_nil _ _
  | badString text => exact List.cons_ne_nil _ _
  | url text => exact List.append_ne_nil_of_right_ne_nil _ (by simp)
  | badUrl text => exact List.append_ne_nil_of_right_ne_nil _ (by simp)
  | number n => exact hnumber ht
  | percentage n => exact List.append_ne_nil_of_right_ne_nil _ (by simp)
  | dimension n unit => exact List.append_ne_nil_of_left_ne_nil (hnumber ht.1) _
  | whitespace text => exact ht.1
  | comment text =>
    obtain ⟨_, y, htext, _⟩ := ht
    refine List.append_ne_nil_of_left_ne_nil ?_ _
    rw [htext]
    simp
  | cdo => exact List.cons_ne_nil _ _
  | cdc => exact List.cons_ne_nil _ _
  | punctuation p => exact List.cons_ne_nil _ _
  | delim c =>
    by_cases hc : c = '\\'
    · subst hc
      exact List.cons_ne_nil _ _
    · rw [(body_delim hc).1]
      simp

/-- Tokens that merge do so without their separators as well, since they have none. -/
theorem value_readToken_joined_collided {t : Token} {ts : List Token} (ht : t.Lexical)
    (hcollides : collides (t :: ts) = true) :
    (readToken (joined (t :: ts))).value = t.collided := by
  refine value_readToken_collided ht hcollides ?_ ?_
  · rintro us rfl
    exact ⟨joined us, rfl⟩
  · rintro u us rfl
    exact ⟨joined us, rfl⟩

/-- Tokens that are written anew have to be kept apart where the first ones had to be. -/
theorem mustSeparate_reread_reread {t u : Token} (h : t.mustSeparate u = true) :
    t.reread.mustSeparate u.reread = true := by
  have hleft : t.reread.mustSeparate u = true := by cases t <;> exact h
  -- a number stays a number, and a comment is kept apart from nothing
  rw [← Bool.not_eq_false] at hleft ⊢
  intro hfalse
  apply hleft
  cases u with
  | number n => exact mustSeparate_number (u := .number n.reread) rfl rfl hfalse
  | percentage n => exact mustSeparate_number (u := .percentage n.reread) rfl rfl hfalse
  | dimension n unit => exact mustSeparate_number (u := .dimension n.reread unit) rfl rfl hfalse
  | comment text => exact mustSeparate_of_shape _ rfl (by simp)
  | _ => exact hfalse

/-- So the bodies of a list that is not empty are not empty either. -/
theorem joined_ne_nil {t : Token} (ht : t.Lexical) (ts : List Token) : joined (t :: ts) ≠ [] := by
  rw [joined_cons]
  exact List.append_ne_nil_of_left_ne_nil (body_ne_nil ht) _

/-- A token that is read as itself has not merged with those behind it. -/
theorem collides_eq_false_of_value {t : Token} {ts : List Token} (ht : t.Lexical)
    (h : (readToken (joined (t :: ts))).value = t.reread) : collides (t :: ts) = false := by
  rw [Bool.eq_false_iff]
  intro hcollides
  -- what is read of merged tokens is another token
  obtain ⟨hcomment, _, hcollided⟩ := forgetNumber_collided_ne hcollides
  rw [value_readToken_joined_collided ht hcollides] at h
  rw [h, forgetNumber_reread hcomment] at hcollided
  exact hcollided rfl

/-- Two neighbours that are read as themselves have not joined: a digit would have been taken. -/
theorem not_joins_of_value {t u : Token} {us : List Token} (ht : t.Lexical)
    (hvalue : (readToken (joined (t :: u :: us))).value = t.reread)
    (hrest : (readToken (joined (t :: u :: us))).rest = joined (u :: us))
    (hnext : (readToken (joined (u :: us))).value = u.reread) :
    (t.mustSeparate u && startsDigit u.body) = false := by
  rw [Bool.eq_false_iff, ne_eq, Bool.and_eq_true]
  rintro ⟨hseparate, hdigit⟩
  have hapart : t.reread.mustSeparate (readToken (readToken (joined (t :: u :: us))).rest).value = true := by
    rw [hrest, hnext]
    exact mustSeparate_reread_reread hseparate
  rw [← hvalue] at hapart
  have hnone := (goesOn_readToken (joined_ne_nil ht _) hapart).startsDigit_eq
  rw [hrest, joined_cons] at hnone
  cases hbody : u.body with
  | nil =>
    rw [hbody] at hdigit
    contradiction
  | cons c s =>
    rw [hbody] at hdigit hnone
    rw [show startsDigit (c :: s ++ joined us) = startsDigit (c :: s) from rfl, hdigit] at hnone
    contradiction

/-- **Bodies side by side are read back exactly if no tokens merge and no number joins the token before
it.** -/
theorem tokensOf_joined_iff {ts : List Token} (hlex : ∀ t ∈ ts, t.Lexical) (hs : Settles ts)
    (hmeets : ts.IsChain Token.Meets) :
    tokensOf (joined ts) = ts.map Token.reread ↔ Unmerged ts ∧ Unjoined ts := by
  induction ts with
  | nil => exact iff_of_true tokensOf_nil ⟨unmerged_nil, .nil⟩
  | cons t ts ih =>
    obtain ⟨ht, hlex⟩ := List.forall_mem_cons.1 hlex
    have ih := ih hlex hs.2 hmeets.tail
    have htokens := tokensOf_of_ne_nil (joined_ne_nil ht ts)
    constructor
    · intro hread
      rw [htokens, List.map_cons] at hread
      obtain ⟨hvalue, htail⟩ := List.cons.inj hread
      -- what is read as the token is read from its body, and the others from theirs
      have hrest : (readToken (joined (t :: ts))).rest = joined ts :=
        rest_readToken_of_value ht (continued_joined hs.1) hvalue
      rw [hrest] at htail
      obtain ⟨hunmerged, hunjoined⟩ := ih.1 htail
      refine ⟨unmerged_cons_iff.2 ⟨collides_eq_false_of_value ht hvalue, hunmerged⟩, ?_⟩
      cases ts with
      | nil => exact .singleton t
      | cons u us =>
        rw [tokensOf_of_ne_nil (joined_ne_nil (hlex u List.mem_cons_self) us)] at htail
        have hnext : (readToken (joined (u :: us))).value = u.reread := (List.cons.inj htail).1
        exact unjoined_cons_cons.2 ⟨not_joins_of_value ht hvalue hrest hnext, hunjoined⟩
    · rintro ⟨hunmerged, hunjoined⟩
      obtain ⟨hcollides, hunmerged⟩ := unmerged_cons_iff.1 hunmerged
      have htail := ih.2 ⟨hunmerged, hunjoined.tail⟩
      have hjoins : ∀ v ∈ ts.head?, (t.mustSeparate v && startsDigit v.body) = false := by
        cases ts with
        | nil => simp
        | cons u us => simpa using (unjoined_cons_cons.1 hunjoined).1
      have hback : t.ReadsBack (joined ts) :=
        readToken_body_append ht (parted_joined ht hs.1 hmeets hcollides hjoins htail)
      rw [htokens, joined_cons, hback.value, hback.rest, htail, List.map_cons]

/-! ## Separators taken out

A separator is a comment that is closed, so the pass takes it out whole. Nothing else is taken out as long as
no `/*` stands in the bodies. -/

/-- No opening begins in a part that has none with what follows it, or has a `/` behind it. -/
theorem startsComment_drop_append {w x y : List Char} (h : ¬ ['/', '*'] <:+: w ++ y)
    (hx : x.head? = y.head? ∨ x.head? = some '/') {i : Nat} (hi : i < w.length) :
    startsComment ((w ++ x).drop i) = false := by
  rw [Bool.eq_false_iff]
  intro hstarts
  obtain ⟨s, hs⟩ := startsComment_iff.1 hstarts
  rw [List.drop_append_of_le_length (Nat.le_of_lt hi)] at hs
  have hw := List.take_append_drop i w
  cases hdrop : w.drop i with
  | nil =>
    rw [List.drop_eq_nil_iff] at hdrop
    omega
  | cons c v =>
    rw [hdrop] at hs hw
    obtain ⟨rfl, htail⟩ := List.cons.inj hs
    apply h
    rw [← hw]
    cases v with
    | nil =>
      -- the asterisk is the first code point behind the part
      have hstar : y.head? = some '*' := by
        rw [show x = '*' :: s from htail] at hx
        rcases hx with hx | hx
        · exact hx.symm
        · simp at hx
      cases y with
      | nil => contradiction
      | cons d y =>
        obtain rfl : d = '*' := by simpa using hstar
        exact ⟨w.take i, y, by simp⟩
    | cons d v =>
      obtain ⟨rfl, _⟩ := List.cons.inj htail
      exact ⟨w.take i, v ++ y, by simp⟩

/-- Without its separators a written list is the bodies of its tokens, unless these look like a comment. -/
theorem value_readUncommented_spell {ts : List Token} (hlex : ∀ t ∈ ts, t.Lexical)
    (h : ¬ ['/', '*'] <:+: joined ts) : (readUncommented (spell ts)).value = joined ts := by
  induction ts with
  | nil => rw [spell, readUncommented, joined_nil]
  | cons t ts ih =>
    obtain ⟨_, hlex⟩ := List.forall_mem_cons.1 hlex
    rw [joined_cons] at h
    have htail := ih hlex fun hin => h (List.infix_append_of_infix_right hin)
    have hhead : (spell ts).head? = (joined ts).head? := by
      cases ts with
      | nil => rfl
      | cons u us =>
        have hu := body_ne_nil (hlex u List.mem_cons_self)
        rw [spell, joined_cons, List.head?_append_of_ne_nil _ hu, List.head?_append_of_ne_nil _ hu]
    -- the gap is a comment that is closed
    have hgap : (gap t ts).head? = some '/' ∧ IsComment (gap t ts) ∨ gap t ts = [] := by
      unfold gap
      split
      · exact Or.inr rfl
      · split
        · exact Or.inl ⟨rfl, _, rfl, closesComment_end⟩
        · exact Or.inr rfl
    -- before a gap stands a slash next, and without a gap the next body
    have hbody : ∀ i < t.body.length,
        startsComment ((t.body ++ (gap t ts ++ spell ts)).drop i) = false := by
      intro i hi
      refine startsComment_drop_append h ?_ hi
      rcases hgap with ⟨hslash, _⟩ | hnil
      · right
        rw [List.head?_append, hslash]
        rfl
      · left
        rw [hnil, List.nil_append, hhead]
    rw [spell, value_readUncommented_kept hbody, joined_cons]
    rcases hgap with ⟨_, hcomment⟩ | hnil
    · rw [readUncommented_comment_append hcomment, htail]
    · rw [hnil, List.nil_append, htail]

/-! ## Texts

The stripping comes twice: before the first reading and before the second. What is read the first time is a
text without comments, and its tokens are those of a text. -/

/-- A lenient lexer that takes the comments out first reads the stripped text. -/
theorem ofText_strip_lenient (text : String) :
    ∃ l, Lexer.ofText text .lenient .strip = .ok l ∧ l.cursor.policy = .lenient ∧ l.finished = false ∧
      l.cursor.rest = (readUncommented (normalize text.toList)).value := by
  have hrun := (Cursor.run_lenient (c := Cursor.ofText text .lenient) rfl
    (readUncommented_splits _)).1
  rcases hresult : (Cursor.ofText text .lenient).run readUncommented with ⟨answer, raw⟩
  rw [hresult] at hrun
  obtain rfl : answer = _ := hrun
  have hnormal : IsNormal (readUncommented (normalize text.toList)).value :=
    (isNormal_normalize _).of_sublist (value_readUncommented_sublist _)
  simp only [Lexer.ofText, hresult]
  refine ⟨_, rfl, rfl, rfl, ?_⟩
  show normalize (String.ofList (readUncommented (normalize text.toList)).value).toList = _
  rw [String.toList_ofList, normalize_eq_self hnormal]

/-- The tokens are those of the stripped text, whatever was reported. -/
theorem scan_strip (text : String) :
    ∃ errors, Scan.ofText text .strip =
      .ok ⟨tokensOf (readUncommented (normalize text.toList)).value, errors⟩ := by
  obtain ⟨l, hl, hp, hf, hrest⟩ := ofText_strip_lenient text
  rw [← hrest]
  exact scan_of_lexer hl hp hf

/-- What is read the second time is what the stripping leaves of the written list of the first. -/
theorem roundTrip_strip (text : String) :
    ∃ ts errors errors', ts = tokensOf (readUncommented (normalize text.toList)).value ∧
      RoundTrip.ofText text .strip =
        .ok ⟨⟨ts, errors⟩, ⟨tokensOf (readUncommented (spell ts)).value, errors'⟩⟩ := by
  obtain ⟨errors, hfirst⟩ := scan_strip text
  have hnormal : IsNormal (readUncommented (normalize text.toList)).value :=
    (isNormal_normalize _).of_sublist (value_readUncommented_sublist _)
  let first : Scan := ⟨tokensOf (readUncommented (normalize text.toList)).value, errors⟩
  obtain ⟨errors', hsecond⟩ := scan_strip first.css
  rw [normalize_css hnormal] at hsecond
  refine ⟨_, errors, errors', rfl, ?_⟩
  rw [RoundTrip.ofText, hfirst]
  show (do return (⟨first, ← Scan.ofText first.css .strip⟩ : RoundTrip)) = _
  rw [hsecond]
  rfl

/-- A comment among the tokens would bring its own opening with it. -/
theorem isComment_of_joined {ts : List Token} (hlex : ∀ t ∈ ts, t.Lexical)
    (h : ¬ ['/', '*'] <:+: joined ts) : ∀ t ∈ ts, t.isComment = false := by
  intro t ht
  rw [Bool.eq_false_iff]
  intro hcomment
  cases t with
  | comment text =>
    obtain ⟨_, y, htext, _⟩ := hlex _ ht
    have hbody : ['/', '*'] <:+: (Token.comment text).body := by
      refine ⟨[], y ++ (if isClosedComment text then [] else ['*', '/']), ?_⟩
      show _ = text.toList ++ _
      rw [htext]
      rfl
    obtain ⟨us, vs, rfl⟩ := List.append_of_mem ht
    refine h (hbody.trans ?_)
    rw [joined, List.flatMap_append, List.flatMap_cons]
    exact ⟨us.flatMap Token.body, vs.flatMap Token.body, by simp⟩
  | _ => contradiction

/-- **A text is read without its comments, written and read so again.** If what is written for its tokens
has nothing in it that looks like the opening of a comment, then the second tokens are the first, numbers
written anew, exactly if no tokens make a `-->` or a `<!--` and no number joins the token before it. -/
theorem roundTrip_strip_iff (text : String) :
    ∃ r, RoundTrip.ofText text .strip = .ok r ∧ (¬ ['/', '*'] <:+: joined r.first.tokens →
      (r.second.tokens = r.first.tokens.map Token.reread ↔
        Unmerged r.first.tokens ∧ Unjoined r.first.tokens) ∧
      (Unmerged r.first.tokens ∧ Unjoined r.first.tokens →
        r.second.tokens.map Token.forgetNumber = r.first.tokens.map Token.forgetNumber)) := by
  obtain ⟨ts, errors, errors', hts, hround⟩ := roundTrip_strip text
  refine ⟨_, hround, fun hopening => ?_⟩
  have hnormal : IsNormal (readUncommented (normalize text.toList)).value :=
    (isNormal_normalize _).of_sublist (value_readUncommented_sublist _)
  have hlex : ∀ t ∈ ts, t.Lexical := hts ▸ lexical_tokensOf hnormal
  -- what the second stripping leaves are the bodies, and these are read
  have hiff : tokensOf (readUncommented (spell ts)).value = ts.map Token.reread ↔
      Unmerged ts ∧ Unjoined ts := by
    rw [value_readUncommented_spell hlex hopening]
    exact tokensOf_joined_iff hlex (hts ▸ settles_tokensOf _) (hts ▸ meets_tokensOf _)
  refine ⟨hiff, fun h => ?_⟩
  show (tokensOf (readUncommented (spell ts)).value).map _ = _
  rw [hiff.2 h, List.map_map]
  exact List.map_congr_left fun t ht => forgetNumber_reread (isComment_of_joined hlex hopening t ht)

/-- A dimension and a number with a sign are kept apart by the sign alone. -/
theorem roundTrip_strip_of_signed :
    ∃ r, RoundTrip.ofText "2n+1" .strip = .ok r ∧
      r.second.tokens.map Token.forgetNumber = r.first.tokens.map Token.forgetNumber := by
  obtain ⟨r, hr, hiff⟩ := roundTrip_strip_iff "2n+1"
  let two : Numeral := ⟨none, ['2'], [], none⟩
  let one : Numeral := ⟨some .plus, ['1'], [], none⟩
  have htokens : (RoundTrip.ofText "2n+1" .strip).map (·.first.tokens) =
      .ok [.dimension two.toNumeric "n", .number one.toNumeric] := by decide +kernel
  rw [hr] at htokens
  have hfirst : r.first.tokens = _ := Except.ok.inj htokens
  refine ⟨r, hr, (hiff ?_).2 ?_⟩
  · rw [hfirst]
    decide +kernel
  · rw [hfirst]
    have hunmerged : Unmerged [.dimension two.toNumeric "n", .number one.toNumeric] :=
      unmerged_cons_iff.2 ⟨rfl, unmerged_cons_iff.2 ⟨rfl, unmerged_nil⟩⟩
    have hunjoined : Unjoined [.dimension two.toNumeric "n", .number one.toNumeric] :=
      unjoined_cons_cons.2 ⟨by decide +kernel, .singleton _⟩
    exact ⟨hunmerged, hunjoined⟩

/-- A number that is read with its point first is written with a digit first, which goes on the name
before it. -/
theorem not_roundTrip_strip_always :
    ¬ ∀ text, ∃ r, RoundTrip.ofText text .strip = .ok r ∧
      r.second.tokens.map Token.forgetNumber = r.first.tokens.map Token.forgetNumber := by
  intro h
  obtain ⟨r, hr, heq⟩ := h "a.5"
  have hfirst : (RoundTrip.ofText "a.5" .strip).map (·.first.tokens.head?) =
      .ok (some (.ident "a")) := by decide +kernel
  have hsecond : (RoundTrip.ofText "a.5" .strip).map (·.second.tokens.head?) =
      .ok (some (.ident "a0")) := by decide +kernel
  rw [hr] at hfirst hsecond
  have hname : r.first.tokens.head? = _ := Except.ok.inj hfirst
  have hlonger : r.second.tokens.head? = _ := Except.ok.inj hsecond
  have hheads := congrArg List.head? heq
  rw [List.head?_map, List.head?_map, hname, hlonger] at hheads
  revert hheads
  decide

end CssLex
