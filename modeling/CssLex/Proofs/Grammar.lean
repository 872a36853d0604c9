import CssLex.Proofs.Passing
import CssLex.Proofs.Scanned
import Mathlib.Control.Monad.Basic

/-!
# CssLex — the lexical grammar

Which texts spell which tokens, said without the readers. A spelling is seen in front of what follows it,
for what follows can go on with it: a run ends where its class does, a name where no name goes on, and an
escape takes all the digits it can.

* `EscapeText`, `NameText`: what spells a code point, and what a name.
* `QuotedText`, `UrlText`: what spells a string behind its quote, and an unquoted url.
* `Token.Source`: what spells a token.
* `Lexer.source_of_nextToken`: a call that answers with a token has passed a spelling of it.

For escapes and names the grammar is also shown to say everything: a spelling in front of a text is what the
reader takes from there (`nameText_iff`).
-/

namespace CssLex

/-! ## Escapes

The spelling of an escape depends on what follows: digits go on as long as there are any, and a whitespace
behind them belongs to them. That is said of the text behind the spelling, and makes the spelling unique. -/

/-- The code point of a number; the replacement character if there is none that can be meant. -/
def StandsFor (n : Nat) (c : Char) : Prop :=
  if n = 0 ∨ (0xD800 ≤ n ∧ n ≤ 0xDFFF) ∨ 0x10FFFF < n then c = replacementChar else c.toNat = n

/-- What stands behind a backslash for a code point, in front of `r`: another code point for itself, up to
six hexadecimal digits and a whitespace for their number, the end of the text for the replacement character.
Digits and whitespace are taken where there are any. -/
inductive EscapeText : List Char → Char → List Char → Prop where
  | char {c : Char} {r : List Char} (hc : isHexDigit c = false) : EscapeText [c] c r
  | digits {ds g r : List Char} {c : Char} (hne : ds ≠ []) (hlength : ds.length ≤ 6)
      (hds : ∀ d ∈ ds, isHexDigit d = true)
      (hmore : ds.length < 6 → (g ++ r).head?.any isHexDigit = false)
      (hg : ∀ d ∈ g, isWhitespace d = true) (hone : g.length ≤ 1)
      (hnone : g = [] → r.head?.any isWhitespace = false) (hc : StandsFor (hexValue ds) c) :
      EscapeText (ds ++ g) c r
  | ending : EscapeText [] replacementChar []

/-- The two ways to say which code point has a number agree. -/
theorem standsFor_iff {n : Nat} {c : Char} : StandsFor n c ↔ scalarOf n = c := by
  have hvalid : n.isValidChar ↔ ¬ ((0xD800 ≤ n ∧ n ≤ 0xDFFF) ∨ 0x10FFFF < n) := by
    unfold Nat.isValidChar
    omega
  have hiff : (n = 0 ∨ ¬ n.isValidChar) ↔ (n = 0 ∨ (0xD800 ≤ n ∧ n ≤ 0xDFFF) ∨ 0x10FFFF < n) := by
    rw [hvalid, Classical.not_not]
  by_cases hn : n = 0 ∨ ¬ n.isValidChar
  · rw [StandsFor, scalarOf, if_pos hn, if_pos (hiff.1 hn)]
    exact eq_comm
  · have hnat : (Char.ofNat n).toNat = n :=
      toNat_ofNat_of_isValidChar (Classical.not_not.1 (not_or.1 hn).2)
    rw [StandsFor, scalarOf, if_neg hn, if_neg (fun h => hn (hiff.2 h))]
    constructor
    · rintro rfl
      exact Char.ofNat_toNat c
    · rintro rfl
      exact hnat

/-- A run of at most `n` code points of a class: where it is shorter the class ends. -/
theorem takeWhile_take_append {p : Char → Bool} {n : Nat} {x r : List Char}
    (hx : ∀ c ∈ x, p c = true) (hlength : x.length ≤ n)
    (hr : x.length < n → r.head?.any p = false) : ((x ++ r).take n).takeWhile p = x := by
  -- a run that fills the bound is ended by the bound, any other by what follows
  have hstop : (r.take (n - x.length)).head?.any p = false := by
    cases hn : n - x.length with
    | zero => rfl
    | succ m =>
      have hhead := hr (by omega)
      cases r with
      | nil => rfl
      | cons c r => exact hhead
  rw [List.take_append, List.take_of_length_le hlength]
  exact (takeWhile_append_stop hx hstop).1

/-- Where such a run is shorter than the bound, it was ended by the text. -/
theorem head?_drop_takeWhile_take {p : Char → Bool} {n : Nat} {s : List Char}
    (h : ((s.take n).takeWhile p).length < n) :
    (s.drop ((s.take n).takeWhile p).length).head?.any p = false := by
  induction s generalizing n with
  | nil => simp
  | cons c s ih =>
    cases n with
    | zero => contradiction
    | succ n =>
      rw [List.take_succ_cons, List.takeWhile_cons] at h ⊢
      cases hc : p c with
      | true =>
        rw [hc] at h
        exact ih (Nat.lt_of_succ_lt_succ h)
      | false => simpa using hc

/-- What an escape takes spells what it is read as. -/
theorem escapeText_readEscape (s : List Char) :
    EscapeText (Trace.taken (readEscape s).trace) (readEscape s).value (readEscape s).rest := by
  fun_cases readEscape s with
  | case1 => exact .ending
  | case2 c t hc =>
    let digits := ((c :: t).take 6).takeWhile isHexDigit
    let afterDigits := (c :: t).drop digits.length
    let gap := (afterDigits.take 1).takeWhile isWhitespace
    have hgap : gap ++ afterDigits.drop gap.length = afterDigits :=
      takeWhile_take_append_drop isWhitespace 1 afterDigits
    show EscapeText (Trace.taken (.taking (digits ++ gap))) (scalarOf (hexValue digits))
      (afterDigits.drop gap.length)
    rw [Trace.taken_taking]
    -- digits: at least one, at most six, and no more of them where there are less; then at most one
    -- whitespace
    refine .digits ?_ ?_ (List.all_eq_true.1 List.all_takeWhile) ?_
      (List.all_eq_true.1 List.all_takeWhile) ?_ ?_ (standsFor_iff.2 rfl)
    · simp [digits, hc]
    · exact Nat.le_trans (List.takeWhile_prefix _).length_le (List.length_take_le _ _)
    · intro hlt
      rw [hgap]
      exact head?_drop_takeWhile_take hlt
    · exact Nat.le_trans (List.takeWhile_prefix _).length_le (List.length_take_le _ _)
    · intro hnil
      have hshort : gap.length < 1 := by rw [hnil]; decide
      exact head?_drop_takeWhile_take hshort
  | case3 c t hc => exact .char (by simpa using hc)

/-- A spelling is read as what it stands for. -/
theorem EscapeText.readEscape_append {e r : List Char} {c : Char} (h : EscapeText e c r) :
    (readEscape (e ++ r)).value = c ∧ (readEscape (e ++ r)).rest = r := by
  cases h with
  | char hc => simp [readEscape, hc]
  | @digits ds g _ _ hne hlength hds hmore hg hone hnone hc =>
    have hrun := takeWhile_take_append hds hlength hmore
    have hgap : ((g ++ r).take 1).takeWhile isWhitespace = g := by
      refine takeWhile_take_append hg hone fun hlt => hnone ?_
      exact List.length_eq_zero_iff.1 (by omega)
    have hrest : (ds ++ (g ++ r)).drop ds.length = g ++ r := List.drop_left
    rw [List.append_assoc]
    cases ds with
    | nil => contradiction
    | cons d ds =>
      -- the first digit decides that the escape is a number
      have hd := hds d List.mem_cons_self
      rw [List.cons_append] at hrun hrest ⊢
      simp only [readEscape, hd, if_true, hrun, hrest, hgap]
      exact ⟨standsFor_iff.1 hc, List.drop_left⟩
  | ending => exact ⟨rfl, rfl⟩

/-- The spelling of an escape in front of what is taken behind it and what is left then. -/
theorem escapeText_of_startsEscape {c : Char} {s w r : List Char} (h : startsEscape (c :: s) = true)
    (hw : w ++ r = (readEscape s).rest) :
    c = '\\' ∧ EscapeText (Trace.taken (readEscape s).trace) (readEscape s).value (w ++ r) ∧
      (Trace.taken (readEscape s).trace ++ (w ++ r)).head? ≠ some '\n' := by
  obtain ⟨t, heq, hline⟩ := startsEscape_iff.1 h
  obtain ⟨rfl, rfl⟩ := List.cons.inj heq
  refine ⟨rfl, ?_, ?_⟩
  · rw [hw]
    exact escapeText_readEscape s
  · rwa [hw, readEscape_splits s]

/-- An escape takes no more and no less than what spells it. -/
theorem EscapeText.append_cancel {e e' r r' : List Char} {c c' : Char} (h : EscapeText e c r)
    (h' : EscapeText e' c' r') (heq : e' ++ r' = e ++ r) : e' = e ∧ r' = r := by
  have hrest : r' = r := by
    rw [← h'.readEscape_append.2, heq]
    exact h.readEscape_append.2
  rw [hrest, List.append_cancel_right_eq] at heq
  exact ⟨heq, hrest⟩

/-! ## Names

A name is spelled by its code points and escapes, and stops where neither follows. Such a spelling is what the
reader takes, and nothing else is. -/

/-- What spells a name in front of `r`: code points of names, and escapes. Behind it no name goes on. -/
inductive NameText : List Char → List Char → List Char → Prop where
  | stop {r : List Char} (hr : startsName r = false) : NameText [] [] r
  | char {c : Char} {w n r : List Char} (hc : isNameChar c = true) (hw : NameText w n r) :
      NameText (c :: w) (c :: n) r
  | escape {e w n r : List Char} {c : Char} (he : EscapeText e c (w ++ r))
      (hline : (e ++ (w ++ r)).head? ≠ some '\n') (hw : NameText w n r) :
      NameText ('\\' :: (e ++ w)) (c :: n) r

/-- What a name takes spells it. -/
theorem nameText_readName (s : List Char) :
    NameText (Trace.taken (readName s).trace) (readName s).value (readName s).rest := by
  fun_induction readName s with
  | case1 => exact .stop rfl
  | case2 c s hc ih => exact .char hc ih
  | case3 c s hc hescape escaped ih =>
    -- what stands behind the escape is what the rest of the name takes, and what it leaves
    obtain ⟨rfl, he, hline⟩ := escapeText_of_startsEscape hescape (readName_splits escaped.rest)
    rw [Reading.trace_after, List.cons_append, Trace.taken_take, Trace.taken_append]
    exact .escape he hline ih
  | case4 c s hc hescape =>
    refine .stop ?_
    rw [startsName, Bool.or_eq_false_iff]
    exact ⟨by simpa using hc, by simpa using hescape⟩

/-- A spelling is read as the name. -/
theorem NameText.readName_append {w n r : List Char} (h : NameText w n r) :
    (readName (w ++ r)).value = n ∧ (readName (w ++ r)).rest = r := by
  induction h with
  | stop hr =>
    rw [List.nil_append, readName_of_not_startsName hr]
    exact ⟨rfl, rfl⟩
  | char hc hw ih =>
    rw [List.cons_append, readName, if_pos hc]
    exact ⟨congrArg (_ :: ·) ih.1, ih.2⟩
  | @escape e w n r c he hline hw ih =>
    have hback : isNameChar '\\' = false := by decide
    have hescape : startsEscape ('\\' :: (e ++ (w ++ r))) = true :=
      startsEscape_iff.2 ⟨_, rfl, hline⟩
    obtain ⟨hvalue, hrest⟩ := he.readEscape_append
    rw [List.cons_append, List.append_assoc, readName, hback, hescape]
    simp only [Bool.false_eq_true, if_false, if_true, Reading.value_after, Reading.value_map,
      Reading.rest_after, Reading.rest_map, hvalue, hrest]
    exact ⟨congrArg (c :: ·) ih.1, ih.2⟩

theorem NameText.stops {w n r : List Char} (h : NameText w n r) : startsName r = false := by
  induction h with
  | stop hr => exact hr
  | char _ _ ih => exact ih
  | escape _ _ _ ih => exact ih

/-- **A text spells a name exactly if it is what the reader of names takes.** -/
theorem nameText_iff {w n r : List Char} :
    NameText w n r ↔ (readName (w ++ r)).value = n ∧ (readName (w ++ r)).rest = r := by
  constructor
  · exact NameText.readName_append
  · rintro ⟨hvalue, hrest⟩
    have hread := nameText_readName (w ++ r)
    have hsplits := readName_splits (w ++ r)
    rw [Reading.Splits, hrest, List.append_cancel_right_eq] at hsplits
    rwa [hsplits, hvalue, hrest] at hread

/-! ## Literals

Strings and urls are spelled in the same way, with what can damage them. A constructor stands for each thing
that may come next. -/

/-- What spells a string in front of `r`, from behind its opening quote. A newline damages it, and is not
taken; the end of the text closes it. -/
inductive QuotedText (q : Char) : List Char → Literal → List Char → Prop where
  | close {r : List Char} : QuotedText q [q] .closed r
  | ending : QuotedText q [] .closed []
  | newline {r : List Char} : QuotedText q [] .damaged ('\n' :: r)
  | lastBackslash : QuotedText q ['\\'] .closed []
  | joinedLine {w r : List Char} {l : Literal} (hw : QuotedText q w l r) :
      QuotedText q ('\\' :: '\n' :: w) l r
  | escape {e w r : List Char} {c : Char} {l : Literal} (he : EscapeText e c (w ++ r)) (hne : e ≠ [])
      (hline : e.head? ≠ some '\n') (hw : QuotedText q w l r) :
      QuotedText q ('\\' :: (e ++ w)) (l.push c) r
  | char {c : Char} {w r : List Char} {l : Literal} (hc : c ≠ q ∧ c ≠ '\n' ∧ c ≠ '\\')
      (hw : QuotedText q w l r) : QuotedText q (c :: w) (l.push c) r

/-- Before the end of the text an escape takes the code point behind the backslash. -/
theorem taken_readEscape_cons {d : Char} {t : List Char} :
    ∃ e, Trace.taken (readEscape (d :: t)).trace = d :: e := by
  by_cases hd : isHexDigit d = true
  · simp [readEscape, hd]
  · simp [readEscape, hd]

/-- What a string takes spells it, to its quote, to the end of the text, or to the newline that damages it. -/
theorem quotedText_readQuoted (q : Char) (s : List Char) :
    QuotedText q (Trace.taken (readQuoted q s).trace) (readQuoted q s).value (readQuoted q s).rest := by
  fun_induction readQuoted q s with
  | case1 => exact .ending
  | case2 => exact .close
  | case3 => exact .newline
  | case4 => exact .lastBackslash
  | case5 t _ _ ih => exact .joinedLine ih
  | case6 d t hd escaped _ _ ih =>
    -- the escape begins with the code point that is no newline
    obtain ⟨e, htaken⟩ := taken_readEscape_cons (d := d) (t := t)
    have he := escapeText_readEscape (d :: t)
    rw [← readQuoted_splits q escaped.rest] at he
    rw [Reading.trace_after, List.cons_append, Trace.taken_take, Trace.taken_append]
    exact .escape he (by rw [htaken]; simp) (by rw [htaken]; simpa using hd) ih
  | case7 c s hq hline hback ih => exact .char ⟨hq, hline, hback⟩ ih

/-- What is skipped of a damaged url: up to and with the first closing parenthesis that is not escaped. -/
inductive Remnants : List Char → List Char → Prop where
  | ending : Remnants [] []
  | close {r : List Char} : Remnants [')'] r
  | escape {e w r : List Char} {c : Char} (he : EscapeText e c (w ++ r))
      (hline : (e ++ (w ++ r)).head? ≠ some '\n') (hw : Remnants w r) : Remnants ('\\' :: (e ++ w)) r
  | char {c : Char} {w r : List Char} (hc : c ≠ ')') (hescape : startsEscape (c :: (w ++ r)) = false)
      (hw : Remnants w r) : Remnants (c :: w) r

/-- What is skipped of a damaged url goes to the first closing parenthesis that is not escaped. -/
theorem remnants_skipDamagedUrl (s : List Char) :
    Remnants (Trace.taken (skipDamagedUrl s).trace) (skipDamagedUrl s).rest := by
  fun_induction skipDamagedUrl s with
  | case1 => exact .ending
  | case2 => exact .close
  | case3 c s _ hescape escaped ih =>
    obtain ⟨rfl, he, hline⟩ := escapeText_of_startsEscape hescape (skipDamagedUrl_splits escaped.rest)
    rw [Reading.trace_after, List.cons_append, Trace.taken_take, Trace.taken_append]
    exact .escape he hline ih
  | case4 c s hc hescape ih =>
    rw [Bool.not_eq_true, ← skipDamagedUrl_splits s] at hescape
    exact .char hc hescape ih

/-- What spells an unquoted url in front of `r`, from its first code point on. Whitespace may stand at its
end; elsewhere it damages the url, and so does what cannot be in one. -/
inductive UrlText : List Char → Literal → List Char → Prop where
  | close {g r : List Char} (hg : ∀ c ∈ g, isWhitespace c = true) : UrlText (g ++ [')']) .closed r
  | ending {g : List Char} (hg : ∀ c ∈ g, isWhitespace c = true) : UrlText g .closed []
  | interrupted {g x r : List Char} {c : Char} (hne : g ≠ []) (hg : ∀ c ∈ g, isWhitespace c = true)
      (hc : isWhitespace c = false ∧ c ≠ ')') (hx : Remnants (c :: x) r) :
      UrlText (g ++ c :: x) .damaged r
  | unexpected {x r : List Char} {c : Char}
      (hc : isUnexpectedInUrl c = true ∨ c = '\\' ∧ (x ++ r).head? = some '\n')
      (hx : Remnants x r) : UrlText (c :: x) .damaged r
  | escape {e w r : List Char} {c : Char} {l : Literal} (he : EscapeText e c (w ++ r))
      (hline : (e ++ (w ++ r)).head? ≠ some '\n') (hw : UrlText w l r) :
      UrlText ('\\' :: (e ++ w)) (l.push c) r
  | char {c : Char} {w r : List Char} {l : Literal} (hwhite : isWhitespace c = false)
      (hc : c ≠ ')' ∧ c ≠ '\\') (hexpected : isUnexpectedInUrl c = false) (hw : UrlText w l r) :
      UrlText (c :: w) (l.push c) r

theorem taken_skipDamagedUrl_cons (c : Char) (s : List Char) :
    ∃ x, Trace.taken (skipDamagedUrl (c :: s)).trace = c :: x := by
  rw [skipDamagedUrl]
  split
  · exact ⟨[], rfl⟩
  · split <;> exact ⟨_, rfl⟩

/-- What closes a url stands behind whitespace, or at its end. -/
theorem urlText_closeUrl {g s : List Char} (hg : ∀ c ∈ g, isWhitespace c = true)
    (hs : s.head?.any isWhitespace = false) (hend : g = [] → s = [] ∨ s.head? = some ')') :
    UrlText (g ++ Trace.taken (closeUrl s).trace) (closeUrl s).value (closeUrl s).rest := by
  unfold closeUrl
  split
  · simpa using UrlText.ending hg
  · exact .close hg
  -- neither the end nor a parenthesis: something else stands behind the whitespace and damages the url
  · next hne hclose =>
    cases s with
    | nil => exact absurd rfl hne
    | cons c s =>
      have hc : c ≠ ')' := by
        rintro rfl
        exact hclose s rfl
      have hgap : g ≠ [] := by
        intro hnil
        simpa [hc] using hend hnil
      obtain ⟨x, hx⟩ := taken_skipDamagedUrl_cons c s
      have hremnants := remnants_skipDamagedUrl (c :: s)
      rw [hx] at hremnants
      rw [Reading.trace_map, hx]
      exact .interrupted hgap hg ⟨by simpa using hs, hc⟩ hremnants

/-- What a url takes spells it, whole or damaged. The cases are those of the reader. -/
theorem urlText_readUrlText (s : List Char) :
    UrlText (Trace.taken (readUrlText s).trace) (readUrlText s).value (readUrlText s).rest := by
  fun_induction readUrlText s with
  | case1 => exact urlText_closeUrl (g := []) (by simp) rfl (fun _ => Or.inl rfl)
  | case2 c s hwhite =>
    have hg : ∀ d ∈ c :: s.takeWhile isWhitespace, isWhitespace d = true :=
      List.forall_mem_cons.2 ⟨hwhite, List.all_eq_true.1 List.all_takeWhile⟩
    rw [Reading.trace_after, Trace.taken_append, Trace.taken_taking]
    exact urlText_closeUrl hg (head?_dropWhile _ s) fun h => absurd h (List.cons_ne_nil _ _)
  | case3 s =>
    exact urlText_closeUrl (g := []) (s := ')' :: s) (by simp) rfl (fun _ => Or.inr rfl)
  | case4 c s _ _ hc => exact .unexpected (Or.inl hc) (remnants_skipDamagedUrl s)
  | case5 s escaped _ _ _ hescape ih =>
    obtain ⟨_, he, hline⟩ := escapeText_of_startsEscape hescape (readUrlText_splits escaped.rest)
    rw [Reading.trace_after, List.cons_append, Trace.taken_take, Trace.taken_append]
    exact .escape he hline ih
  -- a backslash that begins no escape stands before a newline
  | case6 s _ _ _ hescape =>
    have hline : s.head? = some '\n' := by simpa [startsEscape] using hescape
    rw [← skipDamagedUrl_splits s] at hline
    exact .unexpected (Or.inr ⟨rfl, hline⟩) (remnants_skipDamagedUrl s)
  | case7 c s hwhite hclose hexpected hback ih =>
    exact .char (by simpa using hwhite) ⟨hclose, hback⟩ (by simpa using hexpected) ih

/-! ## Tokens

`Token.Source` puts the spellings together, one case for each kind of token. That every reading conforms to it
is shown by the kinds that a token can be read as (`Reads`). -/

/-- What spells the token in front of `r`. -/
def Token.Source (t : Token) (w r : List Char) : Prop :=
  match t with
  | .endOfInput => w = [] ∧ r = []
  | .whitespace text => text.toList = w ∧ w ≠ [] ∧ (∀ c ∈ w, isWhitespace c = true) ∧
      r.head?.any isWhitespace = false
  | .comment text => text.toList = w ∧
      ∃ y, w = '/' :: '*' :: y ∧ (ClosesComment y ∨ ¬ ['*', '/'] <:+: y ∧ r = [])
  | .number v => w = v.text.toList
  | .percentage v => w = v.text.toList ++ ['%']
  | .dimension v unit => ∃ x, w = v.text.toList ++ x ∧ NameText x unit.toList r
  | .ident name => NameText w name.toList r
  | .atKeyword name => ∃ x, w = '@' :: x ∧ NameText x name.toList r
  | .hash kind name => ∃ x, w = '#' :: x ∧ NameText x name.toList r ∧
      (kind = .id ↔ startsIdent ((x ++ r).take 3) = true)
  | .function name => ∃ x g, w = x ++ '(' :: g ∧ NameText x name.toList ('(' :: (g ++ r)) ∧
      (∀ c ∈ g, isWhitespace c = true) ∧ (g ≠ [] → isUrlName name.toList = true)
  | .string text => ∃ q x, (q = '"' ∨ q = '\'') ∧ w = q :: x ∧ QuotedText q x ⟨text.toList, true⟩ r
  | .badString text =>
      ∃ q x, (q = '"' ∨ q = '\'') ∧ w = q :: x ∧ QuotedText q x ⟨text.toList, false⟩ r
  | .url text => ∃ x n g y, w = x ++ '(' :: (g ++ y) ∧ NameText x n ('(' :: (g ++ y ++ r)) ∧
      isUrlName n = true ∧ (∀ c ∈ g, isWhitespace c = true) ∧ UrlText y ⟨text.toList, true⟩ r
  | .badUrl text => ∃ x n g y, w = x ++ '(' :: (g ++ y) ∧ NameText x n ('(' :: (g ++ y ++ r)) ∧
      isUrlName n = true ∧ (∀ c ∈ g, isWhitespace c = true) ∧ UrlText y ⟨text.toList, false⟩ r
  | .cdo => w = "<!--".toList
  | .cdc => w = "-->".toList
  | .punctuation mark => w = [mark.char]
  | .delim c => w = [c]

/-- A comment spells itself, whether it is closed or not. -/
theorem source_comment {s : List Char} (h : startsComment s = true) :
    (Token.comment (.ofList (readComment s).value)).Source (Trace.taken (readComment s).trace)
      (readComment s).rest := by
  obtain ⟨t, rfl⟩ := startsComment_iff.1 h
  have htrace : Trace.taken (readComment ('/' :: '*' :: t)).trace =
      '/' :: '*' :: Trace.taken (readCommentBody t).trace := rfl
  have hvalue : (readComment ('/' :: '*' :: t)).value = '/' :: '*' :: (readCommentBody t).value := rfl
  have hrest : (readComment ('/' :: '*' :: t)).rest = (readCommentBody t).rest := rfl
  rw [Token.Source, htrace, hvalue, hrest, String.toList_ofList]
  rcases readCommentBody_cases t with ⟨y, r, rfl, hy⟩ | hopen
  · rw [readCommentBody_append hy, Trace.taken_taking]
    exact ⟨rfl, y, rfl, Or.inl hy⟩
  · rw [readCommentBody_unclosed hopen, Trace.taken_append, Trace.taken_taking]
    exact ⟨by simp, t, by simp, Or.inr ⟨hopen, rfl⟩⟩

/-- A string is spelled by its quote and what stands behind it; whether it is damaged shows in the literal. -/
theorem source_stringToken {q : Char} (hq : q = '"' ∨ q = '\'') {x r : List Char} {l : Literal}
    (h : QuotedText q x l r) : l.stringToken.Source (q :: x) r := by
  obtain ⟨text, intact⟩ := l
  rw [← String.toList_ofList (l := text)] at h
  cases intact <;> exact ⟨q, x, hq, rfl, h⟩

/-- A url is spelled by its name, the parenthesis, whitespace and the literal. -/
theorem source_urlToken {x n g y r : List Char} {l : Literal}
    (hn : NameText x n ('(' :: (g ++ y ++ r))) (hu : isUrlName n = true)
    (hg : ∀ c ∈ g, isWhitespace c = true) (h : UrlText y l r) :
    l.urlToken.Source (x ++ '(' :: (g ++ y)) r := by
  obtain ⟨text, intact⟩ := l
  rw [← String.toList_ofList (l := text)] at h
  cases intact <;> exact ⟨x, n, g, y, rfl, hn, hu, hg, h⟩

theorem nameText_of_readName {s n r : List Char} {t : Trace} (h : readName s = ⟨n, r, t⟩) :
    NameText (Trace.taken t) (String.ofList n).toList r := by
  have hread := nameText_readName s
  rwa [h, ← String.toList_ofList (l := n)] at hread

/-- **What a token takes spells it.** -/
theorem source_readToken (s : List Char) :
    (readToken s).value.Source (Trace.taken (readToken s).trace) (readToken s).rest := by
  by_cases hs : s = []
  · rw [hs]
    exact ⟨rfl, rfl⟩
  have hreads := reads_readToken hs
  generalize readToken s = reading at hreads
  cases hreads with
  | comment h => exact source_comment h
  | @whitespace c s h =>
    refine ⟨?_, ?_, ?_, head?_dropWhile _ _⟩
    · simp [readWhitespace]
    · simp [readWhitespace, h]
    · simp only [readWhitespace, Trace.taken_taking]
      exact List.all_eq_true.1 List.all_takeWhile
  | @dimension _ r m h hm hr =>
    refine ⟨Trace.taken (readName r).trace, ?_, nameText_of_readName rfl⟩
    simp [Numeral.toNumeric]
  | percentage => simp [Token.Source, Numeral.toNumeric]
  | number => simp [Token.Source, Numeral.toNumeric]
  | ident h hn => exact nameText_of_readName hn
  | @function _ n r t h hn hu =>
    refine ⟨Trace.taken t, [], ?_, nameText_of_readName hn, by simp, by simp⟩
    simp
  | @urlFunction _ n r t h hn hu hq =>
    -- of the whitespace before the string one code point is left
    have hgap : (r.takeWhile isWhitespace).dropLast <+: r :=
      (List.dropLast_prefix _).trans (List.takeWhile_prefix _)
    refine ⟨Trace.taken t, (r.takeWhile isWhitespace).dropLast, ?_, ?_, ?_, ?_⟩
    · simp
    · rw [List.prefix_iff_eq_append.1 hgap]
      exact nameText_of_readName hn
    · intro c hc
      exact List.all_eq_true.1 List.all_takeWhile c ((List.dropLast_sublist _).mem hc)
    · intro _
      rwa [String.toList_ofList]
  | @url _ n r t h hn hu hq =>
    -- whitespace, the url, and what it leaves make up what stood behind the parenthesis
    have hsplits : r.takeWhile isWhitespace ++ Trace.taken (readUrlText (r.dropWhile isWhitespace)).trace ++
        (readUrlText (r.dropWhile isWhitespace)).rest = r := by
      rw [List.append_assoc, readUrlText_splits, List.takeWhile_append_dropWhile]
    have hname := nameText_of_readName hn
    rw [String.toList_ofList, ← hsplits] at hname
    have hsource := source_urlToken hname hu (List.all_eq_true.1 List.all_takeWhile)
      (urlText_readUrlText (r.dropWhile isWhitespace))
    simpa [readUrl] using hsource
  | strayBackslash => rfl
  | @string q s hq => exact source_stringToken hq (quotedText_readQuoted q s)
  | @hash s h =>
    refine ⟨Trace.taken (readName s).trace, rfl, nameText_of_readName rfl, ?_⟩
    simp only [Reading.rest_after, Reading.rest_map]
    rw [readName_splits s, startsIdent_take]
    split <;> simp_all
  | @atKeyword s h => exact ⟨Trace.taken (readName s).trace, rfl, nameText_of_readName rfl⟩
  | cdo => rfl
  | cdc => rfl
  | punctuation => rfl
  | delim => rfl

/-! ## Calls

A call that answers with a token has passed what the reading took, so the grammar holds of calls as it does of
readings. -/

/-- **Every token is spelled by what its call passes.** -/
theorem Lexer.source_of_nextToken (l : Lexer) (t : Token) (h : l.nextToken.1 = .ok t) :
    t.Source l.passed l.nextToken.2.cursor.rest ∧
      l.passed ++ l.nextToken.2.cursor.rest = l.cursor.rest := by
  obtain ⟨rfl, hpassed, hrest⟩ := passed_of_ok h
  refine ⟨?_, l.passed_append_rest⟩
  rw [hpassed, hrest]
  exact source_readToken l.cursor.rest

/-- An escape in a name takes the space behind it, which is not the one that ends the name. -/
theorem Lexer.source_of_nextToken_escaped :
    (ofCursor (.ofText "#a\\62 c d" .strict)).nextToken.1 = .ok (.hash .id "abc") ∧
      (Token.hash .id "abc").Source ['#', 'a', '\\', '6', '2', ' ', 'c'] [' ', 'd'] := by
  have hread : (ofCursor (.ofText "#a\\62 c d" .strict)).nextToken.1 = .ok (.hash .id "abc") := by
    decide +kernel
  have hpassed : (ofCursor (.ofText "#a\\62 c d" .strict)).passed =
      ['#', 'a', '\\', '6', '2', ' ', 'c'] := by decide +kernel
  have hrest : (ofCursor (.ofText "#a\\62 c d" .strict)).nextToken.2.cursor.rest = [' ', 'd'] := by
    decide +kernel
  have hsource := (source_of_nextToken _ _ hread).1
  rw [hpassed, hrest] at hsource
  exact ⟨hread, hsource⟩

end CssLex
