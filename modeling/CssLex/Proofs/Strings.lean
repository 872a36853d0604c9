import CssLex.Proofs.Answering
import CssLex.Proofs.Grammar

/-!
# CssLex — where a string ends, and what it says

A string is read item by item (`QuotedItem`): plain code points, lines that a backslash joins, and escapes.
Two items never begin alike and an item is never the front of another (`QuotedItem.append_cancel`), so a text
has one longest front of items (`LongestQuoted`). What follows that front decides what the string is
(`QuotedEnds`): its quote, a newline, or the end of the text.

* `QuotedMeans`: what stands behind an opening quote, said without the reader.
* `Lexer.takes_quoted`: it always means something, and that is what the call takes.
-/

namespace CssLex

/-! ## Items

Items are defined by what they are written as, with what follows them given as well, since that decides how
far an escape goes. The longest front exists (`exists_quotedItems`) and there is no other
(`QuotedItems.length_le`). -/

/-- One item of a string in front of `r`, with what it adds to the text: a code point adds itself, an escape
what it stands for, and nothing is added by a line that is joined or by a backslash that is the last code
point. -/
inductive QuotedItem (q : Char) : List Char → List Char → List Char → Prop where
  | char {c : Char} {r : List Char} (hc : c ≠ q ∧ c ≠ '\n' ∧ c ≠ '\\') : QuotedItem q [c] [c] r
  | joinedLine {r : List Char} : QuotedItem q ['\\', '\n'] [] r
  | escape {d c : Char} {e r : List Char} (he : EscapeText (d :: e) c r) (hline : d ≠ '\n') :
      QuotedItem q ('\\' :: d :: e) [c] r
  | lastBackslash : QuotedItem q ['\\'] [] []

/-- Items one after another in front of `r`, with the text that they make. -/
inductive QuotedItems (q : Char) : List Char → List Char → List Char → Prop where
  | nil {r : List Char} : QuotedItems q [] [] r
  | cons {i a w v r : List Char} (hi : QuotedItem q i a (w ++ r)) (hw : QuotedItems q w v r) :
      QuotedItems q (i ++ w) (a ++ v) r

/-- Items of a string, and no longer front of the text is made of such. -/
structure LongestQuoted (q : Char) (b v r : List Char) : Prop where
  items : QuotedItems q b v r
  longest {b' v' r' : List Char} (h : QuotedItems q b' v' r') (heq : b' ++ r' = b ++ r) :
    b'.length ≤ b.length

section

variable {q : Char} {i a r : List Char}

theorem QuotedItem.ne_nil (h : QuotedItem q i a r) : i ≠ [] := by
  cases h <;> exact List.cons_ne_nil _ _

/-- No item begins where a string ends. -/
theorem QuotedItem.head_ne (hq : q ≠ '\\') (h : QuotedItem q i a r) :
    ∃ c w, i ++ r = c :: w ∧ c ≠ q ∧ c ≠ '\n' := by
  cases h with
  | char hc => exact ⟨_, _, rfl, hc.1, hc.2.1⟩
  | joinedLine => exact ⟨_, _, rfl, hq.symm, by decide⟩
  | escape => exact ⟨_, _, rfl, hq.symm, by decide⟩
  | lastBackslash => exact ⟨_, _, rfl, hq.symm, by decide⟩

/-- A text begins with one item at most. -/
theorem QuotedItem.append_cancel {i' a' r' : List Char} (h : QuotedItem q i a r)
    (h' : QuotedItem q i' a' r') (heq : i' ++ r' = i ++ r) : i' = i ∧ r' = r := by
  -- what the first two code points are tells the items apart, and an escape is as long as it can be
  cases h with
  | char hc =>
    cases h' with
    | char => exact ⟨by rw [(List.cons.inj heq).1], (List.cons.inj heq).2⟩
    | _ => exact absurd (List.cons.inj heq).1.symm hc.2.2
  | joinedLine =>
    cases h' with
    | char hc' => exact absurd (List.cons.inj heq).1 hc'.2.2
    | joinedLine => exact ⟨rfl, (List.cons.inj (List.cons.inj heq).2).2⟩
    | escape he' hline' => exact absurd (List.cons.inj (List.cons.inj heq).2).1 hline'
    | lastBackslash => exact absurd (List.cons.inj heq).2 (List.cons_ne_nil _ _).symm
  | escape he hline =>
    cases h' with
    | char hc' => exact absurd (List.cons.inj heq).1 hc'.2.2
    | joinedLine => exact absurd (List.cons.inj (List.cons.inj heq).2).1.symm hline
    | escape he' =>
      obtain ⟨htext, hrest⟩ := he.append_cancel he' (List.cons.inj heq).2
      exact ⟨congrArg ('\\' :: ·) htext, hrest⟩
    | lastBackslash => exact absurd (List.cons.inj heq).2 (List.cons_ne_nil _ _).symm
  | lastBackslash =>
    cases h' with
    | char hc' => exact absurd (List.cons.inj heq).1 hc'.2.2
    | joinedLine => exact absurd (List.cons.inj heq).2 (List.cons_ne_nil _ _)
    | escape => exact absurd (List.cons.inj heq).2 (List.cons_ne_nil _ _)
    | lastBackslash => exact ⟨rfl, rfl⟩

/-- Where neither the quote nor a newline stands, an item begins. -/
theorem exists_quotedItem {c : Char} {s : List Char} (hq : c ≠ q) (hline : c ≠ '\n') :
    ∃ i a u, i ++ u = c :: s ∧ QuotedItem q i a u := by
  by_cases hback : c = '\\'
  · subst hback
    cases s with
    | nil => exact ⟨['\\'], [], [], rfl, .lastBackslash⟩
    | cons d t =>
      by_cases hd : d = '\n'
      · subst hd
        exact ⟨['\\', '\n'], [], t, rfl, .joinedLine⟩
      · -- what the escape takes spells it
        obtain ⟨e, htaken⟩ := taken_readEscape_cons (d := d) (t := t)
        have he := escapeText_readEscape (d :: t)
        have hsplits := readEscape_splits (d :: t)
        rw [Reading.Splits] at hsplits
        rw [htaken] at he hsplits
        exact ⟨'\\' :: d :: e, _, _, congrArg ('\\' :: ·) hsplits, .escape he hd⟩
  · exact ⟨[c], [c], s, rfl, .char ⟨hq, hline, hback⟩⟩

end

section

variable {q : Char} {b v r : List Char}

/-- A string ends here: no item begins. -/
def EndsString (q : Char) (r : List Char) : Prop :=
  ∀ c ∈ r.head?, c = q ∨ c = '\n'

/-- Behind items up to the end of the string no others go further. -/
theorem QuotedItems.length_le (hq : q ≠ '\\') (h : QuotedItems q b v r) (hends : EndsString q r)
    {b' v' r' : List Char} (h' : QuotedItems q b' v' r') (heq : b' ++ r' = b ++ r) :
    b'.length ≤ b.length := by
  -- induction on the items: both fronts begin with the same one
  induction h generalizing b' v' with
  | nil =>
    cases h' with
    | nil => exact Nat.le_refl 0
    | cons hi =>
      obtain ⟨c, w, hhead, hc, hline⟩ := hi.head_ne hq
      rw [List.append_assoc, hhead, List.nil_append] at heq
      rcases hends c (by rw [← heq]; rfl) with hquote | hnewline
      · exact absurd hquote hc
      · exact absurd hnewline hline
  | cons hi hw ih =>
    cases h' with
    | nil => exact Nat.zero_le _
    | cons hi' hw' =>
      rw [List.append_assoc, List.append_assoc] at heq
      obtain ⟨rfl, hrest⟩ := hi.append_cancel hi' heq
      have hle := ih hends hw' hrest
      simp only [List.length_append]
      omega

/-- So items up to where a string ends are the longest front. -/
theorem QuotedItems.longestQuoted (hq : q ≠ '\\') (h : QuotedItems q b v r) (hends : EndsString q r) :
    LongestQuoted q b v r :=
  ⟨h, fun h' heq => h.length_le hq hends h' heq⟩

end

/-- Every text begins with items up to where a string ends. -/
theorem exists_quotedItems (q : Char) (s : List Char) :
    ∃ b v r, b ++ r = s ∧ QuotedItems q b v r ∧ EndsString q r := by
  cases s with
  | nil => exact ⟨[], [], [], rfl, .nil, fun _ h => absurd h (Option.not_mem_none _)⟩
  | cons c s =>
    by_cases hends : c = q ∨ c = '\n'
    · exact ⟨[], [], c :: s, rfl, .nil, fun d hd => (Option.mem_some.1 hd) ▸ hends⟩
    · rw [not_or] at hends
      obtain ⟨i, a, u, hu, hi⟩ := exists_quotedItem (s := s) hends.1 hends.2
      have hlength := congrArg List.length hu
      have hpos := List.length_pos_iff.2 hi.ne_nil
      obtain ⟨b, v, r, rfl, hitems, hr⟩ := exists_quotedItems q u
      exact ⟨i ++ b, a ++ v, r, by rw [List.append_assoc, hu], .cons hi hitems, hr⟩
termination_by s.length
decreasing_by
  simp only [List.length_append] at hlength
  omega

/-! ## Reading them

The reader of strings takes item by item off the front. So the items of a front add their text, and what is
reported and left is decided by what stands behind them. -/

section

variable {q : Char} {i a r : List Char}

/-- An item adds to the text of the string, and nothing else changes. -/
theorem QuotedItem.readQuoted_append (hq : q ≠ '\\') (h : QuotedItem q i a r) :
    (readQuoted q (i ++ r)).value = (readQuoted q r).value.prepend a ∧
      (readQuoted q (i ++ r)).rest = (readQuoted q r).rest ∧
      (readQuoted q (i ++ r)).remarks = (readQuoted q r).remarks := by
  cases h with
  | @char c _ hc =>
    rw [List.singleton_append, readQuoted_plain hc.1 hc.2.1 hc.2.2, Reading.remarks_after rfl]
    exact ⟨rfl, rfl, rfl⟩
  | joinedLine =>
    have hread : readQuoted q ('\\' :: '\n' :: r) = (readQuoted q r).after [.take '\\', .take '\n'] := by
      rw [readQuoted, if_neg hq.symm, if_neg (by decide), if_pos rfl]
      rfl
    show (readQuoted q ('\\' :: '\n' :: r)).value = _ ∧ _
    rw [List.cons_append, List.singleton_append, hread, Reading.remarks_after rfl]
    exact ⟨rfl, rfl, rfl⟩
  | @escape d c e _ he hd =>
    obtain ⟨hvalue, hrest⟩ := he.readEscape_append
    have hread : readQuoted q ('\\' :: (d :: e ++ r)) =
        ((readQuoted q r).map (.push c)).after (.take '\\' :: (readEscape (d :: (e ++ r))).trace) := by
      rw [List.cons_append] at hvalue hrest ⊢
      rw [readQuoted, if_neg hq.symm, if_neg (by decide), if_pos rfl]
      simp only [if_neg hd, hvalue, hrest]
    rw [List.cons_append, hread, Reading.remarks_after_escape]
    exact ⟨rfl, rfl, rfl⟩
  -- a backslash that is last is dropped, and the end is reported behind it as it would be without it
  | lastBackslash =>
    have hread : readQuoted q ['\\'] = ⟨.closed, [], [.take '\\', .report .unclosedString]⟩ := by
      rw [readQuoted, if_neg hq.symm, if_neg (by decide), if_pos rfl]
    have hnil : readQuoted q [] = ⟨.closed, [], [.report .unclosedString]⟩ := by rw [readQuoted]
    rw [List.append_nil, hread, hnil]
    exact ⟨rfl, rfl, rfl⟩

/-- The same of all items together, by induction along them. -/
theorem QuotedItems.readQuoted_append {b v : List Char} (hq : q ≠ '\\') (h : QuotedItems q b v r) :
    (readQuoted q (b ++ r)).value = (readQuoted q r).value.prepend v ∧
      (readQuoted q (b ++ r)).rest = (readQuoted q r).rest ∧
      (readQuoted q (b ++ r)).remarks = (readQuoted q r).remarks := by
  induction h with
  | nil => exact ⟨rfl, rfl, rfl⟩
  | @cons i a w v r hi hw ih =>
    obtain ⟨hvalue, hrest, hremarks⟩ := hi.readQuoted_append hq
    rw [List.append_assoc, hvalue, hrest, hremarks, ih.1, ih.2.1, ih.2.2]
    refine ⟨?_, rfl, rfl⟩
    simp only [Literal.prepend, List.append_assoc]

end

/-! ## What ends them

Behind the longest front no item begins, which leaves three ways for a string to end. -/

/-- What the text `v` of a string comes to where `r` stands behind its items: a token, what is left behind
that, and the errors, each with how many code points are left then. -/
inductive QuotedEnds (q : Char) (v : List Char) :
    List Char → Token → List Char → List (Nat × ErrorKind) → Prop where
  | closed {r : List Char} : QuotedEnds q v (q :: r) (.string (.ofList v)) r []
  | newline {r : List Char} : QuotedEnds q v ('\n' :: r) (.badString (.ofList v)) ('\n' :: r)
      [(('\n' :: r).length, .newlineInString)]
  | ending : QuotedEnds q v [] (.string (.ofList v)) [] [(0, .unclosedString)]

/-- What stands behind the opening quote is the longest text of a string and what that comes to. -/
def QuotedMeans (q : Char) (s : List Char) (t : Token) (r : List Char)
    (remarks : List (Nat × ErrorKind)) : Prop :=
  ∃ b v u, s = b ++ u ∧ LongestQuoted q b v u ∧ QuotedEnds q v u t r remarks

section

variable {q : Char} {s : List Char}

/-- Every text means something behind a quote: after its longest front comes the end of the text, the quote or
a newline. -/
theorem exists_quotedMeans (hq : q ≠ '\\') (s : List Char) :
    ∃ t r remarks, QuotedMeans q s t r remarks := by
  obtain ⟨b, v, u, hb, hitems, hends⟩ := exists_quotedItems q s
  have hlongest := hitems.longestQuoted hq hends
  cases u with
  | nil => exact ⟨_, _, _, b, v, [], hb.symm, hlongest, .ending⟩
  | cons c r =>
    rcases hends c rfl with rfl | rfl
    · exact ⟨_, _, _, b, v, _, hb.symm, hlongest, .closed⟩
    · exact ⟨_, _, _, b, v, _, hb.symm, hlongest, .newline⟩

/-- What it means is what the reader of strings reads. -/
theorem readQuoted_of_quotedMeans {t : Token} {r : List Char} {remarks : List (Nat × ErrorKind)}
    (hq : q ≠ '\\') (hline : q ≠ '\n') (h : QuotedMeans q s t r remarks) :
    (readQuoted q s).value.stringToken = t ∧ (readQuoted q s).rest = r ∧
      (readQuoted q s).remarks = remarks := by
  obtain ⟨b, v, u, rfl, hlongest, hends⟩ := h
  -- the front adds its text, so only its end is left to read
  obtain ⟨hvalue, hrest, hremarks⟩ := hlongest.items.readQuoted_append hq
  have htext : (Literal.closed.prepend v).stringToken = .string (.ofList v) ∧
      (Literal.damaged.prepend v).stringToken = .badString (.ofList v) := by
    simp [Literal.prepend, Literal.closed, Literal.damaged, Literal.stringToken]
  rw [hvalue, hrest, hremarks]
  cases hends with
  | closed =>
    rw [readQuoted_close]
    exact ⟨htext.1, rfl, rfl⟩
  | @newline r =>
    have hcut := readQuoted_newline hline.symm r
    rw [hcut]
    exact ⟨htext.2, rfl, by simp [Reading.remarks, Trace.remarks]⟩
  | ending =>
    rw [readQuoted]
    exact ⟨htext.1, rfl, rfl⟩

end

/-! ## The call

The meaning of what stands behind the quote, and the reading of it, are brought together in one call. -/

/-- **What a string is, and where reading goes on behind it.** -/
theorem Lexer.takes_quoted {l : Lexer} {q : Char} {s : List Char} (hp : l.cursor.policy = .lenient)
    (hq : q = '"' ∨ q = '\'') (hl : l.cursor.rest = q :: s) :
    (∃ t r remarks, QuotedMeans q s t r remarks) ∧
      ∀ t r remarks, QuotedMeans q s t r remarks → l.Takes t r remarks := by
  have hback : q ≠ '\\' := by rcases hq with rfl | rfl <;> decide
  have hline : q ≠ '\n' := by rcases hq with rfl | rfl <;> decide
  refine ⟨exists_quotedMeans hback s, fun t r remarks hmeans => ?_⟩
  obtain ⟨ht, hr, hremarks⟩ := readQuoted_of_quotedMeans hback hline hmeans
  have hreads := Reads.string (s := s) hq
  rw [← hl] at hreads
  have htakes := takes_of_finishes hreads.readToken_eq (hp ▸ Trace.finishes_lenient _)
  rwa [Reading.remarks_after rfl, Reading.remarks_map, Reading.value_after, Reading.value_map, ht,
    Reading.rest_after, Reading.rest_map, hr, hremarks] at htakes

/-- The newline behind a hexadecimal escape belongs to it, the one behind a backslash joins the lines, and
the third one cuts the string; the other quote does nothing. -/
theorem Lexer.takes_quoted_of_newlines :
    let l := ofCursor (.ofText "'\"\\61\n\\\nb\nc" .lenient)
    let s := "\"\\61\n\\\nb\nc".toList
    l.cursor.policy = .lenient ∧ ('\'' = '"' ∨ '\'' = '\'') ∧ l.cursor.rest = '\'' :: s ∧
      l.Takes (.badString "\"ab") ['\n', 'c'] [(2, .newlineInString)] := by
  intro l s
  have hrest : l.cursor.rest = '\'' :: s := by decide +kernel
  have hnumber : EscapeText (['6', '1'] ++ ['\n']) 'a' "\\\nb\nc".toList :=
    .digits (by decide) (by decide) (List.all_eq_true.1 (by decide)) (by decide)
      (List.all_eq_true.1 (by decide)) (by decide) (by decide) (standsFor_iff.2 (by decide))
  have hitems : QuotedItems '\'' "\"\\61\n\\\nb".toList ['"', 'a', 'b'] ['\n', 'c'] :=
    .cons (i := ['"']) (a := ['"']) (.char (by decide))
      (.cons (i := ['\\', '6', '1', '\n']) (a := ['a']) (.escape hnumber (by decide))
        (.cons (i := ['\\', '\n']) (a := []) .joinedLine
          (.cons (i := ['b']) (a := ['b']) (.char (by decide)) .nil)))
  have hends : EndsString '\'' ['\n', 'c'] := by
    intro c hc
    exact Or.inr (Option.mem_some.1 hc).symm
  have hmeans : QuotedMeans '\'' s (.badString "\"ab") ['\n', 'c'] [(2, .newlineInString)] :=
    ⟨_, _, _, rfl, hitems.longestQuoted (by decide) hends, .newline⟩
  exact ⟨rfl, Or.inr rfl, hrest, (takes_quoted rfl (Or.inr rfl) hrest).2 _ _ _ hmeans⟩

end CssLex
