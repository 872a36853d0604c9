import CssLex.Proofs.Names

/-!
# CssLex — strings and urls are read back

The texts of strings and of unquoted urls are written code point by code point, and each is read as the one
it was written for, whatever follows. So a written text adds its code points in front of whatever the
literal is that follows it (`Literal.prepend`).
-/

namespace CssLex

/-- The literal with a text in front. -/
def Literal.prepend (t : List Char) (l : Literal) : Literal := ⟨t ++ l.text, l.intact⟩

/-- Code points put in front one by one are a text put in front. -/
theorem Literal.foldr_push (t : List Char) (l : Literal) : t.foldr push l = l.prepend t := by
  induction t with
  | nil => rfl
  | cons c t ih => exact congrArg (push c) ih

namespace Reading

theorem map_map {α β γ : Type} (f : α → β) (g : β → γ) (r : Reading α) :
    (r.map f).map g = r.map (g ∘ f) := rfl

theorem after_map {α β : Type} (f : α → β) (t : Trace) (r : Reading α) :
    (r.after t).map f = (r.map f).after t := rfl

theorem after_after {α : Type} (t u : Trace) (r : Reading α) :
    (r.after u).after t = r.after (t ++ u) := by
  simp [after]

end Reading

/-- What is read back code point by code point is read back as a text. -/
theorem read_flatMap_append {read : List Char → Reading Literal} {write : Char → List Char}
    (hchar : ∀ c s,
      read (write c ++ s) = ((read s).map (.push (withoutNul c))).after (.taking (write c)))
    (t s : List Char) :
    read (t.flatMap write ++ s) =
      ((read s).map (.prepend (t.map withoutNul))).after (.taking (t.flatMap write)) := by
  induction t with
  | nil => rfl
  | cons c t ih =>
    -- the first code point is read, and behind it the text by induction
    rw [List.flatMap_cons, List.append_assoc, hchar, ih]
    simp only [Reading.after_map, Reading.map_map, Reading.after_after, Trace.taking, List.map_append]
    rfl

/-! ## Strings

What a string is read as is said for each thing that can come next; a code point that is written is one of
these. -/

theorem readQuoted_escape {q : Char} (hq : q ≠ '\\') {e : List Char} {c : Char}
    (he : EscapeSpells e c) (s : List Char) :
    readQuoted q ('\\' :: (e ++ s)) =
      ((readQuoted q s).map (.push c)).after (.taking ('\\' :: e)) := by
  obtain ⟨hne, hline, hread⟩ := he
  cases e with
  | nil => contradiction
  | cons d e =>
    have hd : d ≠ '\n' := by simpa using hline
    have hescape := hread s
    rw [List.cons_append] at hescape ⊢
    rw [readQuoted, if_neg hq.symm, if_neg (by decide), if_pos rfl]
    simp only [if_neg hd, hescape, Trace.taking, List.map_cons]

theorem readQuoted_close (q : Char) (s : List Char) :
    readQuoted q (q :: s) = ⟨.closed, s, [.take q]⟩ := by
  rw [readQuoted.eq_def]
  simp only [if_true]

theorem readQuoted_newline {q : Char} (hq : '\n' ≠ q) (s : List Char) :
    readQuoted q ('\n' :: s) = ⟨.damaged, '\n' :: s, [.report .newlineInString]⟩ := by
  rw [readQuoted.eq_def]
  simp only [if_neg hq, if_true]

theorem readQuoted_plain {q c : Char} (hq : c ≠ q) (hline : c ≠ '\n') (hback : c ≠ '\\')
    (s : List Char) : readQuoted q (c :: s) = ((readQuoted q s).map (.push c)).after [.take c] := by
  rw [readQuoted.eq_def]
  simp only [if_neg hq, if_neg hline, if_neg hback]

/-- What is written for a code point is read as the code point: a quote and a backslash by themselves,
controls by number, all others plainly. -/
theorem readQuoted_writeStringChar (c : Char) (s : List Char) :
    readQuoted '"' (writeStringChar c ++ s) =
      ((readQuoted '"' s).map (.push (withoutNul c))).after (.taking (writeStringChar c)) := by
  -- NUL first, for it is written as another code point
  by_cases hc : c = '\x00'
  · rw [hc]
    exact readQuoted_plain (c := replacementChar) (by decide) (by decide) (by decide) s
  rw [withoutNul_of_ne hc]
  unfold writeStringChar
  split
  · next hescaped =>
    have he : EscapeSpells [c] c := by
      rcases hescaped with rfl | rfl <;> exact escapeSpells_char (by decide) (by decide)
    exact readQuoted_escape (by decide) he s
  · next hplain =>
    rw [not_or] at hplain
    split
    · have hread := readQuoted_escape (q := '"') (by decide) (escapeSpells_hex hc) s
      rwa [← List.cons_append] at hread
    · next hcontrol =>
      have hline : c ≠ '\n' := by
        rintro rfl
        exact hcontrol (by decide)
      exact readQuoted_plain hplain.1 hline hplain.2 s

/-- So a text is read back in front of whatever ends the string. -/
theorem readQuoted_writeStringText (t s : List Char) :
    readQuoted '"' (writeStringText t ++ s) =
      ((readQuoted '"' s).map (.prepend (t.map withoutNul))).after (.taking (writeStringText t)) :=
  read_flatMap_append readQuoted_writeStringChar t s

/-! ## Urls

The same for unquoted urls, where more has to be escaped, and where the front must not look like whitespace or
a quote. -/

/-- An escape is read for its code point, and the url goes on behind it. -/
theorem readUrlText_of_startsEscape {s : List Char} (h : startsEscape ('\\' :: s) = true) :
    readUrlText ('\\' :: s) =
      ((readUrlText (readEscape s).rest).map (.push (readEscape s).value)).after
        (.take '\\' :: (readEscape s).trace) := by
  have hunexpected : isUnexpectedInUrl '\\' = false := by decide
  have hwhite : isWhitespace '\\' = false := by decide
  rw [readUrlText, hwhite, hunexpected, h]
  rfl

theorem readUrlText_escape {e : List Char} {c : Char} (he : EscapeSpells e c) (s : List Char) :
    readUrlText ('\\' :: (e ++ s)) =
      ((readUrlText s).map (.push c)).after (.taking ('\\' :: e)) := by
  rw [readUrlText_of_startsEscape (startsEscape_of_spells he s), he.2.2]
  rfl

theorem readUrlText_plain {c : Char} (hwhite : isWhitespace c = false)
    (hexpected : isUnexpectedInUrl c = false) (hclose : c ≠ ')') (hback : c ≠ '\\') (s : List Char) :
    readUrlText (c :: s) = ((readUrlText s).map (.push c)).after [.take c] := by
  rw [readUrlText, hwhite, hexpected, if_neg hclose, if_neg hback]
  rfl

/-- Of the whitespace only the space is no control character. -/
theorem isWhitespace_of_not_control {c : Char} (hcontrol : isControl c = false) (hc : c ≠ ' ') :
    isWhitespace c = false := by
  rw [Bool.eq_false_iff]
  intro hwhite
  simp only [isWhitespace, Bool.or_eq_true, beq_iff_eq] at hwhite
  rcases hwhite with (rfl | rfl) | rfl
  · contradiction
  · contradiction
  · contradiction

/-- What cannot be printed is a control character. -/
theorem isNonPrintable_of_not_control {c : Char} (hcontrol : isControl c = false) :
    isNonPrintable c = false := by
  simp only [isControl, Bool.or_eq_false_iff, decide_eq_false_iff_not, Nat.not_lt] at hcontrol
  obtain ⟨hlow, hdelete⟩ := hcontrol
  -- the vertical tab is a control as well
  have htab : c ≠ '\x0b' := by
    rintro rfl
    contradiction
  simp only [isNonPrintable, hdelete, Bool.or_false, Bool.or_eq_false_iff, Bool.and_eq_false_iff,
    decide_eq_false_iff_not, beq_eq_false_iff_ne]
  exact ⟨⟨by omega, htab⟩, by omega⟩

/-- What is written plainly can neither end nor damage a url. -/
theorem isUnexpectedInUrl_of_not_control {c : Char} (hcontrol : isControl c = false)
    (hmark : ¬ (c = '(' ∨ c = ')' ∨ c = '"' ∨ c = '\'' ∨ c = '\\')) :
    isUnexpectedInUrl c = false ∧ c ≠ ')' ∧ c ≠ '\\' := by
  simp only [not_or] at hmark
  obtain ⟨hopen, hclose, hdouble, hsingle, hback⟩ := hmark
  refine ⟨?_, hclose, hback⟩
  simp [isUnexpectedInUrl, hdouble, hsingle, hopen, isNonPrintable_of_not_control hcontrol]

/-- What is written for a code point is read as the code point: controls and the space by number, marks by
themselves, all others plainly. -/
theorem readUrlText_writeUrlChar (c : Char) (s : List Char) :
    readUrlText (writeUrlChar c ++ s) =
      ((readUrlText s).map (.push (withoutNul c))).after (.taking (writeUrlChar c)) := by
  unfold writeUrlChar
  split
  · -- the number of NUL is read for the replacement character
    have hread := readUrlText_escape (escapeSpells_number c) s
    rwa [← List.cons_append] at hread
  · next hprinted =>
    rw [not_or, Bool.not_eq_true] at hprinted
    have hc : c ≠ '\x00' := by
      rintro rfl
      exact absurd hprinted.1 (by decide)
    rw [withoutNul_of_ne hc]
    split
    · next hmark =>
      have he : EscapeSpells [c] c := by
        rcases hmark with rfl | rfl | rfl | rfl | rfl <;>
          exact escapeSpells_char (by decide) (by decide)
      exact readUrlText_escape he s
    · next hmark =>
      obtain ⟨hexpected, hclose, hback⟩ := isUnexpectedInUrl_of_not_control hprinted.1 hmark
      have hwhite := isWhitespace_of_not_control hprinted.1 hprinted.2
      exact readUrlText_plain hwhite hexpected hclose hback s

/-- So a text is read back in front of whatever ends the url. -/
theorem readUrlText_writeUrlText (t s : List Char) :
    readUrlText (writeUrlText t ++ s) =
      ((readUrlText s).map (.prepend (t.map withoutNul))).after (.taking (writeUrlText t)) :=
  read_flatMap_append readUrlText_writeUrlChar t s

/-- A written url begins with neither whitespace nor a quote, whatever closes it. -/
theorem head_writeUrlText_append {t : List Char} {d : Char} {s : List Char}
    (hwhite : isWhitespace d = false) (hquote : d ≠ '"' ∧ d ≠ '\'') :
    ∃ c u, writeUrlText t ++ d :: s = c :: u ∧ isWhitespace c = false ∧ c ≠ '"' ∧ c ≠ '\'' := by
  cases t with
  | nil => exact ⟨d, s, rfl, hwhite, hquote⟩
  | cons c t =>
    have htext : writeUrlText (c :: t) = writeUrlChar c ++ writeUrlText t := List.flatMap_cons
    rw [htext, List.append_assoc]
    -- an escape begins with a backslash, and what is written plainly is neither
    unfold writeUrlChar
    split
    · exact ⟨'\\', _, rfl, by decide, by decide⟩
    · next hprinted =>
      rw [not_or, Bool.not_eq_true] at hprinted
      split
      · exact ⟨'\\', _, rfl, by decide, by decide⟩
      · next hplain =>
        simp only [not_or] at hplain
        exact ⟨c, _, rfl, isWhitespace_of_not_control hprinted.1 hprinted.2, hplain.2.2.1,
          hplain.2.2.2.1⟩

/-- Behind `url(` a written text is read as it is, up to what closes it. -/
theorem readUrl_writeUrlText {t : List Char} {d : Char} {s : List Char}
    (hwhite : isWhitespace d = false) (hquote : d ≠ '"' ∧ d ≠ '\'') :
    quoteFollows (writeUrlText t ++ d :: s) = false ∧
      readUrl (writeUrlText t ++ d :: s) =
        ((readUrlText (d :: s)).map (.prepend (t.map withoutNul))).after
          (.taking (writeUrlText t)) := by
  obtain ⟨c, u, heq, hc, hdouble, hsingle⟩ := head_writeUrlText_append (t := t) (s := s) hwhite hquote
  have hread := readUrlText_writeUrlText t (d :: s)
  rw [heq] at hread ⊢
  constructor
  · -- the text begins with no whitespace and no quote
    simp [quoteFollows, hc, hdouble, hsingle]
  · rw [readUrl, List.dropWhile_cons, List.takeWhile_cons, hc]
    exact hread

end CssLex
