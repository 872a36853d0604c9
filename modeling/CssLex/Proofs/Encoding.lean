import CssLex.Proofs.Answering
import CssLex.Proofs.Stripping
import CssLex.Proofs.Writing

/-!
# CssLex — what is written is read back

Names, strings and urls of any text are written so that one call reads them back, whatever follows, under
either policy and without an error. NUL alone does not come back: the replacement character stands for it.
A damaged string and a damaged url come back damaged, with the one error that damages them.

* `Lexer.takes_writeIdent`: identifiers, also behind an at sign and a number sign.
* `Lexer.takes_writeStringParts`: strings, in whatever parts they are written.
* `Lexer.takes_writeUrl`: unquoted urls.
* `Lexer.takes_writeDimension`: dimensions, of which the unit comes back and the number as it was written.
* `Lexer.takes_writeComment`: comments, of which those come back closed that were cut off by the end.
-/

namespace CssLex

namespace Lexer

variable {l : Lexer} {w r : List Char}

/-- What is written is normal already, so it is read as it stands. -/
theorem rest_of_written (h : l.cursor.rest = normalize (w ++ r)) (hw : IsNormal w) (hr : IsNormal r) :
    l.cursor.rest = w ++ r := by
  rw [h, normalize_eq_self (isNormal_append_iff.2 ⟨hw, hr⟩)]

/-- A token that could have been read is taken from its own text, if it reports nothing. -/
theorem takes_of_lexical {t : Token} (ht : t.Lexical) (hparted : t.Parted r) (hreports : t.reports = [])
    (hr : IsNormal r) (hl : l.cursor.rest = normalize (t.body ++ r)) : l.Takes t.reread r [] := by
  obtain ⟨hvalue, hrest, hreported⟩ := readToken_body_append ht hparted
  rw [← rest_of_written hl (isNormal_body ht) hr] at hvalue hrest hreported
  rw [hreports] at hreported
  have htakes := takes_of_finishes (l := l) rfl fun _ => hreported
  rwa [hvalue, hrest, Reading.remarks, Trace.remarks_of_reported_eq_nil hreported] at htakes

end Lexer

/-! ## Identifiers

A NUL is written as the replacement character, so what is written of a name is what is written of the name
with its NULs replaced. That name is one that could have been read. -/

section

variable {name : String}

/-- Replacing its NULs makes a name of any text that is not empty. -/
theorem isName_replaceNul (h : name ≠ "") : IsName (replaceNul name).toList := by
  rw [toList_replaceNul]
  refine ⟨?_, not_mem_map_withoutNul _⟩
  rw [ne_eq, List.map_eq_nil_iff, String.toList_eq_nil_iff]
  exact h

/-- For what is written it makes no difference whether the NULs have been replaced before. -/
theorem writeIdent_replaceNul (name : String) :
    writeIdent (replaceNul name).toList = writeIdent name.toList := by
  rw [toList_replaceNul, writeIdent_map_withoutNul]

/-- Only two hyphens are read back as two hyphens. -/
theorem eq_hyphens_of_replaceNul (h : (replaceNul name).toList = ['-', '-']) : name = "--" := by
  rw [toList_replaceNul, List.map_eq_cons_iff] at h
  obtain ⟨c, s, hname, hc, hs⟩ := h
  obtain ⟨d, s, rfl, hd, hnil⟩ := List.map_eq_cons_iff.1 hs
  obtain rfl := List.map_eq_nil_iff.1 hnil
  rw [eq_hyphen_of_withoutNul hc, eq_hyphen_of_withoutNul hd] at hname
  exact String.toList_inj.1 hname

end

/-- **What is written for an identifier is read back as one**, also where it makes an at-keyword or a hash.
Nothing may follow that goes on the name, and no `>` behind two hyphens; behind an identifier by itself no
parenthesis either, which would make it a function. -/
theorem Lexer.takes_writeIdent {name : String} {r : List Char} (hname : name ≠ "") (hnormal : IsNormal r)
    (hr : startsName r = false) (hcloses : name = "--" → r.head? ≠ some '>') :
    (∀ l : Lexer, l.cursor.rest = normalize (writeIdent name.toList ++ r) → r.head? ≠ some '(' →
        l.Takes (.ident (replaceNul name)) r []) ∧
      (∀ l : Lexer, l.cursor.rest = normalize ('@' :: writeIdent name.toList ++ r) →
        l.Takes (.atKeyword (replaceNul name)) r []) ∧
      ∀ l : Lexer, l.cursor.rest = normalize ('#' :: writeIdent name.toList ++ r) →
        l.Takes (.hash .id (replaceNul name)) r [] := by
  have hname' := isName_replaceNul hname
  have hcloses' : (replaceNul name).toList = ['-', '-'] → r.head? ≠ some '>' := fun h =>
    hcloses (eq_hyphens_of_replaceNul h)
  -- the name with its NULs replaced is written as the name is
  refine ⟨fun l hl hopen => ?_, fun l hl => ?_, fun l hl => ?_⟩ <;> rw [← writeIdent_replaceNul] at hl
  · exact takes_of_lexical (t := .ident _) hname' ⟨hr, hopen, hcloses'⟩ rfl hnormal hl
  · exact takes_of_lexical (t := .atKeyword _) hname' ⟨hr, hcloses'⟩ rfl hnormal hl
  · exact takes_of_lexical (t := .hash .id _) hname' ⟨hr, hcloses'⟩ rfl hnormal hl

/-- A hyphen before a digit, a NUL and code points that end lines: all are behind one name. -/
theorem Lexer.takes_writeIdent_of_controls :
    let l := ofCursor (.ofText "@-\\37 \uFFFD\\d \\ (" .strict)
    let name := "-7\x00\x0d "
    name ≠ "" ∧ IsNormal ['('] ∧ startsName ['('] = false ∧ (name = "--" → ['('].head? ≠ some '>') ∧
      l.cursor.rest = normalize ('@' :: writeIdent name.toList ++ ['(']) ∧
      l.Takes (.atKeyword "-7\uFFFD\x0d ") ['('] [] := by
  intro l name
  have hname : name ≠ "" := by decide
  have hnormal : IsNormal ['('] := isNormal_singleton_iff.2 (by decide)
  have hcloses : name = "--" → ['('].head? ≠ some '>' := by decide
  have hrest : l.cursor.rest = normalize ('@' :: writeIdent name.toList ++ ['(']) := by decide +kernel
  have hread : replaceNul name = "-7\uFFFD\x0d " := by decide +kernel
  have htakes := (takes_writeIdent hname hnormal rfl hcloses).2.1 l hrest
  rw [hread] at htakes
  exact ⟨hname, hnormal, rfl, hcloses, hrest, htakes⟩

/-! ## Strings

Parts of a string's text are written independently of each other, so what is compared is the text of all parts
together. -/

/-- What has been written after the last part is the text of all of them. -/
theorem getLast?_writeStringParts (parts : List (List Char)) :
    (writeStringParts parts).getLast?.getD [] = writeStringText parts.flatten := by
  have hwrite (w : List Char) (ps : List (List Char)) :
      ps.foldl (fun written part => written ++ writeStringText part) w =
        w ++ writeStringText ps.flatten := by
    -- part by part, behind what has been written already
    induction ps generalizing w with
    | nil => exact (List.append_nil w).symm
    | cons p ps ih =>
      rw [List.foldl_cons, ih, List.flatten_cons, writeStringText_append, List.append_assoc]
  cases parts with
  | nil => rfl
  | cons p ps =>
    rw [writeStringParts, List.scanl_cons, List.tail_cons, List.getLast?_scanl, Option.getD_some, hwrite,
      List.flatten_cons, writeStringText_append]
    rfl

/-- **A string that is written in parts is read back whole.** What is written is what is written for the
parts put together. A damaged string is read back from its text as well, up to the newline that cuts it. -/
theorem Lexer.takes_writeStringParts (parts : List String) (text : String) {r : List Char}
    (hnormal : IsNormal r) :
    let written := (writeStringParts (parts.map String.toList)).getLast?.getD []
    '"' :: written ++ ['"'] = writeQuoted (String.join parts).toList ∧
      (∀ l : Lexer, l.cursor.rest = normalize ('"' :: written ++ ['"'] ++ r) →
        l.Takes (.string (replaceNul (String.join parts))) r []) ∧
      ∀ l : Lexer, l.cursor.policy = .lenient →
        l.cursor.rest = normalize ((Token.badString text).write ++ r) →
        l.Takes (.badString (replaceNul text)) ('\n' :: r) [(('\n' :: r).length, .newlineInString)] := by
  intro written
  have hwritten : '"' :: written ++ ['"'] = writeQuoted (String.join parts).toList := by
    rw [String.toList_join, List.flatMap_def, writeQuoted, ← getLast?_writeStringParts]
  refine ⟨hwritten, fun l hl => ?_, fun l hp hl => ?_⟩
  · rw [hwritten] at hl
    have hrest := rest_of_written hl (isNormal_writeQuoted _) hnormal
    exact takes_of_taking ((congrArg readToken hrest).trans (readToken_writeQuoted _ r))
  -- the newline that cuts the string is left, so it belongs to the rest
  · have hcut : IsNormal ('"' :: writeStringText text.toList ++ ['\n']) :=
      isNormal_append_iff.2 ⟨isNormal_cons_iff.2 ⟨by decide, isNormal_writeStringText _⟩,
        isNormal_singleton_iff.2 (by decide)⟩
    have hrest : l.cursor.rest = '"' :: writeStringText text.toList ++ '\n' :: r :=
      (rest_of_written hl hcut hnormal).trans (List.append_cons ..).symm
    exact takes_of_report [] hp ((congrArg readToken hrest).trans (readToken_cutString _ r))

/-- A hexadecimal digit begins the part behind an escaped newline, and a quote what follows the string. -/
theorem Lexer.takes_writeStringParts_of_quotes :
    let l := ofCursor (.ofText "\"a\\\"\uFFFD\\a b\"\"x" .strict)
    let parts := ["a\"\x00", "\n", "b"]
    let r := ['"', 'x']
    IsNormal r ∧
      l.cursor.rest = normalize ('"' ::
        (writeStringParts (parts.map String.toList)).getLast?.getD [] ++ ['"'] ++ r) ∧
      l.Takes (.string "a\"\uFFFD\nb") r [] := by
  intro l parts r
  have hnormal : IsNormal r := isNormal_of_all (by decide)
  have hrest : l.cursor.rest = normalize ('"' ::
      (writeStringParts (parts.map String.toList)).getLast?.getD [] ++ ['"'] ++ r) := by decide +kernel
  have hread : replaceNul (String.join parts) = "a\"\uFFFD\nb" := by decide +kernel
  have htakes := (takes_writeStringParts parts "" hnormal).2.1 l hrest
  rw [hread] at htakes
  exact ⟨hnormal, hrest, htakes⟩

/-! ## Urls

A written url has nothing in it that would damage it, and the parenthesis that is written into a damaged one
is the first thing to be reported. -/

/-- **A url is read back from its text**, and a damaged one from its own: of that the parenthesis that is not
escaped is the only error. -/
theorem Lexer.takes_writeUrl (text : String) {r : List Char} (hnormal : IsNormal r) :
    (∀ l : Lexer, l.cursor.rest = normalize ("url(".toList ++ writeUrlText text.toList ++ [')'] ++ r) →
        l.Takes (.url (replaceNul text)) r []) ∧
      ∀ l : Lexer, l.cursor.policy = .lenient →
        l.cursor.rest = normalize ((Token.badUrl text).write ++ r) →
        l.Takes (.badUrl (replaceNul text)) r [((')' :: r).length, .unexpectedInUrl '(')] := by
  have hopened : IsNormal ("url(".toList ++ writeUrlText text.toList) :=
    isNormal_append_iff.2 ⟨isNormal_of_all (by decide), isNormal_flatMap isNormal_writeUrlChar _⟩
  refine ⟨fun l hl => ?_, fun l hp hl => ?_⟩
  · have hurl : IsNormal ("url(".toList ++ writeUrlText text.toList ++ [')']) :=
      isNormal_append_iff.2 ⟨hopened, isNormal_of_all (by decide)⟩
    have hrest := rest_of_written hl hurl hnormal
    exact takes_of_taking ((congrArg readToken hrest).trans (readToken_writeUrl _ r))
  · have hurl : IsNormal ("url(".toList ++ writeUrlText text.toList ++ ['(', ')']) :=
      isNormal_append_iff.2 ⟨hopened, isNormal_of_all (by decide)⟩
    have hrest := rest_of_written hl hurl hnormal
    exact takes_of_report [')'] hp ((congrArg readToken hrest).trans (readToken_damagedUrl _ r))

/-- What would damage the url is escaped, and the parenthesis behind it is read for the damage. -/
theorem Lexer.takes_writeUrl_of_parentheses :
    let l := ofCursor (.ofText "url(\\(\\20 \\0 \\)())" .lenient)
    let text := "( \x00)"
    IsNormal [')'] ∧ l.cursor.policy = .lenient ∧
      l.cursor.rest = normalize ((Token.badUrl text).write ++ [')']) ∧
      l.Takes (.badUrl "( \uFFFD)") [')'] [(2, .unexpectedInUrl '(')] := by
  intro l text
  have hnormal : IsNormal [')'] := isNormal_of_all (by decide)
  have hrest : l.cursor.rest = normalize ((Token.badUrl text).write ++ [')']) := by decide +kernel
  have hread : replaceNul text = "( \uFFFD)" := by decide +kernel
  have htakes := (takes_writeUrl text hnormal).2 l rfl hrest
  rw [hread] at htakes
  exact ⟨hnormal, rfl, hrest, htakes⟩

/-! ## Dimensions

A number is known here by what can be read, and so is written as a numeral with at most one sign. The unit is
written so that the numeral ends where it did. -/

/-- Some call, of a lexer in whatever state, answers with a token that has this number. -/
def Numeric.CanBeRead (n : Numeric) : Prop :=
  ∃ (l : Lexer) (t : Token), l.nextToken.1 = .ok t ∧ t.numeric? = some n

/-- Whatever the state of the lexer, a number that it answers with comes from one numeral. -/
theorem Numeric.CanBeRead.hasOneSign {n : Numeric} (h : n.CanBeRead) : n.HasOneSign := by
  obtain ⟨l, t, hanswer, hnumeric⟩ := h
  have ht : t = (readToken l.cursor.rest).value := Lexer.nextToken_eq_ok (Prod.ext hanswer rfl)
  rw [ht, numeric?_readToken_eq_some_iff] at hnumeric
  rw [← hnumeric.2]
  exact hasOneSign_toNumeric _

/-- Whatever a numeral says can be read: from its own text. -/
theorem Numeral.Valid.canBeRead {m : Numeral} (hm : m.Valid) : m.toNumeric.CanBeRead := by
  let l := Lexer.ofCursor (.ofText (.ofList m.text) .lenient)
  have hrest : l.cursor.rest = m.text := by
    show normalize (String.ofList m.text).toList = m.text
    rw [String.toList_ofList, normalize_eq_self hm.isNormal_text]
  have htakes := Lexer.takes_of_finishes (l := l) rfl (Trace.finishes_lenient _)
  refine ⟨l, _, htakes.answer, ?_⟩
  have hstarts := startsNumber_text_append hm []
  rw [List.append_nil] at hstarts
  rw [hrest, numeric?_readToken_eq_some_iff, readNumeral_text hm]
  exact ⟨hstarts, rfl⟩

/-- **A written dimension is read back as one dimension**, with its unit and with the text that was written
for its number: the unit is never taken for an exponent, and no part of the number for the unit. Nothing
may follow that goes on the unit, and no `>` behind a unit of two hyphens. -/
theorem Lexer.takes_writeDimension {n : Numeric} {unit : String} {r : List Char} (hn : n.CanBeRead)
    (hunit : unit ≠ "") (hnul : '\x00' ∉ unit.toList) (hnormal : IsNormal r)
    (hr : startsName r = false) (hcloses : unit = "--" → r.head? ≠ some '>') (l : Lexer)
    (hl : l.cursor.rest = normalize ((Token.dimension n unit).write ++ r)) :
    ∃ m : Numeric, m.text.toList = n.write ∧ l.Takes (.dimension m unit) r [] := by
  have hname : IsName unit.toList := by
    refine ⟨?_, hnul⟩
    rw [ne_eq, String.toList_eq_nil_iff]
    exact hunit
  have hparted : (Token.dimension n unit).Parted r :=
    ⟨hr, fun hhyphens => hcloses (String.toList_inj.1 hhyphens)⟩
  have hlexical : (Token.dimension n unit).Lexical := ⟨hn.hasOneSign, hname⟩
  exact ⟨n.reread, text_reread n hn.hasOneSign, takes_of_lexical hlexical hparted rfl hnormal hl⟩

/-- The unit is `e-5`, of which the number would make an exponent, and the number has one already. -/
theorem Lexer.takes_writeDimension_of_exponent :
    let l := ofCursor (.ofText "1e30\\65 -5)" .strict)
    let n := (Numeral.mk none ['1'] [] (some ⟨'e', none, ['3', '0']⟩)).toNumeric
    n.CanBeRead ∧ "e-5" ≠ "" ∧ '\x00' ∉ "e-5".toList ∧ IsNormal [')'] ∧ startsName [')'] = false ∧
      ("e-5" = "--" → [')'].head? ≠ some '>') ∧
      l.cursor.rest = normalize ((Token.dimension n "e-5").write ++ [')']) ∧
      ∃ m : Numeric, m.text.toList = "1e30".toList ∧ l.Takes (.dimension m "e-5") [')'] [] := by
  intro l n
  have hn : n.CanBeRead :=
    Numeral.Valid.canBeRead ⟨List.all_eq_true.1 (by decide), by simp, by decide, by simp [Char.isDigit]⟩
  have hnormal : IsNormal [')'] := isNormal_of_all (by decide)
  have hcloses : "e-5" = "--" → [')'].head? ≠ some '>' := by decide
  have hrest : l.cursor.rest = normalize ((Token.dimension n "e-5").write ++ [')']) := by
    decide +kernel
  have hwrite : n.write = "1e30".toList := by decide +kernel
  have htakes := takes_writeDimension hn (by decide) (by decide) hnormal rfl hcloses l hrest
  rw [hwrite] at htakes
  exact ⟨hn, by decide, by decide, hnormal, rfl, hcloses, hrest, htakes⟩

/-! ## Comments

A comment that a call answers with was closed or goes to the end of the text. Which of the two it was is seen
at what the call recorded. -/

/-- A comment is answered whole. It was closed if nothing was recorded, and else it was not. -/
theorem Lexer.nextToken_comment_cases {l : Lexer} {text : String}
    (h : l.nextToken.1 = .ok (.comment text)) :
    IsComment text.toList ∧ l.nextToken.2.errors = l.errors ∨
      IsOpenComment text.toList ∧ l.nextToken.2.errors ≠ l.errors := by
  obtain ⟨hstarts, hstrict⟩ := l.nextToken_isComment_iff.1 ⟨_, h, rfl⟩
  have hread := (Reads.comment hstarts).readToken_eq
  -- closed, and nothing is reported; or open, and the end of the text is
  rcases comment_cases hstarts with ⟨x, r, hrest, hx⟩ | hopen
  · left
    rw [hrest, readComment_append hx, ← hrest] at hread
    have htakes := takes_of_taking hread
    have htext : text = .ofList x := Token.comment.inj (Except.ok.inj (h.symm.trans htakes.answer))
    have herrors := htakes.errors
    rw [List.map_nil, List.append_nil] at herrors
    rw [htext, String.toList_ofList]
    exact ⟨hx, Array.toList_inj.1 herrors⟩
  · right
    -- under the strict policy the error would have been the answer
    have hlenient : l.cursor.policy = .lenient := by
      obtain ⟨x, hrest, hx⟩ := hopen
      rw [hrest] at hstrict
      cases hp : l.cursor.policy with
      | strict => exact absurd (hstrict hp) hx
      | lenient => rfl
    rw [readComment_unclosed hopen] at hread
    have htakes := takes_of_report [] hlenient hread
    have htext : text = .ofList l.cursor.rest :=
      Token.comment.inj (Except.ok.inj (h.symm.trans htakes.answer))
    rw [htext, String.toList_ofList]
    refine ⟨hopen, fun hsame => ?_⟩
    have herrors := htakes.errors
    rw [hsame, List.map_cons, List.self_eq_append_right] at herrors
    contradiction

/-- **A written comment is one closed comment**, and it is read back as one, whatever follows. A comment that was
cut off by the end comes back with a `*/` behind it: there an error was recorded when it was read. -/
theorem Lexer.takes_writeComment {l : Lexer} {text : String} {r : List Char}
    (hrest : IsNormal l.cursor.rest) (h : l.nextToken.1 = .ok (.comment text)) (hnormal : IsNormal r) :
    (l.nextToken.2.errors = l.errors ↔ IsComment text.toList) ∧ IsComment (Token.comment text).write ∧
      ∀ l' : Lexer, l'.cursor.rest = normalize ((Token.comment text).write ++ r) →
        l'.Takes (.comment (if l.nextToken.2.errors = l.errors then text else text ++ "*/")) r [] := by
  have hlexical : (Token.comment text).Lexical := by
    rw [nextToken_eq_ok (Prod.ext h rfl)]
    refine lexical_readToken hrest fun hnil => ?_
    rw [l.nextToken_of_rest_eq_nil hnil] at h
    exact Token.noConfusion (Except.ok.inj h)
  -- whatever is written for it is one comment, and is read as it stands
  have hback (l' : Lexer) (hl : l'.cursor.rest = normalize ((Token.comment text).write ++ r)) :
      l'.Takes (.comment (.ofList (Token.comment text).write)) r [] :=
    takes_of_lexical hlexical trivial rfl hnormal hl
  rcases nextToken_comment_cases h with ⟨hclosed, hsame⟩ | ⟨hopen, hdiffer⟩
  · refine ⟨iff_of_true hsame hclosed, isComment_write hlexical, fun l' hl => ?_⟩
    have htakes := hback l' hl
    rw [if_pos hsame]
    rwa [write_of_isComment hclosed, String.ofList_toList] at htakes
  · refine ⟨iff_of_false hdiffer hopen.not_isComment, isComment_write hlexical, fun l' hl => ?_⟩
    have htakes := hback l' hl
    have htext : String.ofList (text.toList ++ ['*', '/']) = text ++ "*/" := by
      apply String.toList_inj.1
      rw [String.toList_ofList, String.toList_append]
      rfl
    rw [if_neg hdiffer]
    rwa [write_of_isOpenComment hopen, htext] at htakes

/-- `/*/` ends as closed comments do, and only its length tells that it is none. -/
theorem Lexer.takes_writeComment_of_slash :
    let l := ofCursor (.ofText "/*/" .lenient)
    let l' := ofCursor (.ofText "/*/*/*/" .strict)
    IsNormal l.cursor.rest ∧ l.nextToken.1 = .ok (.comment "/*/") ∧ IsNormal ['*', '/'] ∧
      l'.cursor.rest = normalize ((Token.comment "/*/").write ++ ['*', '/']) ∧
      l'.Takes (.comment "/*/*/") ['*', '/'] [] := by
  intro l l'
  have hrest : IsNormal l.cursor.rest := isNormal_normalize _
  have hanswer : l.nextToken.1 = .ok (.comment "/*/") := by decide +kernel
  have hnormal : IsNormal ['*', '/'] := isNormal_of_all (by decide)
  have hwritten : l'.cursor.rest = normalize ((Token.comment "/*/").write ++ ['*', '/']) := by
    decide +kernel
  have htakes := (takes_writeComment hrest hanswer hnormal).2.2 l' hwritten
  have hread : (if l.nextToken.2.errors = l.errors then "/*/" else "/*/" ++ "*/") = "/*/*/" := by
    decide +kernel
  rw [hread] at htakes
  exact ⟨hrest, hanswer, hnormal, hwritten, htakes⟩

end CssLex
