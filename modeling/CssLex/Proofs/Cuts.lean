import CssLex.Proofs.Comments
import CssLex.Proofs.Lexing
import Mathlib.Logic.ExistsUnique

/-!
# CssLex — a text is cut at its comments

A text is a row of comments with other text before and behind them, and the last comment may not be closed
(`CommentCut`). There is only one way to cut it so, if no comment begins in the text between the comments:
that way the first comment is the leftmost, and so on behind it. The pass that takes the comments out
follows it.

* `existsUnique_cut`: every text is cut in one way.
* `readUncommented_text`: what the pass makes of a text that is cut.
* `stripComments_cut`: what becomes of the text under either policy.
-/

namespace CssLex

/-! ## Text between comments

Text is plain in front of another if no `/*` begins in it, the last sign of it included. Plain text ends where
a comment begins and nowhere before, so two ways to take it from the same place take the same. -/

/-- No comment begins in the text, not even with the code point that follows it. -/
def IsPlain (t r : List Char) : Prop :=
  ¬ ['/', '*'] <:+: t ++ r.take 1

instance (t r : List Char) : Decidable (IsPlain t r) :=
  inferInstanceAs (Decidable (¬ _))

theorem isPlain_nil (r : List Char) : IsPlain [] r := by
  intro h
  have hlength := h.length_le
  simp only [List.nil_append, List.length_take, List.length_cons, List.length_nil] at hlength
  omega

theorem isPlain_cons_iff {c : Char} {t r : List Char} :
    IsPlain (c :: t) r ↔ startsComment (c :: (t ++ r)) = false ∧ IsPlain t r := by
  have hopening : ['/', '*'] <+: c :: (t ++ r.take 1) ↔ startsComment (c :: (t ++ r)) = true := by
    have hpair (d : Char) (v w : List Char) :
        ['/', '*'] <+: c :: d :: v ↔ startsComment (c :: d :: w) = true := by
      simp [startsComment_cons_cons, eq_comm (a := '/') (b := c), eq_comm (a := '*') (b := d)]
    rcases t with _ | ⟨d, t⟩
    · rcases r with _ | ⟨d, r⟩
      · simp [startsComment_singleton]
      · exact hpair d [] r
    · exact hpair d _ _
  rw [IsPlain, List.cons_append, List.infix_cons_iff, not_or, hopening, Bool.not_eq_true, IsPlain]

theorem readUncommented_plain_append {t r : List Char} (h : IsPlain t r) : readUncommented (t ++ r) =
    ((readUncommented r).map (t ++ ·)).after (.taking t) := by
  induction t with
  | nil => rfl
  | cons c t ih =>
    obtain ⟨hc, ht⟩ := isPlain_cons_iff.1 h
    rw [List.cons_append, readUncommented_keeps hc, ih ht]
    rfl

/-- Nothing follows, or a comment does. -/
def StopsPlain (r : List Char) : Prop :=
  r = [] ∨ startsComment r = true

/-- Where the next comment begins is where the text before it ends. -/
theorem plain_cancel {t u r s : List Char} (ht : IsPlain t r) (hu : IsPlain u s)
    (hr : StopsPlain r) (hs : StopsPlain s) (h : t ++ r = u ++ s) : t = u ∧ r = s := by
  -- a text that goes on where the other has ended would have a comment in it
  have hends {c : Char} {t r s : List Char} (ht : IsPlain (c :: t) r) (hs : StopsPlain s) :
      s ≠ c :: (t ++ r) := by
    rintro rfl
    have hplain := (isPlain_cons_iff.1 ht).1
    rcases hs with hnil | hstarts
    · contradiction
    · rw [hplain] at hstarts
      contradiction
  -- code point by code point, until one of the texts ends
  induction t generalizing u with
  | nil =>
    cases u with
    | nil => exact ⟨rfl, h⟩
    | cons d u => exact absurd h (hends hu hr)
  | cons c t ih =>
    cases u with
    | nil => exact absurd h.symm (hends ht hs)
    | cons d u =>
      obtain ⟨rfl, htail⟩ := List.cons.inj h
      obtain ⟨rfl, hrest⟩ := ih (isPlain_cons_iff.1 ht).2 (isPlain_cons_iff.1 hu).2 htail
      exact ⟨rfl, hrest⟩

/-- Plain text before a comment goes as far as it can. -/
theorem stopsPlain_append {x : List Char} (hx : IsComment x) (r : List Char) : StopsPlain (x ++ r) :=
  Or.inr (hx.startsComment_append r)

/-- Of what follows only the first code point counts. -/
theorem isPlain_append_iff {t x : List Char} (hx : IsComment x) (r : List Char) :
    IsPlain t (x ++ r) ↔ IsPlain t x := by
  obtain ⟨y, rfl, _⟩ := hx
  rfl

/-! ## Cuts

The parts of a text in their order. Below, that there is a cut is shown by the cases of a text and its
comments, that there is only one by comparing two cuts from their first parts on. -/

/-- A text in its parts. -/
structure CommentCut where
  /-- The closed comments, each with the text before it. -/
  commented : List (List Char × List Char)
  /-- The text behind them. -/
  last : List Char
  /-- The comment behind that text, if there is one that is not closed. -/
  unclosed? : Option (List Char)

namespace CommentCut

variable {p : CommentCut} {s : List Char}

/-- All parts in a row. -/
def text (p : CommentCut) : List Char :=
  p.commented.flatMap (fun part => part.1 ++ part.2) ++ (p.last ++ p.unclosed?.getD [])

/-- The parts that are no comments. -/
def kept (p : CommentCut) : List Char :=
  p.commented.flatMap (·.1) ++ p.last

/-- The error that is reported at the end of the text. -/
def error? (p : CommentCut) : Option ParseError :=
  p.unclosed?.map fun _ => ⟨.unclosedComment, Location.start.through p.text⟩

/-- The comments are comments, and between them no other begins. -/
structure IsValid (p : CommentCut) : Prop where
  commented : ∀ part ∈ p.commented, IsPlain part.1 part.2 ∧ IsComment part.2
  last : IsPlain p.last (p.unclosed?.getD [])
  unclosed : ∀ u ∈ p.unclosed?, IsOpenComment u

theorem text_cons (t x : List Char) (parts : List (List Char × List Char)) (last : List Char)
    (unclosed : Option (List Char)) : text ⟨(t, x) :: parts, last, unclosed⟩ =
      t ++ (x ++ text ⟨parts, last, unclosed⟩) := by
  simp [text]

/-! ### There is a cut

A comment or a code point can be put before a cut, and it stays one. So a text is cut by what stands at its
front, once the text behind that has been cut. -/

/-- A comment is put before all parts. -/
def pushComment (x : List Char) (p : CommentCut) : CommentCut :=
  { p with commented := ([], x) :: p.commented }

/-- A code point is put before all parts. -/
def pushChar (c : Char) : CommentCut → CommentCut
  | ⟨[], last, unclosed⟩ => ⟨[], c :: last, unclosed⟩
  | ⟨(t, x) :: parts, last, unclosed⟩ => ⟨(c :: t, x) :: parts, last, unclosed⟩

theorem text_pushComment (x : List Char) (p : CommentCut) : (p.pushComment x).text = x ++ p.text := by
  simp [pushComment, text]

/-- The code point stands before the text, whichever part it goes to. -/
theorem text_pushChar (c : Char) (p : CommentCut) : (p.pushChar c).text = c :: p.text := by
  rcases p with ⟨_ | ⟨⟨t, x⟩, parts⟩, last, unclosed⟩ <;> simp [pushChar, text]

/-- A comment at the front has no text before it, so nothing else has to be looked at. -/
theorem IsValid.pushComment {x : List Char} (h : p.IsValid) (hx : IsComment x) :
    (p.pushComment x).IsValid :=
  ⟨List.forall_mem_cons.2 ⟨⟨isPlain_nil x, hx⟩, h.commented⟩, h.last, h.unclosed⟩

/-- A code point that begins no comment goes to the text before the first one. -/
theorem IsValid.pushChar {c : Char} (h : p.IsValid) (hc : startsComment (c :: p.text) = false) :
    (p.pushChar c).IsValid := by
  obtain ⟨hcommented, hlast, hunclosed⟩ := h
  rcases p with ⟨_ | ⟨⟨t, x⟩, parts⟩, last, unclosed⟩
  -- there is no closed comment, so it goes to the last text
  · exact ⟨hcommented, isPlain_cons_iff.2 ⟨hc, hlast⟩, hunclosed⟩
  · rw [text_cons] at hc
    obtain ⟨⟨hplain, hx⟩, hparts⟩ := List.forall_mem_cons.1 hcommented
    have hfirst := isPlain_cons_iff.2 ⟨hc, (isPlain_append_iff hx _).2 hplain⟩
    rw [isPlain_append_iff hx] at hfirst
    exact ⟨List.forall_mem_cons.2 ⟨⟨hfirst, hx⟩, hparts⟩, hlast, hunclosed⟩

/-- The cut is made from the front, as the cases of a text and its comments come. -/
theorem exists_cut (s : List Char) : ∃ p : CommentCut, p.IsValid ∧ p.text = s := by
  rcases readUncommented_cases s with hs | ⟨x, r, hs, hx⟩ | hopen | ⟨c, r, hs, hc⟩
  · exact ⟨⟨[], [], none⟩, ⟨by simp, isPlain_nil _, by simp⟩, hs.symm⟩
  · obtain ⟨p, hp, hr⟩ := exists_cut r
    exact ⟨p.pushComment x, hp.pushComment hx, by rw [text_pushComment, hr, hs]⟩
  · exact ⟨⟨[], [], some s⟩, ⟨by simp, isPlain_nil _, by simpa using hopen⟩, rfl⟩
  · obtain ⟨p, hp, hr⟩ := exists_cut r
    rw [hs, ← hr] at hc
    exact ⟨p.pushChar c, hp.pushChar hc, by rw [text_pushChar, hr, hs]⟩
termination_by s.length
decreasing_by
  · rw [hs]
    exact hx.length_lt_append r
  · rw [hs]
    exact Nat.lt_succ_self _

/-! ### There is only one

Of two cuts of one text the first parts are compared, and where these are the same, the texts behind them
are. Every lemma here takes one kind of part off both. -/

/-- The last text ends with the whole text, or at the comment that is not closed. -/
theorem stopsPlain_unclosed {u : Option (List Char)} (hu : ∀ v ∈ u, IsOpenComment v) :
    StopsPlain (u.getD []) := by
  cases u with
  | none => exact Or.inl rfl
  | some v =>
    obtain ⟨x, rfl, _⟩ := hu v rfl
    exact Or.inr rfl

/-- A closed comment is not the beginning of one that is not. -/
theorem comment_append_ne_unclosed {u : Option (List Char)} (hu : ∀ v ∈ u, IsOpenComment v)
    {x : List Char} (hx : IsComment x) (r : List Char) : u.getD [] ≠ x ++ r := by
  obtain ⟨y, rfl, z, rfl, _⟩ := hx
  cases u with
  | none => simp
  | some v =>
    obtain ⟨w, rfl, hw⟩ := hu v rfl
    intro h
    apply hw
    have htail : w = z ++ ['*', '/'] ++ r := by simpa using h
    exact ⟨z, r, htail.symm⟩

/-- Two comments at one place are the same, for both end at the first end there is. -/
theorem comment_cancel {x y r s : List Char} (hx : IsComment x) (hy : IsComment y)
    (h : x ++ r = y ++ s) : x = y ∧ r = s := by
  obtain ⟨v, rfl, hv⟩ := hx
  obtain ⟨w, rfl, hw⟩ := hy
  have hread := congrArg readCommentBody (List.cons.inj (List.cons.inj h).2).2
  rw [List.append_eq, List.append_eq, readCommentBody_append hv, readCommentBody_append hw] at hread
  injection hread with hvalue hrest _
  exact ⟨by rw [hvalue], hrest⟩

/-- A comment that is not closed is not empty, so it is there or not. -/
theorem unclosed_cancel {u v : Option (List Char)} (hu : ∀ w ∈ u, IsOpenComment w)
    (hv : ∀ w ∈ v, IsOpenComment w) (h : u.getD [] = v.getD []) : u = v := by
  have hne (s : List Char) (hs : IsOpenComment s) : s ≠ [] := by
    rintro rfl
    obtain ⟨x, hx, _⟩ := hs
    contradiction
  cases u with
  | none =>
    cases v with
    | none => rfl
    | some t => exact absurd h.symm (hne t (hv t rfl))
  | some s =>
    cases v with
    | none => exact absurd h (hne s (hu s rfl))
    | some t => exact congrArg some h

/-- Cuts of one text agree in their parts, from the first to the last. -/
theorem IsValid.eq_of_text_eq {q : CommentCut} (hp : p.IsValid) (hq : q.IsValid)
    (h : p.text = q.text) : p = q := by
  obtain ⟨parts, last, unclosed⟩ := p
  obtain ⟨parts', last', unclosed'⟩ := q
  -- part by part: the plain text is the same, then the comment, and then what stands behind it
  induction parts generalizing parts' with
  | nil =>
    cases parts' with
    | nil =>
      obtain ⟨hlast, hsame⟩ := plain_cancel hp.last hq.last (stopsPlain_unclosed hp.unclosed)
        (stopsPlain_unclosed hq.unclosed) h
      have hunclosed := unclosed_cancel hp.unclosed hq.unclosed hsame
      exact congr (congrArg (CommentCut.mk []) hlast) hunclosed
    | cons part' parts' =>
      -- where the one has a comment, the other has none or one that is not closed
      obtain ⟨t', x'⟩ := part'
      obtain ⟨⟨hplain', hx'⟩, _⟩ := List.forall_mem_cons.1 hq.commented
      rw [text_cons] at h
      obtain ⟨_, hrest⟩ := plain_cancel hp.last ((isPlain_append_iff hx' _).2 hplain')
        (stopsPlain_unclosed hp.unclosed) (stopsPlain_append hx' _) h
      exact absurd hrest (comment_append_ne_unclosed hp.unclosed hx' _)
  | cons part parts ih =>
    obtain ⟨t, x⟩ := part
    obtain ⟨⟨hplain, hx⟩, hparts⟩ := List.forall_mem_cons.1 hp.commented
    have ht := (isPlain_append_iff hx (text ⟨parts, last, unclosed⟩)).2 hplain
    have hstops := stopsPlain_append hx (text ⟨parts, last, unclosed⟩)
    rw [text_cons] at h
    cases parts' with
    | nil =>
      obtain ⟨_, hrest⟩ := plain_cancel ht hq.last hstops (stopsPlain_unclosed hq.unclosed) h
      exact absurd hrest.symm (comment_append_ne_unclosed hq.unclosed hx _)
    | cons part' parts' =>
      obtain ⟨t', x'⟩ := part'
      obtain ⟨⟨hplain', hx'⟩, hparts'⟩ := List.forall_mem_cons.1 hq.commented
      rw [text_cons] at h
      obtain ⟨rfl, hrest⟩ := plain_cancel ht ((isPlain_append_iff hx' _).2 hplain') hstops
        (stopsPlain_append hx' _) h
      obtain ⟨rfl, hlater⟩ := comment_cancel hx hx' hrest
      have hsame := ih ⟨hparts, hp.last, hp.unclosed⟩ parts' ⟨hparts', hq.last, hq.unclosed⟩ hlater
      injection hsame with hcommented hlast hunclosed
      rw [hcommented, hlast, hunclosed]

/-- **A text is cut in one way only.** -/
theorem existsUnique_cut (s : List Char) : ∃! p : CommentCut, p.IsValid ∧ p.text = s := by
  obtain ⟨p, hp, hs⟩ := exists_cut s
  exact ⟨p, ⟨hp, hs⟩, fun q ⟨hq, hqs⟩ => hq.eq_of_text_eq hp (hqs.trans hs.symm)⟩

/-! ### The pass follows the cut

Plain text is kept and a comment passed, so the pass goes through a cut part by part. Only a comment that is
not closed is reported, with all of the text behind the cursor. -/

/-- What is reported at the end of the text. -/
def report (p : CommentCut) : Trace :=
  (p.unclosed?.map fun _ => Event.report .unclosedComment).toList

/-- **The pass that takes the comments out follows the cut.** -/
theorem IsValid.readUncommented_text (h : p.IsValid) :
    readUncommented p.text = ⟨p.kept, [], .taking p.text ++ p.report⟩ := by
  obtain ⟨parts, last, unclosed⟩ := p
  induction parts with
  | nil =>
    -- behind the last text there is nothing, or a comment that goes to the end
    have hend : readUncommented (unclosed.getD []) =
        ⟨[], [], .taking (unclosed.getD []) ++ report ⟨[], last, unclosed⟩⟩ := by
      cases unclosed with
      | none => rw [Option.getD_none, readUncommented]; rfl
      | some u => exact readUncommented_unclosed (h.unclosed u rfl)
    show readUncommented (last ++ unclosed.getD []) = _
    rw [readUncommented_plain_append h.last, hend]
    simp [Reading.after, Reading.map, kept, text, report]
  | cons part parts ih =>
    obtain ⟨t, x⟩ := part
    obtain ⟨⟨hplain, hx⟩, hparts⟩ := List.forall_mem_cons.1 h.commented
    rw [text_cons, readUncommented_plain_append ((isPlain_append_iff hx _).2 hplain),
      readUncommented_passes hx, ih ⟨hparts, h.last, h.unclosed⟩]
    simp [Reading.after, Reading.map, kept, report]

variable {text : String} {policy : ErrorPolicy}

/-- A cursor passes all of the text before anything is reported. -/
theorem IsValid.run_readUncommented (h : p.IsValid) (htext : p.text = normalize text.toList) :
    (Cursor.ofText text policy).run readUncommented =
      let played := ((Cursor.ofText text policy).advance p.text.length).play p.report
      (played.1.map fun _ => p.kept, played.2) := by
  have hrest : (Cursor.ofText text policy).rest = p.text := htext.symm
  simp only [Cursor.run, hrest, h.readUncommented_text, Cursor.play_taking]

/-- What it reports is at the end. -/
theorem errorHere_advance (htext : p.text = normalize text.toList) :
    ((Cursor.ofText text policy).advance p.text.length).errorHere .unclosedComment =
      ⟨.unclosedComment, Location.start.through p.text⟩ := by
  show ParseError.mk _ (Location.start.through ((normalize text.toList).take p.text.length)) = _
  rw [← htext, List.take_length]

/-- Leniently the text is what was kept, and a comment that is not closed is recorded. -/
theorem IsValid.run_lenient (h : p.IsValid) (htext : p.text = normalize text.toList) :
    ((Cursor.ofText text .lenient).run readUncommented).1 = .ok p.kept ∧
      ((Cursor.ofText text .lenient).run readUncommented).2.errors = p.error?.toArray := by
  rw [h.run_readUncommented htext, report, error?]
  cases p.unclosed? with
  | none => exact ⟨rfl, rfl⟩
  | some u =>
    simp only [Option.map_some, Option.toList_some]
    rw [Cursor.play_report_lenient rfl, errorHere_advance htext]
    exact ⟨rfl, rfl⟩

/-- Strictly a comment that is not closed is the answer. -/
theorem IsValid.run_strict (h : p.IsValid) (htext : p.text = normalize text.toList) :
    ((Cursor.ofText text .strict).run readUncommented).1 =
      match p.error? with
      | none => .ok p.kept
      | some e => .error e := by
  rw [h.run_readUncommented htext, report, error?]
  cases p.unclosed? with
  | none => rfl
  | some u =>
    simp only [Option.map_some, Option.toList_some]
    rw [Cursor.play_report_strict rfl, errorHere_advance htext]
    rfl

end CommentCut

/-- **Exactly the comments are taken out**, from the leftmost on. A comment that is not closed is reported at
the end of the text, and else nothing is. -/
theorem stripComments_cut (text : String) :
    (∃! p : CommentCut, p.IsValid ∧ p.text = normalize text.toList) ∧
      ∀ p : CommentCut, p.IsValid → p.text = normalize text.toList →
        stripComments text .lenient = .ok (.ofList p.kept) ∧
        (∃ l, Lexer.ofText text .lenient .strip = .ok l ∧ l.errors = p.error?.toArray) ∧
        stripComments text .strict =
          match p.error? with
          | none => .ok (.ofList p.kept)
          | some e => .error e := by
  refine ⟨CommentCut.existsUnique_cut _, fun p hp htext => ?_⟩
  obtain ⟨hkept, herrors⟩ := hp.run_lenient htext
  refine ⟨?_, ?_, ?_⟩
  · rw [stripComments, hkept]
    rfl
  · cases hrun : (Cursor.ofText text .lenient).run readUncommented with
    | mk answer raw =>
      rw [hrun] at hkept herrors
      simp only at hkept
      simp only [Lexer.ofText, hrun, hkept]
      exact ⟨_, rfl, herrors⟩
  · rw [stripComments, hp.run_strict htext]
    cases p.error? with
    | none => rfl
    | some e => rfl

/-- Neither does `/*/` close itself, nor does a `*/` outside of comments close anything. -/
theorem stripComments_cut_of_slashes :
    let p : CommentCut :=
      ⟨[("//".toList, "/*/*/".toList), ([], "/***/".toList)], "*/".toList, some "/*/".toList⟩
    p.IsValid ∧ p.text = normalize "///*/*//***/*//*/".toList ∧
      stripComments "///*/*//***/*//*/" .lenient = .ok "//*/" ∧
      stripComments "///*/*//***/*//*/" .strict = .error ⟨.unclosedComment, ⟨1, 17⟩⟩ := by
  intro p
  -- the comments end where the first `*/` behind their own two signs does
  have hfirst : IsComment "/*/*/".toList := ⟨['/', '*', '/'], rfl, ['/'], rfl, by decide⟩
  have hsecond : IsComment "/***/".toList := ⟨['*', '*', '/'], rfl, ['*'], rfl, by decide⟩
  have hopen : IsOpenComment "/*/".toList := ⟨['/'], rfl, by decide⟩
  have hp : p.IsValid := by
    refine ⟨?_, by decide, by simpa [p] using hopen⟩
    simp only [p, List.forall_mem_cons, List.not_mem_nil, false_imp_iff, implies_true, and_true]
    exact ⟨⟨by decide, hfirst⟩, by decide, hsecond⟩
  have htext : p.text = normalize "///*/*//***/*//*/".toList := by decide
  obtain ⟨hlenient, _, hstrict⟩ := (stripComments_cut "///*/*//***/*//*/").2 p hp htext
  have herror : p.error? = some ⟨.unclosedComment, ⟨1, 17⟩⟩ := by decide
  rw [herror] at hstrict
  exact ⟨hp, htext, hlenient, hstrict⟩

end CssLex
