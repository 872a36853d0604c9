import CssLex.Proofs.Calls

/-!
# CssLex — the two policies

The strict policy cuts what the lenient one does at the first error. A reading does not know the policy,
so both lexers play one and the same trace: up to its first report in step, and from there on only the
lenient one goes on, with that report recorded before all others.

* `Cursor.run_under`: one reading under both policies.
* `Lexer.collect_under`: all answers up to the end under both.
* `strict_cuts_lenient`: the same for texts, in both comment modes.
-/

namespace CssLex

/-! ## One reading

Cursors that differ in their policy alone pass the same text up to the first report. There the strict one stops
with the error as its answer, and the lenient one records the same error and goes on. -/

/-- The same place under another policy. -/
def Cursor.under (c : Cursor) (policy : ErrorPolicy) : Cursor :=
  { c with policy := policy }

namespace Cursor

@[simp] theorem rest_under (c : Cursor) (p : ErrorPolicy) : (c.under p).rest = c.rest := rfl

@[simp] theorem errors_under (c : Cursor) (p : ErrorPolicy) : (c.under p).errors = c.errors := rfl

@[simp] theorem policy_under (c : Cursor) (p : ErrorPolicy) : (c.under p).policy = p := rfl

/-- Passing text does not know the policy: both cursors stay in step until something is reported. -/
theorem advance_under (c : Cursor) (p : ErrorPolicy) (n : Nat) :
    (c.under p).advance n = (c.advance n).under p := rfl

/-- A report under the lenient policy is recorded before all that come later. -/
theorem errors_play_report_lenient {c : Cursor} (h : c.policy = .lenient) (kind : ErrorKind)
    (u : Trace) :
    ∃ later, (c.play (.report kind :: u)).2.errors.toList =
      c.errors.toList ++ c.errorHere kind :: later := by
  obtain ⟨later, hlater⟩ :=
    errors_prefix_play { c with errors := c.errors.push (c.errorHere kind) } u
  refine ⟨later, ?_⟩
  rw [play_report_lenient h, ← hlater, Array.toList_push, List.append_assoc, List.singleton_append]

/-- Reading under both policies. Either nothing is reported and both do the same, or the strict policy
ends with the error that the lenient one records first. -/
theorem run_under {α : Type} (c : Cursor) {read : List Char → Reading α}
    (hread : (read c.rest).Splits c.rest) :
    (∃ d : Cursor, d.errors = c.errors ∧
        (c.under .strict).run read = (.ok (read c.rest).value, d.under .strict) ∧
        (c.under .lenient).run read = (.ok (read c.rest).value, d.under .lenient)) ∨
      ∃ e later, ((c.under .strict).run read).1 = .error e ∧
        ((c.under .lenient).run read).1 = .ok (read c.rest).value ∧
        ((c.under .lenient).run read).2.errors.toList = c.errors.toList ++ e :: later := by
  rcases Trace.taking_or_report (read c.rest).trace with htrace | ⟨w, kind, u, htrace⟩
  · -- nothing is reported, and passing text is the same under both
    left
    let w := Trace.taken (read c.rest).trace
    have hplay (p : ErrorPolicy) :
        (c.under p).run read = (.ok (read c.rest).value, (c.advance w.length).under p) := by
      rw [run, rest_under, htrace, play_taking_only]
      rfl
    exact ⟨c.advance w.length, rfl, hplay .strict, hplay .lenient⟩
  · -- both come to the first report at the same place
    right
    let d := c.advance w.length
    have hstrict : (c.under .strict).play (read c.rest).trace =
        (.error (d.errorHere kind), d.under .strict) := by
      rw [htrace, play_taking, advance_under, play_report_strict rfl]
      rfl
    obtain ⟨later, hlenient⟩ := errors_play_report_lenient (c := d.under .lenient) rfl kind u
    refine ⟨d.errorHere kind, later, ?_, ?_, ?_⟩
    · rw [run, rest_under, hstrict]
      rfl
    · exact (run_lenient (c := c.under .lenient) rfl hread).1
    · show ((c.under .lenient).play (read c.rest).trace).2.errors.toList = _
      rw [htrace, play_taking, advance_under]
      exact hlenient

end Cursor

/-! ## One call and all calls

As long as nothing is reported the two lexers answer alike and go on from the same place. So all answers are
compared by induction along the text. What the lenient lexer records later stands behind its first error. -/

namespace Lexer

/-- All answers under both policies. The lenient ones are tokens; the strict ones are the same, or some
of the first of them and the error that is recorded first. -/
theorem collect_under (c : Cursor) :
    let strict := (ofCursor (c.under .strict)).collect.1
    let lenient := (ofCursor (c.under .lenient)).collect
    ∃ tokens, lenient.1 = tokens.map .ok ∧
      (strict = lenient.1 ∧ lenient.2.errors = c.errors ∨
        ∃ kept e later, kept <+: tokens ∧ strict = kept.map .ok ++ [.error e] ∧
          lenient.2.errors.toList = c.errors.toList ++ e :: later) := by
  intro strict lenient
  -- The recursion is on what is left, which a call that reports nothing shortens. The first call that reports
  -- something ends it: from there on only the lenient lexer goes on.
  by_cases hs : c.rest = []
  · have hend (p : ErrorPolicy) : (ofCursor (c.under p)).collect = ([], ⟨c.under p, true⟩) :=
      collect_of_none (next?_of_rest_eq_nil hs)
    refine ⟨[], ?_, Or.inl ⟨?_, ?_⟩⟩ <;> simp [strict, lenient, hend, errors]
  · rcases c.run_under (readToken_splits c.rest) with
      ⟨d, hd, hstrict, hlenient⟩ | ⟨e, later, hstrict, hlenient, herrors⟩
    · -- in step: the answers are the same, and the cursors behind them are
      have hshort : d.rest.length < c.rest.length := by
        have h := nextToken_shortens (l := ofCursor (c.under .strict)) hs
        simp only [nextToken, ofCursor, hstrict, Cursor.rest_under] at h
        exact h
      have hcollect (p : ErrorPolicy)
          (hp : (c.under p).run readToken = (.ok (readToken c.rest).value, d.under p)) :
          (ofCursor (c.under p)).collect = (.ok (readToken c.rest).value ::
            (ofCursor (d.under p)).collect.1, (ofCursor (d.under p)).collect.2) := by
        refine collect_of_some (next?_of_token rfl hs ?_)
        rw [nextToken, ofCursor, hp]
        rfl
      obtain ⟨tokens, htokens, hcut⟩ := collect_under d
      refine ⟨(readToken c.rest).value :: tokens, ?_, ?_⟩
      · simp only [lenient, hcollect _ hlenient, htokens, List.map_cons]
      · simp only [strict, lenient, hcollect _ hstrict, hcollect _ hlenient]
        rcases hcut with ⟨hsame, hnone⟩ | ⟨kept, e, later, hkept, hanswers, hrecorded⟩
        · exact Or.inl ⟨by rw [hsame], by rw [hnone, hd]⟩
        · right
          refine ⟨(readToken c.rest).value :: kept, e, later, ?_, ?_, ?_⟩
          · exact (List.prefix_cons_inj _).2 hkept
          · rw [hanswers, List.map_cons, List.cons_append]
          · rw [hrecorded, hd]
    · -- the strict lexer is finished, the lenient one goes on behind its first error
      let after := (ofCursor (c.under .lenient)).nextToken.2
      have hanswer : (ofCursor (c.under .strict)).nextToken =
          (.error e, (ofCursor (c.under .strict)).nextToken.2) := Prod.ext hstrict rfl
      have htoken : (ofCursor (c.under .lenient)).nextToken =
          (.ok (readToken c.rest).value, after) := Prod.ext hlenient rfl
      have hcollect : lenient =
          (.ok (readToken c.rest).value :: after.collect.1, after.collect.2) :=
        collect_of_some (next?_of_token rfl hs htoken)
      have hmore := after.collect_lenient (Cursor.policy_play _ _) rfl
      obtain ⟨more, hprefix⟩ := after.errors_prefix_collect
      refine ⟨(readToken c.rest).value :: (readTokens after.cursor.rest).map (·.value), ?_,
        Or.inr ⟨[], e, later ++ more, List.nil_prefix, ?_, ?_⟩⟩
      · rw [hcollect, hmore, List.map_cons, List.map_map]
        rfl
      · simp only [strict, collect_of_some (next?_of_error rfl hanswer)]
        rw [collect_of_none (next?_of_finished rfl), List.map_nil, List.nil_append]
      · rw [hcollect, ← hprefix, show after.errors.toList = _ from herrors, List.append_assoc,
          List.cons_append]
termination_by c.rest.length

/-- A lexer over a text with no errors recorded yet: what the two policies give. -/
theorem gives_under (c : Cursor) (hc : c.errors = #[]) :
    ∃ tokens, (ofCursor (c.under .lenient)).collect.1 = tokens.map .ok ∧
      match (ofCursor (c.under .lenient)).collect.2.errors.toList with
      | [] => (ofCursor (c.under .strict)).Gives (tokens.map .ok)
      | e :: _ => ∃ kept, kept <+: tokens ∧
          (ofCursor (c.under .strict)).Gives (kept.map .ok ++ [.error e]) := by
  have hgives := gives_collect (ofCursor (c.under .strict))
  obtain ⟨tokens, htokens, ⟨hsame, hnone⟩ | ⟨kept, e, later, hkept, hanswers, hrecorded⟩⟩ :=
    collect_under c
  · refine ⟨tokens, htokens, ?_⟩
    rw [hnone, hc]
    rw [hsame, htokens] at hgives
    exact hgives
  · refine ⟨tokens, htokens, ?_⟩
    rw [hrecorded, hc]
    rw [hanswers] at hgives
    exact ⟨kept, hkept, hgives⟩

/-- Building a lexer under both policies: they differ only where the pass that takes the comments out
reports an error. -/
theorem ofText_under (text : String) (mode : CommentMode) :
    (∃ c : Cursor, c.errors = #[] ∧ ∀ p, ofText text p mode = .ok (ofCursor (c.under p))) ∨
      mode = .strip ∧ ∃ e later lenient, ofText text .strict mode = .error e ∧
        ofText text .lenient mode = .ok lenient ∧ lenient.cursor.policy = .lenient ∧
        lenient.finished = false ∧ lenient.errors.toList = e :: later := by
  -- Only stripping can end the building of a lexer, for it is a reading under the policy like any other.
  cases mode with
  | preserve => exact Or.inl ⟨Cursor.ofText text .lenient, rfl, fun p => rfl⟩
  | strip =>
    let raw := Cursor.ofText text .lenient
    rcases raw.run_under (readUncommented_splits raw.rest) with
      ⟨d, hd, hstrict, hlenient⟩ | ⟨e, later, hstrict, hlenient, herrors⟩
    · -- both go on with the same stripped text, and nothing recorded
      left
      refine ⟨Cursor.ofText (.ofList (readUncommented raw.rest).value) .lenient, rfl, ?_⟩
      intro p
      have hp : (Cursor.ofText text p).run readUncommented =
          (.ok (readUncommented raw.rest).value, d.under p) := by
        cases p with
        | strict => exact hstrict
        | lenient => exact hlenient
      have herrors : (d.under p).errors = #[] := hd
      simp only [ofText, hp, herrors]
      rfl
    · right
      have hraw : (Cursor.ofText text .strict).run readUncommented =
          (.error e, ((Cursor.ofText text .strict).run readUncommented).2) := Prod.ext hstrict rfl
      have hok : (Cursor.ofText text .lenient).run readUncommented =
          (.ok (readUncommented raw.rest).value,
            ((Cursor.ofText text .lenient).run readUncommented).2) := Prod.ext hlenient rfl
      let lenient := ofCursor { Cursor.ofText (.ofList (readUncommented raw.rest).value) .lenient with
        errors := ((Cursor.ofText text .lenient).run readUncommented).2.errors }
      refine ⟨rfl, e, later, lenient, ?_, ?_, rfl, rfl, herrors⟩
      · simp only [ofText]
        rw [hraw]
      · simp only [ofText]
        rw [hok]

/-- One call from any place: the strict error is the first that the lenient call records, and without
one the two calls do the same. -/
theorem nextToken_under (c : Cursor) :
    let strict := (ofCursor (c.under .strict)).nextToken
    let lenient := (ofCursor (c.under .lenient)).nextToken
    (∀ e, strict.1 = .error e ↔
      ∃ later, lenient.2.errors.toList = c.errors.toList ++ e :: later) ∧
    (lenient.2.errors = c.errors → ∃ t, strict.1 = .ok t ∧ lenient.1 = .ok t ∧
      strict.2.cursor.position = lenient.2.cursor.position ∧
      strict.2.location = lenient.2.location) := by
  intro strict lenient
  rcases c.run_under (readToken_splits c.rest) with
    ⟨d, hd, hstrict, hlenient⟩ | ⟨e, later, hstrict, hlenient, herrors⟩
  · have hs : strict = (.ok (readToken c.rest).value, ofCursor (d.under .strict)) := by
      simp only [strict, nextToken, ofCursor, hstrict]
    have hl : lenient = (.ok (readToken c.rest).value, ofCursor (d.under .lenient)) := by
      simp only [lenient, nextToken, ofCursor, hlenient]
    rw [hs, hl]
    refine ⟨fun e => ⟨fun h => by simp at h, ?_⟩, fun _ => ⟨_, rfl, rfl, rfl, rfl⟩⟩
    -- without a report nothing is recorded
    rintro ⟨later, hlater⟩
    have hsame : (ofCursor (d.under .lenient)).errors = c.errors := hd
    rw [hsame] at hlater
    simp at hlater
  · have hs : strict.1 = .error e := hstrict
    have hl : lenient.2.errors.toList = c.errors.toList ++ e :: later := herrors
    refine ⟨fun e' => ?_, fun h => ?_⟩
    · rw [hs, hl]
      simp
    · rw [h] at hl
      simp at hl

end Lexer

/-! ## Texts

A lexer over a text is built with nothing recorded, or not at all: where the pass that takes the comments out
meets an error, the strict policy has no lexer, and the lenient one has it recorded already. -/

/-- **The strict policy is the lenient one cut at its first error.** In both comment modes the strict
iterator gives the lenient tokens where no error is recorded; otherwise it gives some of the first of
them, then the error that is recorded first, then nothing more, unless that error was met while the
comments were taken out, in which case there is no strict lexer. Strictly nothing is ever recorded. The
second part says the same of one call from any place whatever. -/
theorem strict_cuts_lenient (text : String) (mode : CommentMode) :
    (∃ (lenient : Lexer) (tokens : List Token),
      Lexer.ofText text .lenient mode = .ok lenient ∧ lenient.collect.1 = tokens.map .ok ∧
      match lenient.collect.2.errors.toList with
      | [] => ∃ strict, Lexer.ofText text .strict mode = .ok strict ∧
          strict.Gives (tokens.map .ok) ∧ ∀ ks, (strict.calls ks).2.errors = #[]
      | e :: _ =>
        (mode = .strip ∧ lenient.errors.toList.head? = some e ∧
          Lexer.ofText text .strict mode = .error e) ∨
        ∃ strict kept, Lexer.ofText text .strict mode = .ok strict ∧ kept <+: tokens ∧
          strict.Gives (kept.map .ok ++ [.error e]) ∧ ∀ ks, (strict.calls ks).2.errors = #[]) ∧
    ∀ c : Cursor,
      let strict := (Lexer.ofCursor (c.under .strict)).nextToken
      let lenient := (Lexer.ofCursor (c.under .lenient)).nextToken
      (∀ e, strict.1 = .error e ↔
        ∃ later, lenient.2.errors.toList = c.errors.toList ++ e :: later) ∧
      (lenient.2.errors = c.errors → ∃ t, strict.1 = .ok t ∧ lenient.1 = .ok t ∧
        strict.2.cursor.position = lenient.2.cursor.position ∧
        strict.2.location = lenient.2.location) := by
  constructor
  · rcases Lexer.ofText_under text mode with
      ⟨c, hc, hbuilt⟩ | ⟨hmode, e, later, lenient, hstrict, hlenient, hpolicy, hfresh, herrors⟩
    -- No call of a strict lexer records anything, and this one starts with nothing recorded.
    · have hnone (ks : List Call) : ((Lexer.ofCursor (c.under .strict)).calls ks).2.errors = #[] :=
        (Lexer.errors_calls_strict (l := Lexer.ofCursor (c.under .strict)) rfl ks).trans hc
      obtain ⟨tokens, htokens, hgives⟩ := Lexer.gives_under c hc
      refine ⟨_, tokens, hbuilt .lenient, htokens, ?_⟩
      split at hgives
      · exact ⟨_, hbuilt .strict, hgives, hnone⟩
      · obtain ⟨kept, hkept, hgives⟩ := hgives
        exact Or.inr ⟨_, kept, hbuilt .strict, hkept, hgives, hnone⟩
    · refine ⟨lenient, (readTokens lenient.cursor.rest).map (·.value), hlenient, ?_, ?_⟩
      · rw [lenient.collect_lenient hpolicy hfresh, List.map_map]
        rfl
      · obtain ⟨more, hmore⟩ := lenient.errors_prefix_collect
        rw [← hmore, herrors]
        exact Or.inl ⟨hmode, rfl, hstrict⟩
  · exact Lexer.nextToken_under

end CssLex
