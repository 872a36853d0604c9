import CssLex.Proofs.Accounting
import CssLex.Proofs.Calls
import CssLex.Proofs.Reporting
import Mathlib.Data.Nat.Find
import Mathlib.Order.Monotone.Basic

/-!
# CssLex — progress to the end

What a cursor has passed and what is left are together what they were (`Cursor.Precedes.stop_eq`), and before
the end a call leaves less (`Lexer.nextToken_shortens`). So a call passes something, whatever it answers, and
no more calls pass something than there are code points (`Lexer.length_rest_after_le`). A call is not only
finite: it takes no more steps than it passes code points, and two for errors (`Lexer.length_events_le`).

* `Lexer.nextToken_comes_to_the_end`: from every state, under either policy, also after errors.
-/

namespace CssLex

/-! ## How long a call takes

A call is as long as its trace, which is what it passes and what it reports. The latter is bounded once for
every token (`length_reported_readToken_le`), and the strict policy adds nothing to it. -/

namespace Trace

/-- A trace is what it takes and what it reports, nothing else. The lengths of the two bound the steps of a
call. -/
theorem length_eq (t : Trace) : t.length = (taken t).length + (reported t).length := by
  induction t with
  | nil => rfl
  | cons e t ih =>
    cases e with
    | take c =>
      rw [List.length_cons, ih, taken_take, reported_take, List.length_cons]
      omega
    | report kind =>
      rw [List.length_cons, ih, taken_report, reported_report, List.length_cons]
      omega

/-- No policy adds errors: the lenient one follows the whole trace, the strict one stops within it. -/
theorem length_reported_followed_le (p : ErrorPolicy) (t : Trace) :
    (reported (followed p t)).length ≤ (reported t).length := by
  induction t with
  | nil => exact Nat.le_refl 0
  | cons e t ih =>
    cases e with
    | take c => exact ih
    | report kind =>
      refine Nat.succ_le_succ ?_
      cases p with
      | strict => exact Nat.zero_le _
      | lenient => exact ih

end Trace

/-- No token reports more than two errors. -/
theorem length_reported_readToken_le (s : List Char) :
    (Trace.reported (readToken s).trace).length ≤ 2 := by
  by_cases hs : s = []
  · rw [hs]
    exact Nat.zero_le 2
  · rw [← Trace.map_remarks (readToken s).rest.length, List.length_map]
    show (readToken s).remarks.length ≤ 2
    rcases (reports_readToken hs).length_le_or with hone | ⟨_, hkinds⟩ | ⟨_, kind, _, hkinds⟩
    · exact hone.trans (Nat.le_succ 1)
    · rw [← List.length_map (·.2), hkinds]
      exact Nat.le_refl 2
    · rw [← List.length_map (·.2), hkinds]
      exact Nat.le_refl 2

/-- What has been passed and what is left are together what they were. -/
theorem Cursor.Precedes.stop_eq {c d : Cursor} (h : c.Precedes d) :
    d.position + d.rest.length = c.position + c.rest.length := by
  obtain ⟨n, errors, rfl, _⟩ := h
  show c.position + (c.rest.take n).length + (c.rest.drop n).length = _
  rw [Nat.add_assoc, ← List.length_append, List.take_append_drop]

/-- Of places that never go back, every number up to the last is between one and the next, once. -/
theorem existsUnique_between {f : Nat → Nat} (hf : Monotone f) {k i : Nat} (hfirst : f 0 ≤ i)
    (hlast : i < f k) : ∃! j, f j ≤ i ∧ i < f (j + 1) := by
  have hover : ∃ j, i < f j := ⟨k, hlast⟩
  -- the place before the first that is over
  obtain ⟨j, hj⟩ : ∃ j, Nat.find hover = j + 1 := by
    refine Nat.exists_eq_succ_of_ne_zero fun h => ?_
    have hzero := Nat.find_spec hover
    rw [h] at hzero
    exact absurd hfirst (Nat.not_le.2 hzero)
  have hbelow : f j ≤ i := Nat.not_lt.1 (Nat.find_min hover (hj ▸ Nat.lt_succ_self j))
  have habove : i < f (j + 1) := hj ▸ Nat.find_spec hover
  refine ⟨j, ⟨hbelow, habove⟩, fun m hm => ?_⟩
  rcases Nat.lt_trichotomy m j with hlt | heq | hgt
  · exact absurd (hm.2.trans_le ((hf hlt).trans hbelow)) (Nat.lt_irrefl i)
  · exact heq
  · exact absurd (habove.trans_le ((hf hgt).trans hm.1)) (Nat.lt_irrefl i)

namespace Lexer

variable {l : Lexer}

/-- A call takes a step for every code point that it passes, and two for errors at most. -/
theorem length_events_le (l : Lexer) : l.events.length ≤ l.passed.length + 2 := by
  rw [Trace.length_eq, passed_eq]
  exact Nat.add_le_add_left
    ((Trace.length_reported_followed_le _ _).trans (length_reported_readToken_le _)) _

/-- The end is answered where it is and nowhere else. -/
theorem nextToken_eq_endOfInput_iff : l.nextToken.1 = .ok .endOfInput ↔ l.cursor.rest = [] := by
  constructor
  · intro h
    by_contra hs
    have hvalue : .endOfInput = (readToken l.cursor.rest).value := Cursor.eq_value_of_run_eq_ok h
    exact value_readToken_ne_endOfInput hs hvalue.symm
  · intro h
    rw [nextToken_of_rest_eq_nil h]

/-- A call moves the border between what has been passed and what is left, and nothing else, so none goes
beyond the end. -/
theorem stop_nextToken (l : Lexer) :
    l.nextToken.2.cursor.position + l.nextToken.2.cursor.rest.length =
      l.cursor.position + l.cursor.rest.length :=
  (l.cursor.precedes_play _).stop_eq

/-- Whatever is answered before the end, something is passed. -/
theorem position_lt_nextToken (hs : l.cursor.rest ≠ []) :
    l.cursor.position < l.nextToken.2.cursor.position := by
  have hstop := l.stop_nextToken
  have hless := nextToken_shortens hs
  omega

theorem position_le_nextToken (l : Lexer) : l.cursor.position ≤ l.nextToken.2.cursor.position :=
  Cursor.position_le_of_precedes (l.cursor.precedes_play _)

/-- The same of any calls, each of which plays some trace. -/
theorem stop_calls (l : Lexer) (ks : List Call) :
    (l.calls ks).2.cursor.position + (l.calls ks).2.cursor.rest.length =
      l.cursor.position + l.cursor.rest.length :=
  calls_induction (P := fun c => c.position + c.rest.length = l.cursor.position + l.cursor.rest.length)
    (fun c t h => (c.precedes_play t).stop_eq.trans h) rfl ks

/-! ## Calls to the end

Counting calls needs no more than that every one before the end leaves less than the one before it. Where each
code point is passed is then a fact about the places between the calls, which never go back
(`existsUnique_between`). -/

/-- The places after each call are in order, so no code point is passed by two calls. -/
theorem monotone_position_after (l : Lexer) : Monotone fun j => (l.after j).cursor.position := by
  refine monotone_nat_of_le_succ fun j => ?_
  rw [← nextToken_after]
  exact position_le_nextToken _

/-- Every call that is not at the end leaves less. -/
theorem length_rest_after_le (l : Lexer) (k : Nat) :
    (l.after k).cursor.rest.length ≤ l.cursor.rest.length - k := by
  induction k with
  | zero => exact Nat.le_refl _
  | succ k ih =>
    rw [← nextToken_after]
    by_cases hs : (l.after k).cursor.rest = []
    · rw [nextToken_of_rest_eq_nil hs, hs]
      exact Nat.zero_le _
    · have hless := nextToken_shortens hs
      omega

theorem after_of_rest_eq_nil {k : Nat} (h : (l.after k).cursor.rest = []) {j : Nat} (hj : k ≤ j) :
    l.after j = l.after k := by
  induction j, hj using Nat.le_induction with
  | base => rfl
  | succ j _ ih => rw [← nextToken_after, ih, nextToken_of_rest_eq_nil h]

/-- There is a first call at the end. -/
theorem exists_end (l : Lexer) :
    ∃ k ≤ l.cursor.rest.length, ∀ j, (l.after j).cursor.rest = [] ↔ k ≤ j := by
  have hends : (l.after l.cursor.rest.length).cursor.rest = [] := by
    have hle := l.length_rest_after_le l.cursor.rest.length
    rw [Nat.sub_self] at hle
    exact List.length_eq_zero_iff.1 (Nat.le_zero.1 hle)
  have hend : ∃ k, (l.after k).cursor.rest = [] := ⟨_, hends⟩
  refine ⟨Nat.find hend, Nat.find_min' hend hends, fun j => ⟨Nat.find_min' hend, fun hj => ?_⟩⟩
  rw [after_of_rest_eq_nil (Nat.find_spec hend) hj]
  exact Nat.find_spec hend

/-- **Reading goes on to the end and comes there.** From any state of a lexer, whatever calls are made, a
call answers with the end exactly if nothing is left, and then changes nothing; else it moves on, whether it
answers with a token or with an error, and never beyond the end. So the end is answered after no more calls
than there are code points left, and from then on for ever, and each of these code points is passed by
exactly one call. -/
theorem nextToken_comes_to_the_end (l : Lexer) :
    let stop := l.cursor.position + l.cursor.rest.length
    (∀ ks : List Call,
      let m := (l.calls ks).2
      (m.nextToken.1 = .ok .endOfInput ↔ m.cursor.atEnd = true) ∧
      (m.cursor.atEnd = true → m.nextToken.2 = m) ∧
      (m.cursor.atEnd = false → m.cursor.position < m.nextToken.2.cursor.position) ∧
      m.nextToken.2.cursor.position ≤ stop ∧ m.events.length ≤ m.passed.length + 2) ∧
    ∃ k ≤ l.cursor.rest.length,
      (∀ j, (l.after j).nextToken.1 = .ok .endOfInput ↔ k ≤ j) ∧ (∀ j, k ≤ j → l.after j = l.after k) ∧
      ∀ i, l.cursor.position ≤ i → i < stop →
        ∃! j, (l.after j).cursor.position ≤ i ∧ i < (l.after (j + 1)).cursor.position := by
  intro stop
  have hatEnd (c : Cursor) : c.atEnd = true ↔ c.rest = [] := List.isEmpty_iff
  constructor
  · intro ks m
    refine ⟨?_, ?_, ?_, ?_, m.length_events_le⟩
    · rw [hatEnd, nextToken_eq_endOfInput_iff]
    · intro h
      rw [nextToken_of_rest_eq_nil ((hatEnd _).1 h)]
    · intro h
      refine position_lt_nextToken fun hs => ?_
      rw [(hatEnd _).2 hs] at h
      contradiction
    · have hstop : m.cursor.position + m.cursor.rest.length = stop := l.stop_calls ks
      have hnext := m.stop_nextToken
      omega
  -- From here on only calls for the next token are counted: `k` is the first that is made at the end.
  · obtain ⟨k, hk, hend⟩ := l.exists_end
    have hlast : (l.after k).cursor.rest = [] := (hend k).2 (Nat.le_refl k)
    refine ⟨k, hk, fun j => ?_, fun j hj => after_of_rest_eq_nil hlast hj, fun i hfirst hi => ?_⟩
    · rw [nextToken_eq_endOfInput_iff, hend]
    · have hstop : (l.after k).cursor.position + (l.after k).cursor.rest.length = stop := l.stop_calls _
      rw [hlast] at hstop
      exact existsUnique_between l.monotone_position_after hfirst (hstop ▸ hi)

end Lexer

end CssLex
