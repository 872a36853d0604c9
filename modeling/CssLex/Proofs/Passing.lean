import CssLex.Proofs.Lexing

/-!
# CssLex — what a call passes

A cursor does not always follow a trace to its end: under the strict policy it stops at the first report.
`Trace.followed` is the part that it follows. That part alone decides where the cursor stands afterwards
(`Cursor.play_eq_advance`), and playing it is playing the whole (`Cursor.play_followed`).

`Lexer.passed` is the text that the next call passes, which is what was taken on the followed part
(`Lexer.passed_eq`). Where the call answers with a token it is all that the reading took
(`Lexer.passed_of_ok`). `Lexer.pieces` cuts a text into what its calls pass.
-/

namespace CssLex

namespace Trace

/-- The part of a trace that is followed: under the strict policy nothing behind the first report. -/
def followed (p : ErrorPolicy) : Trace → Trace
  | [] => []
  | .take c :: t => .take c :: followed p t
  | .report kind :: t =>
    .report kind ::
      match p with
      | .strict => []
      | .lenient => followed p t

/-- The trace is followed to its end, and no error is the answer. -/
def Finishes (p : ErrorPolicy) (t : Trace) : Prop :=
  p = .strict → reported t = []

@[simp] theorem followed_nil (p : ErrorPolicy) : followed p [] = [] := rfl

@[simp] theorem followed_take (p : ErrorPolicy) (c : Char) (t : Trace) :
    followed p (.take c :: t) = .take c :: followed p t := rfl

theorem finishes_lenient (t : Trace) : Finishes .lenient t :=
  fun h => by contradiction

theorem finishes_taking (p : ErrorPolicy) (w : List Char) : Finishes p (taking w) :=
  fun _ => reported_taking w

theorem finishes_take_iff {p : ErrorPolicy} {c : Char} {t : Trace} :
    Finishes p (.take c :: t) ↔ Finishes p t := Iff.rfl

theorem not_finishes_report (kind : ErrorKind) (t : Trace) :
    ¬ Finishes .strict (.report kind :: t) := by
  intro h
  have hnone := h rfl
  rw [reported_report] at hnone
  contradiction

/-- A trace that finishes has nothing behind it cut off. -/
theorem followed_append_of_finishes {p : ErrorPolicy} {t : Trace} (h : Finishes p t) (u : Trace) :
    followed p (t ++ u) = t ++ followed p u := by
  induction t with
  | nil => rfl
  | cons e t ih =>
    cases e with
    | take c =>
      rw [List.cons_append, followed_take, ih (finishes_take_iff.1 h), List.cons_append]
    | report kind =>
      cases p with
      | strict => exact absurd h (not_finishes_report kind t)
      | lenient =>
        show .report kind :: followed .lenient (t ++ u) = _
        rw [ih (finishes_lenient t), List.cons_append]

/-- Behind a trace that does not finish nothing is followed. -/
theorem followed_append_of_not_finishes {p : ErrorPolicy} {t : Trace} (h : ¬ Finishes p t)
    (u : Trace) : followed p (t ++ u) = followed p t := by
  cases p with
  | lenient => exact absurd (finishes_lenient t) h
  | strict =>
    induction t with
    | nil => exact absurd (fun _ => rfl) h
    | cons e t ih =>
      cases e with
      | take c => rw [List.cons_append, followed_take, ih h, followed_take]
      | report kind => rfl

theorem followed_of_finishes {p : ErrorPolicy} {t : Trace} (h : Finishes p t) :
    followed p t = t := by
  have happend := followed_append_of_finishes h []
  rwa [followed_nil, List.append_nil] at happend

theorem finishes_append_iff {p : ErrorPolicy} {t u : Trace} :
    Finishes p (t ++ u) ↔ Finishes p t ∧ Finishes p u := by
  simp only [Finishes, reported_append, List.append_eq_nil_iff]
  exact imp_and

/-- What a cursor passes stands at the front of what was read, wherever it stops. -/
theorem followed_prefix_taken (p : ErrorPolicy) (t : Trace) :
    taken (followed p t) <+: taken t := by
  by_cases h : Finishes p t
  · have hall : taken (followed p t) = taken t := congrArg taken (followed_of_finishes h)
    exact hall ▸ List.prefix_rfl
  · -- what is cut off stands behind the first report
    rcases taking_or_report t with ht | ⟨w, kind, u, ht⟩
    · rw [ht] at h
      exact absurd (finishes_taking p _) h
    · cases p with
      | lenient => exact absurd (finishes_lenient t) h
      | strict =>
        rw [ht, followed_append_of_finishes (finishes_taking _ w)]
        refine ⟨taken u, ?_⟩
        simp [followed]

end Trace

/-! ## Where a cursor stands after a trace

The cursor has advanced by what was taken on the followed part. Its record is left open here: it is the matter
of the errors, not of the text. -/

namespace Cursor

open Trace

/-- What is not followed makes no difference. -/
theorem play_followed (c : Cursor) (t : Trace) : c.play (t.followed c.policy) = c.play t := by
  induction t generalizing c with
  | nil => rfl
  | cons e t ih =>
    cases e with
    | take x => exact ih (c.advance 1)
    | report kind =>
      obtain ⟨rest, position, location, policy, errors⟩ := c
      cases policy with
      -- the first report is the answer, and what is cut off comes after it
      | strict => rfl
      | lenient => exact ih ⟨rest, position, location, .lenient, errors.push ⟨kind, location⟩⟩

/-- A trace moves the cursor by what is taken on the part that is followed. -/
theorem play_eq_advance (c : Cursor) (t : Trace) :
    (c.play t).2 = { c.advance (taken (t.followed c.policy)).length with
      errors := (c.play t).2.errors } := by
  induction t generalizing c with
  | nil => simp
  | cons e t ih =>
    cases e with
    | take x =>
      -- one code point, and then as many as the rest of the trace takes
      have hlater := ih (c.advance 1)
      rw [← advance_add, policy_advance] at hlater
      rw [play_take, followed_take, taken_take, List.length_cons, Nat.add_comm]
      exact hlater
    | report kind =>
      obtain ⟨rest, position, location, policy, errors⟩ := c
      cases policy with
      | strict =>
        rw [play_report_strict rfl]
        simp [followed, advance]
      | lenient => exact ih ⟨rest, position, location, .lenient, errors.push ⟨kind, location⟩⟩

/-- The answer is no error exactly if the trace is followed to its end. -/
theorem play_eq_ok_iff (c : Cursor) (t : Trace) : (c.play t).1 = .ok () ↔ t.Finishes c.policy := by
  cases hp : c.policy with
  | lenient => exact iff_of_true (play_lenient hp t).1 (finishes_lenient t)
  | strict =>
    -- a trace that takes only, or one that reports after it has taken `w`
    rcases taking_or_report t with ht | ⟨w, kind, u, ht⟩
    · rw [ht, play_taking_only]
      exact iff_of_true rfl (finishes_taking _ _)
    · have hw : (c.advance w.length).policy = .strict := hp
      rw [ht, play_taking, play_report_strict hw, finishes_append_iff]
      exact iff_of_false (by simp) fun h => not_finishes_report kind u h.2

end Cursor

/-! ## The text that a call passes

A call is `readToken` played on the cursor, so what it passes is what was taken on the part that was followed.
Piece by piece the calls pass the whole text, under either policy. -/

namespace Lexer

open Trace

/-- The code points that the next call passes. -/
def passed (l : Lexer) : List Char :=
  l.cursor.rest.take (l.nextToken.2.cursor.position - l.cursor.position)

/-- The events of the next call. -/
def events (l : Lexer) : Trace :=
  (readToken l.cursor.rest).trace.followed l.cursor.policy

/-- A call passes only what stands next. -/
theorem events_prefix_rest (l : Lexer) : taken l.events <+: l.cursor.rest :=
  (followed_prefix_taken _ _).trans ⟨_, readToken_splits l.cursor.rest⟩

theorem cursor_nextToken (l : Lexer) :
    l.nextToken.2.cursor = { l.cursor.advance (taken l.events).length with
      errors := l.nextToken.2.errors } :=
  l.cursor.play_eq_advance (readToken l.cursor.rest).trace

theorem position_nextToken (l : Lexer) :
    l.nextToken.2.cursor.position = l.cursor.position + (taken l.events).length := by
  rw [cursor_nextToken]
  show l.cursor.position + (l.cursor.rest.take (taken l.events).length).length = _
  have hle := (events_prefix_rest l).length_le
  rw [List.length_take]
  omega

/-- What the call passes is what its events take. -/
theorem passed_eq (l : Lexer) : l.passed = taken l.events := by
  rw [passed, position_nextToken, Nat.add_sub_cancel_left]
  exact (List.prefix_iff_eq_take.1 (events_prefix_rest l)).symm

theorem rest_nextToken (l : Lexer) :
    l.nextToken.2.cursor.rest = l.cursor.rest.drop l.passed.length := by
  rw [cursor_nextToken, passed_eq]
  rfl

/-- What a call passes and what it leaves are the text. -/
theorem passed_append_rest (l : Lexer) : l.passed ++ l.nextToken.2.cursor.rest = l.cursor.rest := by
  rw [rest_nextToken, passed_eq]
  exact List.prefix_iff_eq_append.1 (events_prefix_rest l)

/-- A call that answers with a token passes what the reading takes. -/
theorem passed_of_ok {l : Lexer} {t : Token} (h : l.nextToken.1 = .ok t) :
    t = (readToken l.cursor.rest).value ∧
      l.passed = taken (readToken l.cursor.rest).trace ∧
      l.nextToken.2.cursor.rest = (readToken l.cursor.rest).rest := by
  -- the answer is a token, so no error was: the trace has been followed to its end
  have hplay : (l.cursor.play (readToken l.cursor.rest).trace).1 = .ok () := by
    simp only [nextToken, Cursor.run] at h
    cases hanswer : (l.cursor.play (readToken l.cursor.rest).trace).1 with
    | ok u => rfl
    | error e =>
      rw [hanswer] at h
      contradiction
  have hpassed : l.passed = taken (readToken l.cursor.rest).trace := by
    rw [passed_eq, events, followed_of_finishes ((l.cursor.play_eq_ok_iff _).1 hplay)]
  refine ⟨Cursor.eq_value_of_run_eq_ok h, hpassed, ?_⟩
  rw [rest_nextToken, hpassed]
  exact (readToken_splits l.cursor.rest).drop_taken

/-- Every answer up to the end, with the text that its call passes. -/
def pieces (l : Lexer) : List (Answer × List Char) :=
  if _h : l.cursor.rest = [] then []
  else (l.nextToken.1, l.passed) :: pieces l.nextToken.2
termination_by l.cursor.rest.length
decreasing_by exact nextToken_shortens _h

theorem pieces_of_rest_eq_nil {l : Lexer} (h : l.cursor.rest = []) : l.pieces = [] := by
  rw [pieces, dif_pos h]

theorem pieces_of_rest_ne_nil {l : Lexer} (h : l.cursor.rest ≠ []) :
    l.pieces = (l.nextToken.1, l.passed) :: l.nextToken.2.pieces := by
  rw [pieces, dif_neg h]

/-- The pieces of a text are the text. -/
theorem flatMap_pieces (l : Lexer) : l.pieces.flatMap (·.2) = l.cursor.rest := by
  by_cases h : l.cursor.rest = []
  · rw [pieces_of_rest_eq_nil h, h, List.flatMap_nil]
  · rw [pieces_of_rest_ne_nil h, List.flatMap_cons, flatMap_pieces l.nextToken.2]
    exact l.passed_append_rest
termination_by l.cursor.rest.length
decreasing_by exact nextToken_shortens h

/-- Leniently there is a piece for every reading. -/
theorem pieces_lenient (l : Lexer) (hp : l.cursor.policy = .lenient) :
    l.pieces = (readTokens l.cursor.rest).map fun r => (.ok r.value, taken r.trace) := by
  by_cases hs : l.cursor.rest = []
  · rw [pieces_of_rest_eq_nil hs, hs, readTokens_nil, List.map_nil]
  · have hok : l.nextToken.1 = .ok (readToken l.cursor.rest).value :=
      (Cursor.run_lenient hp (readToken_splits l.cursor.rest)).1
    obtain ⟨_, hpassed, hrest⟩ := passed_of_ok hok
    have hlater : l.nextToken.2.cursor.policy = .lenient := (Cursor.policy_play _ _).trans hp
    rw [pieces_of_rest_ne_nil hs, pieces_lenient l.nextToken.2 hlater, hrest, hok, hpassed,
      readTokens_of_ne_nil hs, List.map_cons]
termination_by l.cursor.rest.length
decreasing_by exact nextToken_shortens hs

/-- Leniently the answers of the pieces are those that are collected. -/
theorem collect_eq_map_pieces (l : Lexer) (hp : l.cursor.policy = .lenient)
    (hf : l.finished = false) : l.collect.1 = l.pieces.map (·.1) := by
  rw [collect_lenient l hp hf, pieces_lenient l hp, List.map_map]
  rfl

end Lexer

end CssLex
