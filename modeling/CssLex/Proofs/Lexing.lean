import CssLex.Lexer
import CssLex.Proofs.Reads

/-!
# CssLex — a text as its tokens

`readTokens` reads a text to its end with no cursor: one reading after another, each from what the one
before leaves. What a lexer answers is a view of these readings. Under the lenient policy it answers
with the value of each of them (`Lexer.collect_lenient`), under the strict one only up to the first
that reports an error (`Lexer.collect_strict`).

Everything a cursor does in between is `Cursor.play`. A trace either passes a text and reports
nothing, or passes a text and then reports (`Trace.taking_or_report`); the two policies differ in the
second case only.
-/

namespace CssLex

/-! ## One token after another

A text is read without a cursor here. That every reading leaves less is all that the recursion needs. -/

/-- Before its end a text loses at least one code point to each token. -/
theorem length_rest_readToken_lt {s : List Char} (h : s ≠ []) :
    (readToken s).rest.length < s.length := by
  have hsplits := congrArg List.length (readToken_splits s)
  obtain ⟨c, u, htrace⟩ := moves_readToken h
  rw [htrace, Trace.taken_take, List.length_append, List.length_cons] at hsplits
  omega

/-- The readings of the tokens of a text, from its beginning to its end. -/
def readTokens : List Char → List (Reading Token)
  | [] => []
  | c :: s => readToken (c :: s) :: readTokens (readToken (c :: s)).rest
termination_by s => s.length
decreasing_by exact length_rest_readToken_lt (List.cons_ne_nil c s)

@[simp] theorem readTokens_nil : readTokens [] = [] := by
  rw [readTokens]

theorem readTokens_of_ne_nil {s : List Char} (h : s ≠ []) :
    readTokens s = readToken s :: readTokens (readToken s).rest := by
  cases s with
  | nil => exact absurd rfl h
  | cons c s => rw [readTokens]

/-- Where one token is known to be read from the front, the others are read from behind it. -/
theorem readTokens_append {w r : List Char} {reading : Reading Token} (hw : w ≠ [])
    (h : readToken (w ++ r) = reading) (hrest : reading.rest = r) :
    readTokens (w ++ r) = reading :: readTokens r := by
  rw [readTokens_of_ne_nil (by simp [hw]), h, hrest]

/-- The end of the text is read nowhere else. -/
theorem value_readToken_ne_endOfInput {s : List Char} (h : s ≠ []) :
    (readToken s).value ≠ .endOfInput := by
  have hreads := reads_readToken h
  generalize readToken s = r at hreads
  cases hreads with
  | url =>
    rw [Reading.value_after, Reading.value_map]
    rcases urlToken_cases (readUrl _).value with h | h <;> rw [h] <;> simp
  | string =>
    rw [Reading.value_after, Reading.value_map]
    rcases stringToken_cases (readQuoted _ _).value with h | h <;> rw [h] <;> simp
  | _ => simp [readWhitespace]

/-! ## Traces

A trace is a row of texts that are passed, with reports between them. For most purposes only its first report
matters. -/

namespace Trace

@[simp] theorem taking_nil : taking [] = [] := rfl

@[simp] theorem taking_cons (c : Char) (s : List Char) : taking (c :: s) = .take c :: taking s := rfl

@[simp] theorem taking_append (s t : List Char) : taking (s ++ t) = taking s ++ taking t :=
  List.map_append

/-- Up to its first report a trace only passes text. -/
theorem taking_or_report (t : Trace) :
    t = taking (taken t) ∨ ∃ w kind u, t = taking w ++ .report kind :: u := by
  induction t with
  | nil => exact Or.inl rfl
  | cons e t ih =>
    cases e with
    | report kind => exact Or.inr ⟨[], kind, t, rfl⟩
    | take c =>
      rcases ih with h | ⟨w, kind, u, h⟩
      · left
        rw [taken_take, taking_cons, ← h]
      · right
        exact ⟨c :: w, kind, u, by rw [h]; rfl⟩

/-- A trace without reports passes its text and does nothing else. -/
theorem eq_taking_of_reported_eq_nil {t : Trace} (h : reported t = []) : t = taking (taken t) := by
  rcases taking_or_report t with ht | ⟨w, kind, u, ht⟩
  · exact ht
  · rw [ht] at h
    simp at h

end Trace

/-- Behind what a reading takes stands what it leaves. -/
theorem Reading.Splits.drop_taken {α : Type} {r : Reading α} {s : List Char} (h : r.Splits s) :
    s.drop (Trace.taken r.trace).length = r.rest := by
  rw [← h, List.drop_left]

namespace Cursor

theorem play_taking (c : Cursor) (w : List Char) (t : Trace) :
    c.play (.taking w ++ t) = (c.advance w.length).play t := by
  -- induction on the text: one code point is one step of the cursor
  induction w generalizing c with
  | nil => simp
  | cons x w ih =>
    rw [Trace.taking_cons, List.cons_append, play_take, ih, ← advance_add, List.length_cons,
      Nat.add_comm]

@[simp] theorem policy_play (c : Cursor) (t : Trace) : (c.play t).2.policy = c.policy := by
  fun_induction play c t with
  | case1 => rfl
  | case2 c x t ih => rw [ih, policy_advance]
  | case3 c kind t d hd ih =>
    rw [ih, eq_of_report_eq_ok hd]
  | case4 => rfl

/-- A text that is passed reports nothing, under either policy. -/
theorem play_taking_only (c : Cursor) (w : List Char) :
    c.play (.taking w) = (.ok (), c.advance w.length) := by
  rw [← List.append_nil (Trace.taking w), play_taking, play_nil]

/-- Under the strict policy nothing is ever recorded. -/
theorem errors_play_strict {c : Cursor} (h : c.policy = .strict) (t : Trace) :
    (c.play t).2.errors = c.errors := by
  rcases Trace.taking_or_report t with ht | ⟨w, kind, u, ht⟩
  · rw [ht, play_taking_only, errors_advance]
  · have hw : (c.advance w.length).policy = .strict := h
    rw [ht, play_taking, play_report_strict hw, errors_advance]

/-- Under the lenient policy a trace is followed to its end. -/
theorem play_lenient {c : Cursor} (h : c.policy = .lenient) (t : Trace) :
    (c.play t).1 = .ok () ∧ (c.play t).2.rest = c.rest.drop (Trace.taken t).length := by
  induction t generalizing c with
  | nil => exact ⟨rfl, rfl⟩
  | cons e t ih =>
    -- a code point moves the cursor, a report only adds to the record
    cases e with
    | take x =>
      have hnext := ih (c := c.advance 1) h
      rw [rest_advance, List.drop_drop, Nat.add_comm] at hnext
      exact hnext
    | report kind =>
      rw [play_report_lenient h]
      exact ih h

/-- Errors are only ever added behind those that are recorded. -/
theorem errors_prefix_play (c : Cursor) (t : Trace) :
    c.errors.toList <+: (c.play t).2.errors.toList := by
  fun_induction play c t with
  | case1 => exact List.prefix_rfl
  | case2 c x t ih => exact ih
  | case3 c kind t d hd ih =>
    refine List.IsPrefix.trans ?_ ih
    rw [eq_of_report_eq_ok hd, Array.toList_push]
    exact List.prefix_append _ _
  | case4 => exact List.prefix_rfl

/-- Where what is read splits what is left, the lenient policy gives the value and leaves the rest. -/
theorem run_lenient {α : Type} {c : Cursor} (h : c.policy = .lenient) {read : List Char → Reading α}
    (hread : (read c.rest).Splits c.rest) :
    (c.run read).1 = .ok (read c.rest).value ∧ (c.run read).2.rest = (read c.rest).rest := by
  obtain ⟨hok, hrest⟩ := play_lenient h (read c.rest).trace
  constructor
  · simp only [run, hok, Except.map]
  · exact hrest.trans hread.drop_taken

/-- The answer is the value of the reading, or an error. -/
theorem eq_value_of_run_eq_ok {α : Type} {c : Cursor} {read : List Char → Reading α} {x : α}
    (h : (c.run read).1 = .ok x) : x = (read c.rest).value := by
  simp only [run] at h
  cases hplay : (c.play (read c.rest).trace).1 with
  | error e =>
    rw [hplay] at h
    contradiction
  | ok u =>
    rw [hplay] at h
    exact (Except.ok.inj h).symm

end Cursor

/-! ## What a lexer answers

The answers of a lexer follow its readings: `next?` is `nextToken` until the end or an error, and `collect` is
`next?` again and again. -/

namespace Lexer

theorem next?_of_finished {l : Lexer} (h : l.finished = true) : l.next? = (none, l) := by
  simp [next?, h]

theorem next?_of_rest_eq_nil {l : Lexer} (h : l.cursor.rest = []) :
    l.next? = (none, { l with finished := true }) := by
  by_cases hf : l.finished = true
  · rw [next?_of_finished hf, ← hf]
  · simp [next?, hf, nextToken_of_rest_eq_nil h]

theorem nextToken_eq_ok {l later : Lexer} {t : Token} (h : l.nextToken = (.ok t, later)) :
    t = (readToken l.cursor.rest).value :=
  Cursor.eq_value_of_run_eq_ok (congrArg Prod.fst h)

/-- A token is passed on as it was answered. It is not the end of the text, for that is read nowhere else. -/
theorem next?_of_token {l later : Lexer} {t : Token} (hf : l.finished = false)
    (hs : l.cursor.rest ≠ []) (h : l.nextToken = (.ok t, later)) :
    l.next? = (some (.ok t), later) := by
  have hne : t ≠ .endOfInput := nextToken_eq_ok h ▸ value_readToken_ne_endOfInput hs
  simp only [next?, hf, h]
  cases t <;> simp_all

theorem next?_of_error {l later : Lexer} {e : ParseError} (hf : l.finished = false)
    (h : l.nextToken = (.error e, later)) :
    l.next? = (some (.error e), { later with finished := true }) := by
  simp [next?, hf, h]

/-- The iterator gives no answer when it is finished or the text is at its end, and else what the next
token is. -/
theorem next?_cases (l : Lexer) :
    l.next? = (none, { l with finished := true }) ∨
      (∃ t later, l.nextToken = (.ok t, later) ∧ l.next? = (some (.ok t), later)) ∨
      ∃ e later, l.nextToken = (.error e, later) ∧
        l.next? = (some (.error e), { later with finished := true }) := by
  by_cases hf : l.finished = true
  · left
    rw [next?_of_finished hf, ← hf]
  · rw [Bool.not_eq_true] at hf
    by_cases hs : l.cursor.rest = []
    · exact Or.inl (next?_of_rest_eq_nil hs)
    · right
      rcases hstep : l.nextToken with ⟨e | t, later⟩
      · exact Or.inr ⟨e, later, rfl, next?_of_error hf hstep⟩
      · exact Or.inl ⟨t, later, rfl, next?_of_token hf hs hstep⟩

theorem collect_of_none {l later : Lexer} (h : l.next? = (none, later)) :
    l.collect = ([], later) := by
  rw [collect]
  simp [h]

theorem collect_of_some {l later : Lexer} {a : Answer} (h : l.next? = (some a, later)) :
    l.collect = (a :: later.collect.1, later.collect.2) := by
  rw [collect]
  simp [h]

/-- Leniently the answers are the values of all readings. -/
theorem collect_lenient (l : Lexer) (hp : l.cursor.policy = .lenient) (hf : l.finished = false) :
    l.collect.1 = (readTokens l.cursor.rest).map fun r => .ok r.value := by
  by_cases hs : l.cursor.rest = []
  · rw [collect_of_none (next?_of_rest_eq_nil hs), hs, readTokens_nil, List.map_nil]
  · -- the value is answered whatever is reported, and the lexer stands where the reading ends
    obtain ⟨hok, hrest⟩ := Cursor.run_lenient hp (readToken_splits l.cursor.rest)
    have hstep : l.nextToken = (.ok (readToken l.cursor.rest).value, l.nextToken.2) :=
      Prod.ext hok rfl
    have hlater : l.nextToken.2.cursor.policy = .lenient := (Cursor.policy_play _ _).trans hp
    rw [collect_of_some (next?_of_token hf hs hstep), collect_lenient l.nextToken.2 hlater hf,
      show l.nextToken.2.cursor.rest = (readToken l.cursor.rest).rest from hrest,
      readTokens_of_ne_nil hs, List.map_cons]
termination_by l.cursor.rest.length
decreasing_by exact nextToken_shortens hs

/-- A reading that reports nothing is answered with its value under both policies. -/
theorem nextToken_of_reported_eq_nil {l : Lexer}
    (h : Trace.reported (readToken l.cursor.rest).trace = []) :
    l.nextToken = (.ok (readToken l.cursor.rest).value,
      { l with cursor := l.cursor.advance (Trace.taken (readToken l.cursor.rest).trace).length }) := by
  have hplay : l.cursor.play (readToken l.cursor.rest).trace =
      (.ok (), l.cursor.advance (Trace.taken (readToken l.cursor.rest).trace).length) := by
    have htaking := l.cursor.play_taking_only (Trace.taken (readToken l.cursor.rest).trace)
    rwa [← Trace.eq_taking_of_reported_eq_nil h] at htaking
  simp only [nextToken, Cursor.run, hplay, Except.map]

/-- Strictly the answers are tokens to the end exactly if no reading reports an error. -/
theorem collect_strict (l : Lexer) (hp : l.cursor.policy = .strict) (hf : l.finished = false)
    (ts : List Token) :
    l.collect.1 = ts.map .ok ↔
      (∀ r ∈ readTokens l.cursor.rest, Trace.reported r.trace = []) ∧
        ts = (readTokens l.cursor.rest).map (·.value) := by
  by_cases hs : l.cursor.rest = []
  · rw [collect_of_none (next?_of_rest_eq_nil hs), hs, readTokens_nil]
    cases ts <;> simp
  · rw [readTokens_of_ne_nil hs]
    rcases Trace.taking_or_report (readToken l.cursor.rest).trace with htrace | ⟨w, kind, u, htrace⟩
    · -- nothing is reported: a token is answered, and the rest is read on
      have hreport : Trace.reported (readToken l.cursor.rest).trace = [] := by
        rw [htrace, Trace.reported_taking]
      have hstep := nextToken_of_reported_eq_nil hreport
      have hsplits := readToken_splits l.cursor.rest
      have ih := collect_strict l.nextToken.2 ((Cursor.policy_play _ _).trans hp) hf
      rw [hstep] at ih
      simp only [Cursor.rest_advance, hsplits.drop_taken] at ih
      rw [collect_of_some (next?_of_token hf hs hstep)]
      cases ts with
      | nil => simp
      | cons t ts =>
        simp only [List.map_cons, List.cons.injEq, Except.ok.injEq, List.forall_mem_cons, hreport,
          true_and, ih ts, eq_comm (a := t)]
        exact and_left_comm
    · -- the first report is the last answer
      have hplay : (l.cursor.play (readToken l.cursor.rest).trace).1 =
          .error ((l.cursor.advance w.length).errorHere kind) := by
        have hw : (l.cursor.advance w.length).policy = .strict := hp
        rw [htrace, Cursor.play_taking, Cursor.play_report_strict hw]
      have hstep : l.nextToken =
          (.error ((l.cursor.advance w.length).errorHere kind), l.nextToken.2) :=
        Prod.ext (by simp only [nextToken, Cursor.run, hplay, Except.map]) rfl
      rw [collect_of_some (next?_of_error hf hstep)]
      cases ts <;> simp [htrace]
termination_by l.cursor.rest.length
decreasing_by exact nextToken_shortens hs

end Lexer

/-! ## Texts

`tokenize` reads strictly and wants all answers to be tokens. -/

/-- All results are there exactly if none is an error. -/
theorem mapM_id_eq_ok_iff {ε α : Type} {xs : List (Except ε α)} {ys : List α} :
    xs.mapM id = .ok ys ↔ xs = ys.map .ok := by
  induction xs generalizing ys with
  | nil => cases ys <;> simp [pure, Except.pure]
  | cons x xs ih =>
    rw [List.mapM_cons]
    -- the first error is the result, wherever it stands
    cases x with
    | error e => cases ys <;> simp [bind, Except.bind]
    | ok x =>
      cases hxs : xs.mapM id with
      | error e =>
        cases ys with
        | nil => simp [bind, Except.bind]
        | cons y ys =>
          have hne : xs ≠ ys.map .ok := mt ih.2 (by simp [hxs])
          simp [bind, Except.bind, hne]
      | ok zs =>
        rw [hxs] at ih
        cases ys with
        | nil => simp [bind, Except.bind, pure, Except.pure]
        | cons y ys => simp [bind, Except.bind, pure, Except.pure, ← ih]

/-- A text has tokens exactly if none of its readings reports an error. -/
theorem tokenize_eq_ok_iff {text : String} {ts : List Token} :
    tokenize text = .ok ts ↔
      (∀ r ∈ readTokens (normalize text.toList), Trace.reported r.trace = []) ∧
        ts = (readTokens (normalize text.toList)).map (·.value) := by
  rw [tokenize, mapM_id_eq_ok_iff]
  exact Lexer.collect_strict _ rfl rfl ts

end CssLex
