import CssLex.Proofs.Lexing

/-!
# CssLex — sequences of calls

A lexer can be asked for the next token and for the next answer of its iterator, in any order.
`Lexer.calls` follows such a sequence. Whatever the play of a trace keeps of a cursor, every sequence of
calls keeps (`Lexer.calls_induction`): its policy, and under the strict one the errors recorded so far.
The iterator by itself gives what `collect` collects, and then nothing for ever (`Lexer.gives_collect`).
-/

namespace CssLex

/-- What a lexer can be asked for. -/
inductive Call where
  | nextToken
  | next?
  deriving DecidableEq, Repr

namespace Lexer

/-- The answer to one call, which `next?` may refuse. -/
def call (l : Lexer) : Call → Option Answer × Lexer
  | .nextToken => (some l.nextToken.1, l.nextToken.2)
  | .next? => l.next?

/-- The answers to calls made one after another. -/
def calls (l : Lexer) : List Call → List (Option Answer) × Lexer
  | [] => ([], l)
  | k :: ks => ((l.call k).1 :: ((l.call k).2.calls ks).1, ((l.call k).2.calls ks).2)

/-- Asked again and again, the iterator gives these answers in order, and then none for ever. -/
def Gives (l : Lexer) (answers : List Answer) : Prop :=
  ∀ n, (l.calls (List.replicate n .next?)).1 =
    (answers.map some ++ List.replicate n none).take n

theorem calls_append (l : Lexer) (ks js : List Call) :
    l.calls (ks ++ js) =
      ((l.calls ks).1 ++ ((l.calls ks).2.calls js).1, ((l.calls ks).2.calls js).2) := by
  induction ks generalizing l with
  | nil => rfl
  | cons k ks ih => simp only [List.cons_append, calls, ih]

/-! ## What one call does

Either call plays one trace on the cursor or leaves it alone. So what holds of the cursor after every trace
holds after every sequence of calls, and nothing has to be said about the two kinds of call again. -/

/-- A call leaves the lexer alone, or plays the trace of one reading. -/
theorem cursor_call (l : Lexer) (k : Call) :
    (l.call k).2.cursor = l.cursor ∨
      (l.call k).2.cursor = (l.cursor.play (readToken l.cursor.rest).trace).2 := by
  cases k with
  | nextToken => exact Or.inr rfl
  | next? =>
    -- an answer is that of `nextToken`, and leaves the cursor where `nextToken` does
    rcases l.next?_cases with hnext | ⟨t, later, hstep, hnext⟩ | ⟨e, later, hstep, hnext⟩
    · left
      rw [call, hnext]
    · right
      rw [call, hnext]
      exact (congrArg (·.2.cursor) hstep).symm
    · right
      rw [call, hnext]
      exact (congrArg (·.2.cursor) hstep).symm

/-- A token that is answered by a call was read where the call was made. -/
theorem value_of_call_eq {l : Lexer} {k : Call} {t : Token}
    (h : (l.call k).1 = some (.ok t)) : l.nextToken.1 = .ok t := by
  cases k with
  | nextToken => exact Option.some.inj h
  | next? =>
    rcases l.next?_cases with hnext | ⟨u, later, hstep, hnext⟩ | ⟨e, later, hstep, hnext⟩
    · rw [call, hnext] at h
      contradiction
    · rw [call, hnext] at h
      rw [hstep]
      exact Option.some.inj h
    · rw [call, hnext] at h
      simp at h

/-- What the play of every trace keeps, every sequence of calls keeps. -/
theorem calls_induction {P : Cursor → Prop} (hplay : ∀ c t, P c → P (c.play t).2) {l : Lexer}
    (h : P l.cursor) (ks : List Call) : P (l.calls ks).2.cursor := by
  induction ks generalizing l with
  | nil => exact h
  | cons k ks ih =>
    apply ih
    rcases cursor_call l k with hk | hk
    · rw [hk]
      exact h
    · rw [hk]
      exact hplay _ _ h

theorem policy_calls (l : Lexer) (ks : List Call) :
    (l.calls ks).2.cursor.policy = l.cursor.policy :=
  calls_induction (P := fun c => c.policy = l.cursor.policy)
    (fun c t h => (Cursor.policy_play c t).trans h) rfl ks

/-- Under the strict policy no sequence of calls records an error. -/
theorem errors_calls_strict {l : Lexer} (h : l.cursor.policy = .strict) (ks : List Call) :
    (l.calls ks).2.errors = l.errors := by
  have hkeeps := calls_induction (P := fun c => c.policy = .strict ∧ c.errors = l.cursor.errors)
    (fun c t hc => ⟨(Cursor.policy_play c t).trans hc.1, (Cursor.errors_play_strict hc.1 t).trans hc.2⟩)
    ⟨h, rfl⟩ ks
  exact hkeeps.2

/-- A call forgets no error. -/
theorem errors_prefix_call (l : Lexer) (k : Call) :
    l.errors.toList <+: (l.call k).2.errors.toList := by
  rcases cursor_call l k with hk | hk
  · have hsame : (l.call k).2.errors = l.errors := congrArg Cursor.errors hk
    exact hsame ▸ List.prefix_rfl
  · rw [errors, errors, hk]
    exact Cursor.errors_prefix_play _ _

/-- Nor does a whole run. The induction is that of `collect`. -/
theorem errors_prefix_collect (l : Lexer) : l.errors.toList <+: l.collect.2.errors.toList := by
  fun_induction collect l with
  | case1 l step h later ih => exact (errors_prefix_call l .next?).trans ih
  | case2 l step h => exact errors_prefix_call l .next?

theorem finished_of_next?_eq_none {l later : Lexer} (h : l.next? = (none, later)) :
    later.finished = true := by
  rcases l.next?_cases with hnext | ⟨t, after, _, hnext⟩ | ⟨e, after, _, hnext⟩
  · rw [hnext] at h
    rw [← (Prod.mk.inj h).2]
  · rw [hnext] at h
    exact absurd (Prod.mk.inj h).1 (by simp)
  · rw [hnext] at h
    exact absurd (Prod.mk.inj h).1 (by simp)

theorem gives_collect (l : Lexer) : l.Gives l.collect.1 := by
  intro n
  induction n generalizing l with
  | zero => rfl
  | succ n ih =>
    rw [List.replicate_succ, calls, call]
    rcases hstep : l.next? with ⟨_ | a, later⟩
    · -- no answer now, so none later
      have hlater := next?_of_finished (finished_of_next?_eq_none hstep)
      rw [ih later, collect_of_none hlater, collect_of_none hstep]
      simp [List.replicate_succ]
    · rw [ih later, collect_of_some hstep]
      simp [List.replicate_succ', List.take_append]

/-! ## One token after another

The lexer is asked for tokens alone, so its places in the text can be numbered. -/

/-- The lexer after so many tokens have been asked for. -/
def after (l : Lexer) (k : Nat) : Lexer :=
  (l.calls (List.replicate k .nextToken)).2

/-- The first token can be asked for before the others. -/
theorem after_succ (l : Lexer) (k : Nat) : l.after (k + 1) = l.nextToken.2.after k := rfl

/-- And the last one after them. -/
theorem nextToken_after (l : Lexer) (k : Nat) : (l.after k).nextToken.2 = l.after (k + 1) := by
  rw [after, after, List.replicate_succ', calls_append]
  rfl

end Lexer

end CssLex
