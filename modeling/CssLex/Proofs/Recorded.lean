import CssLex.Proofs.Calls
import CssLex.Proofs.Neighbours
import CssLex.Proofs.Reporting
import Mathlib.Data.Prod.Lex

/-!
# CssLex — the errors of a run

A text that is read leniently is read to its end, one token a call, and every call records what its token
reports (`Lexer.exists_records`). So the errors of a whole run are counted token by token
(`count_flatMap_reported`), and they are in the order of their places, for a cursor never goes back
(`Cursor.InOrder`).

* `errors_account_for_tokens`: the errors of a text against its tokens.
-/

namespace CssLex

/-! ## Every token of a text

A lenient run has no choices: each call answers with the reading of what is left, and goes on behind it. So
the answers are the tokens of the text one by one, and what is recorded is what their readings report. -/

/-- Only the empty text has no tokens, so the run is over exactly when nothing is left. -/
theorem tokensOf_eq_nil_iff {s : List Char} : tokensOf s = [] ↔ s = [] := by
  refine ⟨fun h => ?_, fun h => h ▸ tokensOf_nil⟩
  by_contra hs
  rw [tokensOf_of_ne_nil hs] at h
  contradiction

/-- The end is no token of the text. It is answered behind them. -/
theorem endOfInput_not_mem_tokensOf (s : List Char) : .endOfInput ∉ tokensOf s := by
  by_cases hs : s = []
  · rw [hs, tokensOf_nil]
    exact List.not_mem_nil
  · rw [tokensOf_of_ne_nil hs, List.mem_cons, not_or]
    exact ⟨(value_readToken_ne_endOfInput hs).symm, endOfInput_not_mem_tokensOf (readToken s).rest⟩
termination_by s.length
decreasing_by exact length_rest_readToken_lt hs

/-- What is counted of each token is counted of them all. -/
theorem count_flatMap_reported {kind : ErrorKind} {p : Token → Bool}
    (hcount : ∀ {t rs}, Token.Reports t rs → (rs.map (·.2)).count kind = [t].countP p) (s : List Char) :
    ((readTokens s).flatMap fun r => Trace.reported r.trace).count kind = (tokensOf s).countP p := by
  by_cases hs : s = []
  · rw [hs, readTokens_nil, tokensOf_nil]
    rfl
  · have hfirst := hcount (reports_readToken hs)
    rw [Reading.remarks, Trace.map_remarks] at hfirst
    rw [readTokens_of_ne_nil hs, tokensOf_of_ne_nil hs, List.flatMap_cons, List.count_append, hfirst,
      count_flatMap_reported hcount (readToken s).rest, ← List.countP_append]
    rfl
termination_by s.length
decreasing_by exact length_rest_readToken_lt hs

namespace Lexer

variable {l : Lexer}

/-- Leniently every token that is there is answered, and then the end. -/
theorem nextToken_lenient (hp : l.cursor.policy = .lenient) :
    l.nextToken.1 = .ok ((tokensOf l.cursor.rest).head?.getD .endOfInput) := by
  have hok : l.nextToken.1 = .ok (readToken l.cursor.rest).value :=
    (Cursor.run_lenient hp (readToken_splits _)).1
  rw [hok]
  by_cases hs : l.cursor.rest = []
  · rw [hs, tokensOf_nil]
    rfl
  · rw [tokensOf_of_ne_nil hs]
    rfl

theorem rest_nextToken_lenient (hp : l.cursor.policy = .lenient) :
    l.nextToken.2.cursor.rest = (readToken l.cursor.rest).rest :=
  (Cursor.run_lenient hp (readToken_splits _)).2

/-- A call takes one token off the front of those that are left. -/
theorem tokensOf_nextToken (hp : l.cursor.policy = .lenient) :
    tokensOf l.nextToken.2.cursor.rest = (tokensOf l.cursor.rest).tail := by
  rw [rest_nextToken_lenient hp]
  by_cases hs : l.cursor.rest = []
  · rw [hs, tokensOf_nil]
    exact tokensOf_nil
  · rw [tokensOf_of_ne_nil hs]
    rfl

theorem policy_after (l : Lexer) (k : Nat) : (l.after k).cursor.policy = l.cursor.policy :=
  l.policy_calls _

/-- After `k` calls all tokens but the first `k` are left. -/
theorem tokensOf_after (hp : l.cursor.policy = .lenient) (k : Nat) :
    tokensOf (l.after k).cursor.rest = (tokensOf l.cursor.rest).drop k := by
  induction k with
  | zero => rfl
  | succ k ih =>
    rw [← nextToken_after, tokensOf_nextToken ((l.policy_after k).trans hp), ih, List.tail_drop]

/-- Leniently everything that a reading reports is recorded, at the place of its report. -/
theorem errors_nextToken_lenient (hp : l.cursor.policy = .lenient) :
    l.nextToken.2.errors.toList =
      l.errors.toList ++ (readToken l.cursor.rest).trace.reports.map l.cursor.errorAt := by
  have herrors := l.cursor.errors_play (readToken l.cursor.rest).trace
  rwa [hp] at herrors

/-- The errors of a run are those of the readings, in order. -/
theorem kinds_after_tokens (l : Lexer) (hp : l.cursor.policy = .lenient) :
    (l.after (tokensOf l.cursor.rest).length).errors.toList.map (·.kind) =
      l.errors.toList.map (·.kind) ++
        (readTokens l.cursor.rest).flatMap fun r => Trace.reported r.trace := by
  by_cases hs : l.cursor.rest = []
  · rw [hs, tokensOf_nil, readTokens_nil, List.flatMap_nil, List.append_nil]
    rfl
  · have hlater := kinds_after_tokens l.nextToken.2 ((Cursor.policy_play _ _).trans hp)
    rw [rest_nextToken_lenient hp, errors_nextToken_lenient hp, List.map_append, List.map_map] at hlater
    rw [tokensOf_of_ne_nil hs, List.length_cons, after_succ, hlater, readTokens_of_ne_nil hs,
      List.flatMap_cons, ← Trace.map_reports, List.append_assoc]
    rfl
termination_by l.cursor.rest.length
decreasing_by exact nextToken_shortens hs

end Lexer

/-! ## The order of places

Places are compared by line and column, and passing a code point never makes one smaller. `Cursor.InOrder` is
what every step of a reading preserves: the recorded errors are in order and none is ahead. -/

/-- Places are in the order of the text: by line, and on a line by column. -/
instance : PartialOrder Location :=
  PartialOrder.lift (fun l => toLex (l.line, l.column)) fun a b h => by
    obtain ⟨hline, hcolumn⟩ := Prod.mk.inj (toLex_inj.1 h)
    cases a
    cases b
    cases hline
    cases hcolumn
    rfl

theorem Location.le_iff {a b : Location} :
    a ≤ b ↔ a.line < b.line ∨ a.line = b.line ∧ a.column ≤ b.column :=
  Prod.Lex.toLex_le_toLex

theorem Location.le_after (l : Location) (c : Char) : l ≤ l.after c := by
  unfold Location.after
  split
  · exact Location.le_iff.2 (Or.inl (Nat.lt_succ_self _))
  · exact Location.le_iff.2 (Or.inr ⟨rfl, Nat.le_succ _⟩)

theorem Location.le_through (l : Location) (s : List Char) : l ≤ l.through s := by
  induction s generalizing l with
  | nil => exact le_refl l
  | cons c s ih => exact (l.le_after c).trans (ih (l.after c))

namespace Cursor

/-- The errors recorded so far are in the order of their places, and none is ahead of the cursor. -/
structure InOrder (c : Cursor) : Prop where
  pairwise : c.errors.toList.Pairwise (·.location ≤ ·.location)
  behind : ∀ e ∈ c.errors.toList, e.location ≤ c.location

/-- Passing text keeps the order, with the cursor further ahead of all errors. -/
theorem InOrder.advance {c : Cursor} (h : c.InOrder) (n : Nat) : (c.advance n).InOrder :=
  ⟨h.pairwise, fun e he => (h.behind e he).trans (c.location.le_through _)⟩

/-- A report is recorded at the cursor, behind all errors so far. -/
theorem InOrder.report {c d : Cursor} (h : c.InOrder) {kind : ErrorKind} (hd : c.report kind = .ok d) :
    d.InOrder := by
  rw [eq_of_report_eq_ok hd]
  constructor
  · rw [Array.toList_push, List.pairwise_append]
    refine ⟨h.pairwise, List.pairwise_singleton _ _, fun e he f hf => ?_⟩
    rw [List.mem_singleton.1 hf]
    exact h.behind e he
  · intro e he
    rw [Array.toList_push, List.mem_append, List.mem_singleton] at he
    rcases he with he | rfl
    · exact h.behind e he
    · exact le_refl c.location

/-- So a whole reading keeps the order, whichever policy ends it. -/
theorem InOrder.play {c : Cursor} (h : c.InOrder) (t : Trace) : (c.play t).2.InOrder := by
  fun_induction Cursor.play c t with
  | case1 => exact h
  | case2 c x t ih => exact ih (h.advance 1)
  | case3 c kind t d hd ih => exact ih (h.report hd)
  | case4 => exact h

theorem inOrder_ofText (text : String) (policy : ErrorPolicy) : (ofText text policy).InOrder :=
  ⟨List.Pairwise.nil, nofun⟩

end Cursor

/-! ## The errors of a run

What one call records is put together from what its token reports (`reports_readToken`), with every error
placed by what is passed before it instead of by what is left. -/

namespace Lexer

/-- The call answers with the token and records these errors, each with how many code points it has passed
by then. -/
structure Records (l : Lexer) (t : Token) (reports : List (Nat × ErrorKind)) : Prop where
  answer : l.nextToken.1 = .ok t
  errors : l.nextToken.2.errors.toList = l.errors.toList ++ reports.map l.cursor.errorAt
  /-- What damages a url is recorded for a damaged url only. -/
  damaged : ∀ r ∈ reports, r.2.damagesUrl = true → t.isBadUrl = true
  once : reports.countP (·.2.damagesUrl) ≤ 1
  /-- What the end of the text makes is recorded when nothing is left. -/
  atEnd : ∀ r ∈ reports, r.2.isAtEnd = true → (l.cursor.advance r.1).atEnd = true
  /-- Two errors are recorded of a url that ends behind a backslash only, damaged or not. -/
  two : reports.length ≤ 1 ∨
    ((∃ text, t = .url text) ∧ reports.map (·.2) = [.escapedEnd, .unclosedUrl]) ∨
    (∃ text, t = .badUrl text) ∧
      ∃ kind : ErrorKind, kind.damagesUrl = true ∧ reports.map (·.2) = [kind, .escapedEnd]

/-- **A call before the end records what its token reports.** -/
theorem exists_records {l : Lexer} (hp : l.cursor.policy = .lenient) (hs : l.cursor.rest ≠ []) :
    ∃ reports, l.Records (readToken l.cursor.rest).value reports ∧
      ((∃ r ∈ reports, r.2.isAtEnd = true) → l.nextToken.2.cursor.rest = []) := by
  obtain ⟨hanswer, hrest⟩ := Cursor.run_lenient hp (readToken_splits l.cursor.rest)
  have htoken := reports_readToken hs
  generalize hreading : readToken l.cursor.rest = reading at htoken hanswer hrest
  have hkinds : reading.trace.reports.map (·.2) = reading.remarks.map (·.2) :=
    (Trace.map_reports _).trans (Trace.map_remarks _ _).symm
  -- an error of the end is reported with nothing left
  have hend : ∀ r ∈ reading.trace.reports, r.2.isAtEnd = true →
      reading.rest = [] ∧ r.1 = l.cursor.rest.length := by
    intro r hr hkind
    obtain ⟨left, hleft, hsum⟩ := Trace.exists_mem_remarks hr reading.rest.length
    have hzero : left = 0 := htoken.left_of_isAtEnd hleft hkind
    have hle : reading.rest.length ≤ left := Trace.le_of_mem_remarks hleft
    have hsplits := congrArg List.length (readToken_splits l.cursor.rest)
    rw [hreading, List.length_append] at hsplits
    exact ⟨List.length_eq_zero_iff.1 (by omega), by omega⟩
  -- The five fields of `Records` in turn; each is a fact about the reports of a token, carried over by
  -- `hkinds` or `hend`.
  refine ⟨reading.trace.reports, ⟨hanswer, ?_, ?_, ?_, ?_, ?_⟩, ?_⟩
  · rw [errors_nextToken_lenient hp, hreading]
  · intro r hr hkind
    exact htoken.isBadUrl_of_damagesUrl (hkinds ▸ List.mem_map_of_mem hr) hkind
  · have hcount := htoken.countP_damagesUrl_le
    rwa [← hkinds, List.countP_map] at hcount
  · intro r hr hkind
    rw [Cursor.atEnd, Cursor.rest_advance, (hend r hr hkind).2, List.drop_length]
    rfl
  · have hlength := congrArg List.length hkinds
    rw [List.length_map, List.length_map] at hlength
    rw [hlength, hkinds]
    exact htoken.length_le_or
  · rintro ⟨r, hr, hkind⟩
    exact hrest.trans (hend r hr hkind).1

end Lexer

/-- **Errors are accounted for by the tokens.** A text is read leniently, call after call, to its end. The
errors of cut strings are as many as the damaged strings, those of backslashes before a newline as many as
the tokens of a backslash, and all errors are in the order of their places. What a call records is for its
token (`Lexer.Records`), and only the call that gives the last token records what the end makes. -/
theorem errors_account_for_tokens (text : String) :
    ∃ (l : Lexer) (tokens : List Token), Lexer.ofText text .lenient .preserve = .ok l ∧
      (∀ k, (l.after k).nextToken.1 = .ok (tokens[k]?.getD .endOfInput)) ∧ .endOfInput ∉ tokens ∧
      (l.after tokens.length).nextToken.2 = l.after tokens.length ∧
      (let errors := (l.after tokens.length).errors.toList
       (errors.map (·.kind)).count .newlineInString = tokens.countP (·.isBadString) ∧
        (errors.map (·.kind)).count .escapedNewline = tokens.count (.delim '\\') ∧
        errors.Pairwise (·.location ≤ ·.location)) ∧
      ∀ k t, tokens[k]? = some t → ∃ reports, (l.after k).Records t reports ∧
        ((∃ r ∈ reports, r.2.isAtEnd = true) → k + 1 = tokens.length) := by
  let l : Lexer := .ofCursor (.ofText text .lenient)
  have hp : l.cursor.policy = .lenient := rfl
  have hrest (k : Nat) : tokensOf (l.after k).cursor.rest = (tokensOf l.cursor.rest).drop k :=
    Lexer.tokensOf_after hp k
  have hkinds := l.kinds_after_tokens hp
  refine ⟨l, tokensOf l.cursor.rest, rfl, ?_, ?_, ?_, ⟨?_, ?_, ?_⟩, ?_⟩
  · intro k
    rw [Lexer.nextToken_lenient ((l.policy_after k).trans hp), hrest, List.head?_drop]
  · exact endOfInput_not_mem_tokensOf _
  · have hover := hrest (tokensOf l.cursor.rest).length
    rw [List.drop_length, tokensOf_eq_nil_iff] at hover
    rw [Lexer.nextToken_of_rest_eq_nil hover]
  · rw [hkinds]
    exact count_flatMap_reported (p := Token.isBadString) Token.Reports.count_newlineInString _
  · rw [hkinds]
    exact count_flatMap_reported Token.Reports.count_escapedNewline _
  -- the order is an invariant of every step, so no token has to be looked at
  · exact (Lexer.calls_induction (P := Cursor.InOrder) (fun _ t h => h.play t)
      (Cursor.inOrder_ofText text .lenient) _).pairwise
  · intro k t ht
    have hhead : (tokensOf (l.after k).cursor.rest).head? = some t := by
      rw [hrest, List.head?_drop, ht]
    have hs : (l.after k).cursor.rest ≠ [] := by
      intro h
      rw [h, tokensOf_nil] at hhead
      contradiction
    obtain ⟨reports, hrecords, hlast⟩ := Lexer.exists_records ((l.policy_after k).trans hp) hs
    rw [tokensOf_of_ne_nil hs, List.head?_cons] at hhead
    rw [Option.some.inj hhead] at hrecords
    refine ⟨reports, hrecords, fun hend => ?_⟩
    -- nothing is left, so no token comes behind this one
    have hover := hrest (k + 1)
    rw [← Lexer.nextToken_after, hlast hend, tokensOf_nil, eq_comm, List.drop_eq_nil_iff] at hover
    exact Nat.le_antisymm (List.getElem?_eq_some_iff.1 ht).1 hover

end CssLex
