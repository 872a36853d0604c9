import CssLex.Proofs.Reporting

/-!
# CssLex — what a call answers

`Lexer.Takes` says all of one call: the token that it answers with, the text that it leaves, and the errors
that it records, each at the place where so many code points are left (`Cursor.errorLeaving`). A call takes
what the reading from its place takes, unless an error is its answer (`Lexer.takes_of_finishes`): under the
lenient policy always, and under the strict one where the reading reports nothing.
-/

namespace CssLex

/-! ## The place of an error

An error is told by how many code points are left when it is reported, which a reader knows without knowing
what was before it. The place in the text follows from that and from where the call began. -/

/-- No more is left at an error than at the beginning. -/
theorem Trace.le_of_mem_remarks_append {n : Nat} {t : Trace} {m : Nat × ErrorKind}
    (h : m ∈ remarks n t) : m.1 ≤ (taken t).length + n := by
  induction t with
  | nil => contradiction
  | cons e t ih =>
    cases e with
    | take c =>
      have hle := ih h
      rw [taken_take, List.length_cons]
      omega
    | report kind =>
      rcases List.mem_cons.1 h with rfl | h
      · exact Nat.le_refl _
      · exact ih h

/-- How much is taken before an error follows from how much is left then. -/
theorem Trace.reports_eq_map_remarks (n : Nat) (t : Trace) :
    t.reports = (remarks n t).map fun m => ((taken t).length + n - m.1, m.2) := by
  induction t with
  | nil => rfl
  | cons e t ih =>
    cases e with
    | take c =>
      rw [reports, ih, List.map_map]
      refine List.map_congr_left fun m hm => ?_
      have hle : m.1 ≤ (taken t).length + n := le_of_mem_remarks_append hm
      -- one code point more is taken before the error, and one more is there at the beginning
      have hcount : (taken t).length + n - m.1 + 1 = (taken (.take c :: t)).length + n - m.1 := by
        rw [taken_take, List.length_cons]
        omega
      exact congrArg (·, m.2) hcount
    | report kind =>
      have hzero : (taken t).length + n - ((taken t).length + n) = 0 := Nat.sub_self _
      rw [reports, ih, remarks, List.map_cons, taken_report, hzero]

namespace Cursor

/-- The error that is recorded when so many code points are left. -/
def errorLeaving (c : Cursor) (m : Nat × ErrorKind) : ParseError :=
  ⟨m.2, c.location.through (c.rest.take (c.rest.length - m.1))⟩

/-- A trace that is followed to its end records its errors where they are reported. -/
theorem errors_play_of_splits {c : Cursor} (hp : c.policy = .lenient) {reading : Reading Token}
    (h : reading.Splits c.rest) :
    (c.play reading.trace).2.errors.toList =
      c.errors.toList ++ reading.remarks.map c.errorLeaving := by
  have hlength := congrArg List.length h
  rw [List.length_append] at hlength
  rw [errors_play, hp, recorded, Trace.reports_eq_map_remarks reading.rest.length, List.map_map, hlength]
  rfl

end Cursor

/-! ## One call

What a reader does is turned into what a call does once and for all; the theorems about single tokens only say
what their reader does. -/

namespace Lexer

/-- The call answers with the token, leaves `r`, and records these errors, each with how many code points
are left then. -/
structure Takes (l : Lexer) (t : Token) (r : List Char) (remarks : List (Nat × ErrorKind)) : Prop where
  answer : l.nextToken.1 = .ok t
  rest : l.nextToken.2.cursor.rest = r
  errors : l.nextToken.2.errors.toList = l.errors.toList ++ remarks.map l.cursor.errorLeaving

/-- What is read where the lexer stands is what its call takes, unless an error is the answer. -/
theorem takes_of_finishes {l : Lexer} {reading : Reading Token} (h : readToken l.cursor.rest = reading)
    (hfinishes : reading.trace.Finishes l.cursor.policy) :
    l.Takes reading.value reading.rest reading.remarks := by
  subst h
  have hsplits := readToken_splits l.cursor.rest
  cases hp : l.cursor.policy with
  | strict =>
    -- nothing is reported, so nothing is to be recorded
    have hnone := hfinishes hp
    have hstep := l.nextToken_of_reported_eq_nil hnone
    refine ⟨congrArg Prod.fst hstep, ?_, ?_⟩
    · rw [hstep]
      exact hsplits.drop_taken
    · rw [hstep, Reading.remarks, Trace.remarks_of_reported_eq_nil hnone, List.map_nil, List.append_nil]
      rfl
  | lenient =>
    obtain ⟨hanswer, hrest⟩ := Cursor.run_lenient hp hsplits
    exact ⟨hanswer, hrest, Cursor.errors_play_of_splits hp hsplits⟩

/-- A token that reports nothing is taken under either policy. -/
theorem takes_of_taking {l : Lexer} {t : Token} {w r : List Char}
    (h : readToken l.cursor.rest = ⟨t, r, .taking w⟩) : l.Takes t r [] := by
  have htakes := takes_of_finishes h (Trace.finishes_taking _ w)
  rwa [Reading.remarks, Trace.remarks_of_reported_eq_nil (Trace.reported_taking w)] at htakes

/-- A token that reports one error, with `u` still to be taken then. -/
theorem takes_of_report {l : Lexer} {t : Token} {kind : ErrorKind} {w r : List Char} (u : List Char)
    (hp : l.cursor.policy = .lenient)
    (h : readToken l.cursor.rest = ⟨t, r, Trace.taking w ++ .report kind :: Trace.taking u⟩) :
    l.Takes t r [((u ++ r).length, kind)] := by
  have htakes := takes_of_finishes h (hp ▸ Trace.finishes_lenient _)
  rwa [Reading.remarks, Trace.remarks_append,
    Trace.remarks_of_reported_eq_nil (Trace.reported_taking w), List.nil_append, Trace.remarks,
    Trace.taken_taking, Trace.remarks_of_reported_eq_nil (Trace.reported_taking u),
    ← List.length_append] at htakes

end Lexer

end CssLex
