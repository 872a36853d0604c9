import CssLex.Proofs.Calls
import CssLex.Proofs.Comments
import Mathlib.Control.Monad.Basic

/-!
# CssLex — comments in a text without comments

A lexer that takes the comments out first reads the stripped text, and can meet a comment there all the
same: where comments alone stand between a `/` and a `*`, taking them out makes an opening of the two.
There is no other way (`joinsAt_iff`). `strip_hides_comments_iff` says when such an opening becomes a
token: when a call happens to be made in front of it.
-/

namespace CssLex

/-! ## Where a comment is answered

A comment is answered by a call in front of an opening and by no other. Under the strict policy it must be
closed as well, since an error would be the answer otherwise. -/

/-- The token is a comment exactly where an opening stands. -/
theorem isComment_value_readToken (s : List Char) :
    (readToken s).value.isComment = startsComment s := by
  by_cases hs : s = []
  · rw [hs]
    rfl
  have hreads := reads_readToken hs
  by_cases hcomment : startsComment s = true
  · rw [(Reads.comment hcomment).readToken_eq, hcomment]
    rfl
  · rw [Bool.not_eq_true] at hcomment
    rw [hcomment]
    generalize readToken s = r at hreads
    cases hreads with
    | comment h =>
      rw [hcomment] at h
      contradiction
    | url =>
      rw [Reading.value_after, Reading.value_map]
      rcases urlToken_cases (readUrl _).value with h | h <;> rw [h] <;> rfl
    | string =>
      rw [Reading.value_after, Reading.value_map]
      rcases stringToken_cases (readQuoted _ _).value with h | h <;> rw [h] <;> rfl
    | _ => rfl

/-- A comment that is closed is read without a report, one that is not ends with one. -/
theorem trace_readToken_comment (r : List Char) :
    (['*', '/'] <:+: r → Trace.reported (readToken ('/' :: '*' :: r)).trace = []) ∧
      (¬ ['*', '/'] <:+: r → ∃ w, (readToken ('/' :: '*' :: r)).trace =
        Trace.taking w ++ [.report .unclosedComment]) := by
  have hread : (readToken ('/' :: '*' :: r)).trace =
      Trace.taking ['/', '*'] ++ (readCommentBody r).trace := by
    rw [(Reads.comment (s := '/' :: '*' :: r) rfl).readToken_eq]
    rfl
  rw [hread]
  constructor
  · intro hclosed
    rcases readCommentBody_cases r with ⟨y, u, rfl, hy⟩ | hopen
    · rw [readCommentBody_append hy, Trace.reported_append, Trace.reported_taking,
        Trace.reported_taking]
      rfl
    · exact absurd hclosed hopen
  · intro hopen
    refine ⟨['/', '*'] ++ r, ?_⟩
    rw [readCommentBody_unclosed hopen, Trace.taking_append, List.append_assoc]

namespace Lexer

/-- A comment is answered where one begins, under the strict policy only if it is closed. -/
theorem nextToken_isComment_iff (l : Lexer) :
    (∃ t, l.nextToken.1 = .ok t ∧ t.isComment = true) ↔
      startsComment l.cursor.rest = true ∧
        (l.cursor.policy = .strict → ['*', '/'] <:+: l.cursor.rest.drop 2) := by
  constructor
  · rintro ⟨t, hanswer, hcomment⟩
    rw [nextToken_eq_ok (Prod.ext hanswer rfl), isComment_value_readToken] at hcomment
    refine ⟨hcomment, fun hstrict => ?_⟩
    obtain ⟨r, hrest⟩ := startsComment_iff.1 hcomment
    rw [hrest]
    -- a comment that is not closed ends with a report, and a report is the answer
    refine Classical.byContradiction fun hopen => ?_
    obtain ⟨w, htrace⟩ := (trace_readToken_comment r).2 hopen
    simp only [nextToken, Cursor.run] at hanswer
    have hw : (l.cursor.advance w.length).policy = .strict := hstrict
    rw [hrest, htrace, Cursor.play_taking, Cursor.play_report_strict hw] at hanswer
    contradiction
  · rintro ⟨hcomment, hclosed⟩
    refine ⟨(readToken l.cursor.rest).value, ?_, by rw [isComment_value_readToken, hcomment]⟩
    rcases hpolicy : l.cursor.policy with _ | _
    · obtain ⟨r, hrest⟩ := startsComment_iff.1 hcomment
      have hreport : Trace.reported (readToken l.cursor.rest).trace = [] := by
        have hin := hclosed hpolicy
        rw [hrest] at hin ⊢
        exact (trace_readToken_comment r).1 hin
      rw [nextToken_of_reported_eq_nil hreport]
    · exact (Cursor.run_lenient hpolicy (readToken_splits _)).1

/-- Every answer of a run is the answer of one call after some others. -/
theorem mem_calls {l : Lexer} {ks : List Call} {a : Option Answer} (h : a ∈ (l.calls ks).1) :
    ∃ js k, a = ((l.calls js).2.call k).1 := by
  induction ks generalizing l with
  | nil => simp [calls] at h
  | cons k ks ih =>
    rcases List.mem_cons.1 h with rfl | h
    · exact ⟨[], k, rfl⟩
    · obtain ⟨js, k', hjs⟩ := ih h
      exact ⟨k :: js, k', hjs⟩

/-- No sequence of calls answers a comment exactly if none stops where a comment could be answered. -/
theorem calls_hide_comments_iff (l : Lexer) :
    (∀ ks t, some (.ok t) ∈ (l.calls ks).1 → t.isComment = false) ↔
      ∀ ks, ¬ (startsComment (l.calls ks).2.cursor.rest = true ∧
        (l.cursor.policy = .strict → ['*', '/'] <:+: (l.calls ks).2.cursor.rest.drop 2)) := by
  -- One direction makes one more call where an opening stands; the other looks for the call that answered.
  constructor
  · intro hidden ks hstarts
    rw [← policy_calls l ks] at hstarts
    obtain ⟨t, hanswer, hcomment⟩ := (nextToken_isComment_iff _).2 hstarts
    -- one more call finds the comment
    have hmem : some (.ok t) ∈ (l.calls (ks ++ [.nextToken])).1 := by
      rw [calls_append, ← hanswer]
      simp [calls, call]
    rw [hidden _ t hmem] at hcomment
    contradiction
  · intro hnowhere ks t hmem
    rw [Bool.eq_false_iff]
    intro hcomment
    obtain ⟨js, k, hjs⟩ := mem_calls hmem
    have hanswer := value_of_call_eq hjs.symm
    have hstarts := (nextToken_isComment_iff _).1 ⟨t, hanswer, hcomment⟩
    rw [policy_calls] at hstarts
    exact hnowhere js hstarts

end Lexer

/-! ## Where a cursor stands

All calls on one lexer read one text: what is left of it is known from how much has been passed
(`Cursor.IsIn`), and every step keeps it so. -/

namespace Cursor

/-- What is left is what stands behind the code points that were counted. -/
def IsIn (c : Cursor) (s : List Char) : Prop :=
  c.rest = s.drop c.position

/-- Passing text moves what is left and the count together. -/
theorem IsIn.advance {c : Cursor} {s : List Char} (h : c.IsIn s) (n : Nat) :
    (c.advance n).IsIn s := by
  have hdrop : c.rest.drop n = c.rest.drop (c.rest.take n).length := by
    rw [List.length_take]
    rcases Nat.le_total n c.rest.length with hn | hn
    · rw [Nat.min_eq_left hn]
    · rw [Nat.min_eq_right hn, List.drop_eq_nil_of_le hn, List.drop_length]
  show c.rest.drop n = s.drop (c.position + (c.rest.take n).length)
  rw [hdrop, ← List.drop_drop, ← h]

theorem IsIn.play {c : Cursor} {s : List Char} (h : c.IsIn s) (t : Trace) : (c.play t).2.IsIn s := by
  fun_induction Cursor.play c t with
  | case1 => exact h
  | case2 c x t ih => exact ih (h.advance 1)
  | case3 c kind t d hd ih =>
    apply ih
    rw [eq_of_report_eq_ok hd]
    exact h
  | case4 => exact h

end Cursor

/-! ## Stripped texts

The text that a stripping lexer reads is the stripped one, and it is normal already. That a call is made in
front of an opening there is then a fact about the text before stripping (`joinsAt_iff`). -/

/-- Stripping only leaves out, so a stripped text is as normal as the text was. -/
theorem value_readUncommented_sublist (s : List Char) : (readUncommented s).value.Sublist s := by
  fun_induction readUncommented s with
  | case1 => exact List.Sublist.refl []
  | case2 s body ih =>
    have hrest : body.rest.Sublist s := by
      rw [← readCommentBody_splits s]
      exact List.sublist_append_right _ _
    exact ((ih.trans hrest).cons '*').cons '/'
  | case3 c s _ ih => exact ih.cons_cons c

/-- Where the comments are taken out first, what is read is the stripped text, from its beginning. -/
theorem cursor_of_ofText_strip {text : String} {policy : ErrorPolicy} {l : Lexer}
    (h : Lexer.ofText text policy .strip = .ok l) :
    l.cursor.policy = policy ∧
      l.cursor.IsIn (readUncommented (normalize text.toList)).value := by
  simp only [Lexer.ofText] at h
  split at h
  · contradiction
  · next stripped raw hrun =>
    have hvalue : stripped = (readUncommented (normalize text.toList)).value :=
      Cursor.eq_value_of_run_eq_ok (congrArg Prod.fst hrun)
    have hnormal : IsNormal stripped := by
      rw [hvalue]
      exact (isNormal_normalize _).of_sublist (value_readUncommented_sublist _)
    rw [← Except.ok.inj h, ← hvalue]
    refine ⟨rfl, ?_⟩
    show normalize (String.ofList stripped).toList = stripped
    rw [String.toList_ofList, normalize_eq_self hnormal]

/-- **When comments surface although they are stripped.** No sequence of calls on the lexer answers a
comment, unless one of them is made where the stripping has joined an opening; under the strict policy
that opening must have a `*/` behind it. -/
theorem strip_hides_comments_iff (text : String) (policy : ErrorPolicy) (l : Lexer)
    (h : Lexer.ofText text policy .strip = .ok l) :
    (∀ ks t, some (.ok t) ∈ (l.calls ks).1 → t.isComment = false) ↔
      ∀ ks, ¬ (JoinsAt (normalize text.toList) (l.calls ks).2.cursor.position ∧
        (policy = .strict → ['*', '/'] <:+: (l.calls ks).2.cursor.rest.drop 2)) := by
  obtain ⟨hpolicy, hin⟩ := cursor_of_ofText_strip h
  rw [Lexer.calls_hide_comments_iff, hpolicy]
  refine forall_congr' fun ks => ?_
  have hrest : (l.calls ks).2.cursor.rest = _ :=
    Lexer.calls_induction (P := fun c => c.IsIn (readUncommented (normalize text.toList)).value)
      (fun c t hc => hc.play t) hin ks
  rw [joinsAt_iff, ← hrest]

/-- The empty comment stands between the signs of another opening, which a call finds at once. -/
theorem strip_hides_comments_iff_of_joined :
    ∃ l, Lexer.ofText "//**/*x*/" .strict .strip = .ok l ∧
      ¬ ∀ ks t, some (.ok t) ∈ (l.calls ks).1 → t.isComment = false := by
  have hl : Lexer.ofText "//**/*x*/" .strict .strip =
      .ok (.ofCursor (.ofText "/*x*/" .strict)) := by decide +kernel
  refine ⟨_, hl, fun hidden => ?_⟩
  have hnowhere := (strip_hides_comments_iff _ _ _ hl).1 hidden []
  refine hnowhere ⟨?_, fun _ => ?_⟩
  · rw [joinsAt_iff]
    decide +kernel
  · decide

/-- Comments are not always hidden by taking them out. -/
theorem strip_answers_a_comment :
    ¬ ∀ (text : String) (policy : ErrorPolicy) (l : Lexer),
      Lexer.ofText text policy .strip = .ok l →
        ∀ ks t, some (.ok t) ∈ (l.calls ks).1 → t.isComment = false := by
  intro h
  have hl : Lexer.ofText "//**/*x*/" .lenient .strip =
      .ok (.ofCursor (.ofText "/*x*/" .lenient)) := by decide +kernel
  have hanswer : ((Lexer.ofCursor (.ofText "/*x*/" .lenient)).calls [.nextToken]).1 =
      [some (.ok (.comment "/*x*/"))] := by decide +kernel
  have hcomment := h _ _ _ hl [.nextToken] (.comment "/*x*/") (by rw [hanswer]; simp)
  contradiction

end CssLex
