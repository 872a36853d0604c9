import CssLex.Reading

/-!
# CssLex — comments

A comment runs from `/*` to the first `*/` behind it; it does not nest, and the two signs do not
share their asterisk. A comment that the text cuts off is an error and ends with the text.
-/

namespace CssLex

/-- A comment begins here. -/
def startsComment : List Char → Bool
  | '/' :: '*' :: _ => true
  | _ => false

/-- Reads a comment from behind its `/*`, and gives it from there on. -/
def readCommentBody : List Char → Reading (List Char)
  | [] => ⟨[], [], [.report .unclosedComment]⟩
  | '*' :: '/' :: s => ⟨['*', '/'], s, [.take '*', .take '/']⟩
  | c :: s => ((readCommentBody s).map (c :: ·)).after [.take c]

/-- Reads a comment whole. -/
def readComment (s : List Char) : Reading (List Char) :=
  let body := readCommentBody (s.drop 2)
  (body.map (['/', '*'] ++ ·)).after (.taking ['/', '*'])

/-- Whether it is closed or not, a comment takes the front of what follows its `/*`. -/
theorem readCommentBody_splits (s : List Char) : (readCommentBody s).Splits s := by
  fun_induction readCommentBody s with
  | case1 => rfl
  | case2 => rfl
  | case3 c s _ ih => exact ih.map.after rfl

/-- Where a comment begins, its two signs are there to be taken. -/
theorem readComment_splits {s : List Char} (h : startsComment s = true) :
    (readComment s).Splits s := by
  unfold startsComment at h
  split at h
  · next t => exact (readCommentBody_splits t).map.after rfl
  · contradiction

/-- Reads a text with its comments left out. All other code points are kept as they are, in strings
and urls as well. -/
def readUncommented : List Char → Reading (List Char)
  | [] => ⟨[], [], []⟩
  | '/' :: '*' :: s =>
    let body := readCommentBody s
    (readUncommented body.rest).after (.taking ['/', '*'] ++ body.trace)
  | c :: s => ((readUncommented s).map (c :: ·)).after [.take c]
termination_by s => s.length
decreasing_by
  · have := (readCommentBody_splits s).length_le
    simp only [List.length_cons]
    omega
  · simp

/-- The comments that are left out are taken from the text as well, for every code point is passed. -/
theorem readUncommented_splits (s : List Char) : (readUncommented s).Splits s := by
  fun_induction readUncommented s with
  | case1 => rfl
  -- the comment goes before what is read behind it
  | case2 s _ ih =>
    exact ih.after (congrArg (fun t => '/' :: '*' :: t) (readCommentBody_splits s))
  | case3 c s _ ih => exact ih.map.after rfl

end CssLex
