import CssLex.Proofs.Passing
import CssLex.Proofs.Stripping

/-!
# CssLex — what the stripping and the tokens take for a comment

The pass that takes comments out looks for `/*` alone; the lexer knows strings, urls and escapes. Both
decide of every code point of a text whether it is kept: `keptByStripping` and `Lexer.keptByTokens`.
`stripComments_agrees_iff` compares the two: they are the same exactly if no `/*` begins inside a token
other than a comment.

The texts that are left can agree by accident where the decisions differ, so it is the decisions that
the equivalence is about.
-/

namespace CssLex

/-! ## Decisions

A decision is a mark for each code point of the text, so that two passes can be compared place by place. The
stripping marks what it leaves, block by block as it reads. -/

/-- The code points of a text that are marked. -/
def keep (marks : List Bool) (s : List Char) : List Char :=
  (s.zip marks).filterMap fun p => if p.2 then some p.1 else none

@[simp] theorem keep_nil (marks : List Bool) : keep marks [] = [] := rfl

theorem keep_cons (b : Bool) (marks : List Bool) (c : Char) (s : List Char) :
    keep (b :: marks) (c :: s) = (if b then [c] else []) ++ keep marks s := by
  cases b <;> rfl

/-- A part with one mark is kept or left out as a whole. -/
theorem keep_replicate_append (b : Bool) (w : List Char) (marks : List Bool) (s : List Char) :
    keep (List.replicate w.length b ++ marks) (w ++ s) =
      (if b then w else []) ++ keep marks s := by
  induction w with
  | nil => cases b <;> rfl
  | cons c w ih =>
    rw [List.length_cons, List.replicate_succ, List.cons_append, List.cons_append, keep_cons, ih]
    cases b <;> rfl

/-- Of each code point of a text, whether it is left when the comments are taken out. -/
def keptByStripping : List Char → List Bool
  | [] => []
  | '/' :: '*' :: s =>
    let body := readCommentBody s
    List.replicate (2 + (Trace.taken body.trace).length) false ++ keptByStripping body.rest
  | _ :: s => true :: keptByStripping s
termination_by s => s.length
decreasing_by
  · have := (readCommentBody_splits s).length_le
    simp only [List.length_cons]
    omega
  · simp

/-- What is marked is what is left. -/
theorem keep_keptByStripping (s : List Char) :
    keep (keptByStripping s) s = (readUncommented s).value := by
  fun_induction readUncommented s with
  | case1 => rfl
  -- a comment is one block of marks, its two signs and what its reader takes
  | case2 s body ih =>
    have hsplits : ['/', '*'] ++ Trace.taken body.trace ++ body.rest = '/' :: '*' :: s :=
      congrArg (['/', '*'] ++ ·) (readCommentBody_splits s)
    have hkeep := keep_replicate_append false (['/', '*'] ++ Trace.taken body.trace)
      (keptByStripping body.rest) body.rest
    rw [hsplits, List.length_append] at hkeep
    rw [keptByStripping]
    exact hkeep.trans ih
  | case3 c s hc ih =>
    rw [keptByStripping, keep_cons, ih]
    · rfl
    · exact hc

theorem keptByStripping_cons {c : Char} {s : List Char} (h : startsComment (c :: s) = false) :
    keptByStripping (c :: s) = true :: keptByStripping s := by
  rw [keptByStripping]
  rintro t rfl rfl
  simp [startsComment] at h

/-- What the reader of a comment takes is left out. -/
theorem keptByStripping_comment {s : List Char} (h : startsComment s = true) :
    keptByStripping s =
      List.replicate (Trace.taken (readToken s).trace).length false ++
        keptByStripping (readToken s).rest := by
  obtain ⟨t, rfl⟩ := startsComment_iff.1 h
  rw [(Reads.comment h).readToken_eq, keptByStripping]
  congr 1
  simp [readComment]
  omega

/-- A part in which no opening begins is kept. -/
theorem keptByStripping_append {w r : List Char}
    (h : ∀ i < w.length, startsComment ((w ++ r).drop i) = false) :
    keptByStripping (w ++ r) = List.replicate w.length true ++ keptByStripping r := by
  induction w with
  | nil => rfl
  | cons c w ih =>
    have hlater : ∀ i < w.length, startsComment ((w ++ r).drop i) = false :=
      fun i hi => h (i + 1) (Nat.succ_lt_succ hi)
    have hc : startsComment (c :: (w ++ r)) = false := h 0 (Nat.zero_lt_succ _)
    rw [List.cons_append, keptByStripping_cons hc, ih hlater]
    rfl

/-- The text that is left begins with such a part. -/
theorem value_readUncommented_kept {w r : List Char}
    (h : ∀ i < w.length, startsComment ((w ++ r).drop i) = false) :
    (readUncommented (w ++ r)).value = w ++ (readUncommented r).value := by
  rw [← keep_keptByStripping, keptByStripping_append h, keep_replicate_append, keep_keptByStripping]
  rfl

/-- In a part that is kept no opening begins. -/
theorem not_startsComment_of_kept {w r : List Char} {marks : List Bool}
    (h : keptByStripping (w ++ r) = List.replicate w.length true ++ marks) {i : Nat}
    (hi : i < w.length) : startsComment ((w ++ r).drop i) = false := by
  induction w generalizing i with
  | nil => contradiction
  | cons c w ih =>
    have hc : startsComment (c :: (w ++ r)) = false := by
      rw [Bool.eq_false_iff]
      intro hstarts
      obtain ⟨t, ht⟩ := startsComment_iff.1 hstarts
      -- its first mark would be `false`
      rw [List.cons_append, ht, keptByStripping, Nat.add_comm] at h
      simp [List.replicate_succ] at h
    rw [List.cons_append, keptByStripping_cons hc] at h
    cases i with
    | zero => exact hc
    | succ i => exact ih (List.cons.inj h).2 (Nat.lt_of_succ_lt_succ hi)

/-! ## The tokens' decisions

The lexer cuts the text into what its calls pass (`Lexer.pieces`), and keeps a piece unless a comment is the
answer. Where a token other than a comment has a `/*` in it, the stripping decides otherwise. -/

/-- The answer is a comment. -/
def Answer.isComment : Answer → Bool
  | .ok t => t.isComment
  | .error _ => false

namespace Lexer

/-- Of each code point of a text, whether it belongs to a token other than a comment. -/
def keptByTokens (l : Lexer) : List Bool :=
  l.pieces.flatMap fun piece => List.replicate piece.2.length (!Answer.isComment piece.1)

/-- What the tokens other than comments take, one after another. -/
def takenUncommented (l : Lexer) : List Char :=
  (l.pieces.filter fun piece => !Answer.isComment piece.1).flatMap (·.2)

/-- An opening begins inside a token other than a comment. -/
def HidesOpening (l : Lexer) : Prop :=
  ∃ i, startsComment (l.cursor.rest.drop i) = true ∧ l.keptByTokens[i]? = some true

/-- What is marked is what those tokens take. -/
theorem keep_keptByTokens (l : Lexer) : keep l.keptByTokens l.cursor.rest = l.takenUncommented := by
  have hpieces : ∀ pieces : List (Answer × List Char),
      keep (pieces.flatMap fun piece => List.replicate piece.2.length (!Answer.isComment piece.1))
        (pieces.flatMap (·.2)) =
      (pieces.filter fun piece => !Answer.isComment piece.1).flatMap (·.2) := by
    intro pieces
    induction pieces with
    | nil => rfl
    | cons piece pieces ih =>
      rw [List.flatMap_cons, List.flatMap_cons, keep_replicate_append, ih, List.filter_cons]
      split <;> simp_all
  rw [keptByTokens, ← flatMap_pieces, hpieces, takenUncommented]

/-- The tokens that are collected cut the text into slices, one for each of them, and what is taken is the
slices of those that are no comments. -/
theorem takenUncommented_eq_collect (l : Lexer) (hp : l.cursor.policy = .lenient)
    (hf : l.finished = false) :
    ∃ slices : List (List Char), slices.length = l.collect.1.length ∧ slices.flatten = l.cursor.rest ∧
      l.takenUncommented =
        ((l.collect.1.zip slices).filter fun piece => !Answer.isComment piece.1).flatMap (·.2) := by
  have hcollect := l.collect_eq_map_pieces hp hf
  refine ⟨l.pieces.map (·.2), ?_, ?_, ?_⟩
  · rw [hcollect, List.length_map, List.length_map]
  · rw [← List.flatMap_def]
    exact l.flatMap_pieces
  · -- the answers and their slices, side by side, are the pieces
    have hzip : l.collect.1.zip (l.pieces.map (·.2)) = l.pieces := by
      rw [hcollect, List.zip_map', List.map_id'']
      exact fun _ => rfl
    rw [hzip, takenUncommented]

/-- The next call decides for the code points that it passes, all of them alike, and the later calls for the
rest. -/
theorem keptByTokens_of_rest_ne_nil {l : Lexer} (hp : l.cursor.policy = .lenient)
    (h : l.cursor.rest ≠ []) :
    l.keptByTokens = List.replicate l.passed.length (!startsComment l.cursor.rest) ++
      l.nextToken.2.keptByTokens := by
  have hanswer : l.nextToken.1 = .ok (readToken l.cursor.rest).value :=
    (Cursor.run_lenient hp (readToken_splits l.cursor.rest)).1
  rw [keptByTokens, pieces_of_rest_ne_nil h, List.flatMap_cons, hanswer, Answer.isComment,
    isComment_value_readToken]
  rfl

/-- An opening that is hidden begins inside the next token, or inside one behind it. -/
theorem hidesOpening_iff {l : Lexer} (hp : l.cursor.policy = .lenient) (h : l.cursor.rest ≠ []) :
    l.HidesOpening ↔
      (startsComment l.cursor.rest = false ∧
        ∃ i < l.passed.length, startsComment (l.cursor.rest.drop i) = true) ∨
      l.nextToken.2.HidesOpening := by
  -- a place behind the next token, counted from its end and from its beginning
  have hlater : ∀ i, startsComment (l.nextToken.2.cursor.rest.drop i) =
      startsComment (l.cursor.rest.drop (l.passed.length + i)) := by
    intro i
    rw [rest_nextToken, List.drop_drop]
  rw [HidesOpening, keptByTokens_of_rest_ne_nil hp h]
  constructor
  · rintro ⟨i, hi, hmark⟩
    by_cases hlt : i < l.passed.length
    -- all of the next token is marked alike, as a comment or as none
    · rw [List.getElem?_append_left (by simpa using hlt)] at hmark
      refine Or.inl ⟨?_, i, hlt, hi⟩
      simpa [hlt] using hmark
    · rw [List.getElem?_append_right (by simpa using hlt), List.length_replicate] at hmark
      refine Or.inr ⟨i - l.passed.length, ?_, hmark⟩
      rw [hlater, ← hi]
      congr 2
      omega
  · rintro (⟨hcomment, i, hlt, hi⟩ | ⟨i, hi, hmark⟩)
    · refine ⟨i, hi, ?_⟩
      rw [List.getElem?_append_left (by simpa using hlt), hcomment]
      exact List.getElem?_replicate_of_lt hlt
    · refine ⟨l.passed.length + i, by rw [← hlater, hi], ?_⟩
      rw [List.getElem?_append_right (by simp), List.length_replicate, Nat.add_sub_cancel_left,
        hmark]

/-- The two decisions are the same exactly if the tokens hide no opening. -/
theorem keptByStripping_eq_iff (l : Lexer) (hp : l.cursor.policy = .lenient) :
    keptByStripping l.cursor.rest = l.keptByTokens ↔ ¬ l.HidesOpening := by
  by_cases hs : l.cursor.rest = []
  · have hmarks : l.keptByTokens = [] := by
      rw [keptByTokens, pieces_of_rest_eq_nil hs, List.flatMap_nil]
    rw [HidesOpening, hs, hmarks]
    exact iff_of_true (by rw [keptByStripping]) (by simp)
  · have hlater : l.nextToken.2.cursor.policy = .lenient := (Cursor.policy_play _ _).trans hp
    have ih := keptByStripping_eq_iff l.nextToken.2 hlater
    have hsplits := l.passed_append_rest
    rw [hidesOpening_iff hp hs, keptByTokens_of_rest_ne_nil hp hs, not_or, ← ih]
    cases hcomment : startsComment l.cursor.rest with
    -- the next token is a comment: both leave out what it takes, and agree on the rest or not
    | true =>
      have hok : l.nextToken.1 = .ok (readToken l.cursor.rest).value :=
        (Cursor.run_lenient hp (readToken_splits l.cursor.rest)).1
      obtain ⟨_, hpassed, hrest⟩ := passed_of_ok hok
      rw [keptByStripping_comment hcomment, ← hpassed, ← hrest]
      simp
    -- another token: the stripping keeps all of it exactly if no opening begins in it
    | false =>
      rw [Bool.not_false]
      constructor
      · intro heq
        rw [← hsplits] at heq
        have hnone : ∀ i < l.passed.length, startsComment (l.cursor.rest.drop i) = false := by
          intro i hi
          rw [← hsplits]
          exact not_startsComment_of_kept heq hi
        rw [keptByStripping_append (by rwa [hsplits]), List.append_cancel_left_eq] at heq
        refine ⟨?_, heq⟩
        rintro ⟨-, i, hi, hstarts⟩
        rw [hnone i hi] at hstarts
        contradiction
      · rintro ⟨hnone, heq⟩
        rw [← heq, ← hsplits, keptByStripping_append]
        intro i hi
        rw [hsplits, Bool.eq_false_iff]
        exact fun hstarts => hnone ⟨rfl, i, hi, hstarts⟩
termination_by l.cursor.rest.length
decreasing_by exact nextToken_shortens hs

end Lexer

/-- **When the stripping takes out exactly the comments.** Both passes decide of every code point
whether it is kept. They decide alike, and then leave the same text, exactly if no opening begins inside
a token other than a comment. -/
theorem stripComments_agrees_iff (text : String) :
    let l := Lexer.ofCursor (.ofText text .lenient)
    (stripComments text .lenient = .ok (.ofList (keep (keptByStripping l.cursor.rest) l.cursor.rest))) ∧
      l.takenUncommented = keep l.keptByTokens l.cursor.rest ∧
      (keptByStripping l.cursor.rest = l.keptByTokens ↔ ¬ l.HidesOpening) ∧
      (¬ l.HidesOpening → stripComments text .lenient = .ok (.ofList l.takenUncommented)) := by
  intro l
  have hstrip : stripComments text .lenient =
      .ok (.ofList (keep (keptByStripping l.cursor.rest) l.cursor.rest)) := by
    have hrun := Cursor.run_lenient (c := l.cursor) rfl (readUncommented_splits l.cursor.rest)
    rw [keep_keptByStripping, stripComments]
    exact congrArg (Except.map String.ofList) hrun.1
  refine ⟨hstrip, l.keep_keptByTokens.symm, l.keptByStripping_eq_iff rfl, fun hnone => ?_⟩
  rw [hstrip, (l.keptByStripping_eq_iff rfl).2 hnone, l.keep_keptByTokens]

/-- In a string the signs of a comment are none, and are taken out all the same. -/
theorem stripComments_loses_text_of_string :
    ¬ ∀ text : String, stripComments text .lenient =
      .ok (.ofList (Lexer.ofCursor (.ofText text .lenient)).takenUncommented) := by
  intro h
  have hstripped : stripComments "\"/*\"" .lenient = .ok "\"" := by decide +kernel
  have htaken : (Lexer.ofCursor (.ofText "\"/*\"" .lenient)).takenUncommented =
      ['"', '/', '*', '"'] := by decide +kernel
  have heq := h "\"/*\""
  rw [hstripped, htaken] at heq
  revert heq
  decide

/-- The same text can be left although an opening is hidden. -/
example : stripComments "\\/*/*///*/*/**" .lenient =
    .ok (.ofList (Lexer.ofCursor (.ofText "\\/*/*///*/*/**" .lenient)).takenUncommented) := by
  decide +kernel

end CssLex
