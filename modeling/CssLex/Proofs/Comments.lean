import CssLex.Comment

/-!
# CssLex — closed comments and the text around them

What the reader of comments recognises, said without it. `ClosesComment` is the part of a comment behind
its `/*`: it ends with the first `*/` in it. Every text has such a part at its front or no `*/` at all
(`readCommentBody_cases`).

`StripsTo s t` says that `t` is what is left of `s` without its comments, all of them closed. Where the
pass that takes comments out leaves a `/*` behind, the two signs were kept apart by comments in the text
it came from (`joinsAt_iff`).
-/

namespace CssLex

/-! ## One comment

Behind its `/*` a comment goes to the first `*/`. That there is none before is said about the whole of what
stands before the last sign, since the asterisk that opens the comment cannot close it. -/

/-- Ends with a `*/` and has no other, not even one that shares a sign with it. -/
def ClosesComment (y : List Char) : Prop :=
  ∃ x, y = x ++ ['*', '/'] ∧ ¬ ['*', '/'] <:+: x ++ ['*']

/-- A comment with its `/*` and its `*/`. -/
def IsComment (s : List Char) : Prop :=
  ∃ y, s = '/' :: '*' :: y ∧ ClosesComment y

/-- A comment with its `/*` that has no `*/`. -/
def IsOpenComment (s : List Char) : Prop :=
  ∃ x, s = '/' :: '*' :: x ∧ ¬ ['*', '/'] <:+: x

/-- Behind a comment the text is shorter, which is what inductions over a text of comments go by. -/
theorem IsComment.length_lt_append {x : List Char} (hx : IsComment x) (r : List Char) :
    r.length < (x ++ r).length := by
  obtain ⟨y, rfl, _⟩ := hx
  simp only [List.length_append, List.length_cons]
  omega

/-- A comment is recognised whatever follows it. -/
theorem IsComment.startsComment_append {x : List Char} (hx : IsComment x) (r : List Char) :
    startsComment (x ++ r) = true := by
  obtain ⟨y, rfl, _⟩ := hx
  rfl

theorem closesComment_end : ClosesComment ['*', '/'] :=
  ⟨[], rfl, by decide⟩

/-- A code point more before the end is still no second end, unless it makes one with what follows it. -/
theorem ClosesComment.cons {c : Char} {y : List Char} (hy : ClosesComment y)
    (hc : ¬ ['*', '/'] <+: c :: y) : ClosesComment (c :: y) := by
  obtain ⟨x, rfl, hx⟩ := hy
  refine ⟨c :: x, rfl, ?_⟩
  rw [List.cons_append, List.infix_cons_iff]
  rintro (h | h)
  · exact hc (h.trans ⟨['/'], by simp⟩)
  · exact hx h

theorem readCommentBody_cons {c : Char} {s : List Char} (h : ¬ ['*', '/'] <+: c :: s) :
    readCommentBody (c :: s) = ((readCommentBody s).map (c :: ·)).after [.take c] := by
  rw [readCommentBody]
  rintro t rfl rfl
  exact h ⟨t, rfl⟩

/-- A comment is read up to its end, whatever follows. -/
theorem readCommentBody_append {y : List Char} (hy : ClosesComment y) (r : List Char) :
    readCommentBody (y ++ r) = ⟨y, r, .taking y⟩ := by
  obtain ⟨x, rfl, hx⟩ := hy
  induction x with
  | nil => rfl
  | cons c x ih =>
    rw [List.cons_append, List.infix_cons_iff, not_or] at hx
    have hc : ¬ ['*', '/'] <+: c :: (x ++ ['*', '/'] ++ r) := by
      intro h
      apply hx.1
      -- the `/` that would follow is in `x`, for behind `x` an asterisk comes first
      cases x with
      | nil => simp at h
      | cons d x => simpa using h
    rw [List.cons_append, List.cons_append, readCommentBody_cons hc, ih hx.2]
    rfl

/-- Without a `*/` all of the text is taken and the comment is reported. -/
theorem readCommentBody_unclosed {s : List Char} (h : ¬ ['*', '/'] <:+: s) :
    readCommentBody s = ⟨s, [], Trace.taking s ++ [.report .unclosedComment]⟩ := by
  induction s with
  | nil => rfl
  | cons c s ih =>
    -- no end comes next, nor later
    rw [List.infix_cons_iff, not_or] at h
    rw [readCommentBody_cons h.1, ih h.2]
    rfl

/-- A text without a `*/` becomes the rest of a comment with one at its end. -/
theorem closesComment_append {s : List Char} (h : ¬ ['*', '/'] <:+: s) :
    ClosesComment (s ++ ['*', '/']) := by
  refine ⟨s, rfl, fun hin => ?_⟩
  rcases List.infix_concat_iff.1 hin with hsuffix | hin
  · have hlast := hsuffix.getLast (by simp)
    simp at hlast
  · exact h hin

/-- A text has the rest of a comment at its front, or no `*/` anywhere. -/
theorem readCommentBody_cases (s : List Char) :
    (∃ y r, s = y ++ r ∧ ClosesComment y) ∨ ¬ ['*', '/'] <:+: s := by
  induction s with
  | nil => exact Or.inr (by simp)
  | cons c s ih =>
    by_cases hc : ['*', '/'] <+: c :: s
    -- the end comes next, and the comment has nothing more in it
    · obtain ⟨r, hr⟩ := hc
      exact Or.inl ⟨_, r, hr.symm, closesComment_end⟩
    · rcases ih with ⟨y, r, rfl, hy⟩ | hs
      -- an end comes later, and this code point stands before it
      · left
        refine ⟨c :: y, r, rfl, hy.cons fun h => hc ?_⟩
        exact h.trans ⟨r, rfl⟩
      · right
        rw [List.infix_cons_iff, not_or]
        exact ⟨hc, hs⟩

theorem IsOpenComment.not_isComment {s : List Char} (h : IsOpenComment s) : ¬ IsComment s := by
  obtain ⟨x, rfl, hx⟩ := h
  rintro ⟨y, hsame, z, rfl, _⟩
  apply hx
  rw [(List.cons.inj (List.cons.inj hsame).2).2]
  exact (List.suffix_append z ['*', '/']).isInfix

/-- A comment is read whole, whatever follows. -/
theorem readComment_append {x : List Char} (hx : IsComment x) (r : List Char) :
    readComment (x ++ r) = ⟨x, r, .taking x⟩ := by
  obtain ⟨y, rfl, hy⟩ := hx
  show ((readCommentBody (y ++ r)).map _).after _ = _
  rw [readCommentBody_append hy]
  rfl

/-- A comment without an end takes the rest of the text, and is reported there. -/
theorem readComment_unclosed {s : List Char} (h : IsOpenComment s) :
    readComment s = ⟨s, [], Trace.taking s ++ [.report .unclosedComment]⟩ := by
  obtain ⟨x, rfl, hx⟩ := h
  show ((readCommentBody x).map _).after _ = _
  rw [readCommentBody_unclosed hx]
  rfl

/-! ## The text around comments

A text is taken apart from its front: a closed comment, a comment that is never closed, or a code point that
begins none (`readUncommented_cases`). Every induction over a text and its comments goes by these cases. -/

/-- What begins a comment has both of its signs. -/
theorem startsComment_iff {s : List Char} :
    startsComment s = true ↔ ∃ t, s = '/' :: '*' :: t := by
  unfold startsComment
  split
  · next t => exact iff_of_true rfl ⟨t, rfl⟩
  · next h => exact iff_of_false (by decide) fun ⟨t, ht⟩ => h t ht

theorem comment_cases {s : List Char} (h : startsComment s = true) :
    (∃ x r, s = x ++ r ∧ IsComment x) ∨ IsOpenComment s := by
  obtain ⟨t, rfl⟩ := startsComment_iff.1 h
  rcases readCommentBody_cases t with ⟨y, r, rfl, hy⟩ | hopen
  · exact Or.inl ⟨'/' :: '*' :: y, r, rfl, y, rfl, hy⟩
  · exact Or.inr ⟨t, rfl, hopen⟩

/-- Two code points are enough to tell. -/
theorem startsComment_cons_cons (c d : Char) (s : List Char) :
    startsComment (c :: d :: s) = (c == '/' && d == '*') := by
  unfold startsComment
  split
  · next h =>
    obtain ⟨rfl, rfl, rfl⟩ : c = '/' ∧ d = '*' ∧ s = _ := by simpa using h
    rfl
  · next h =>
    by_cases hc : c = '/' <;> simp_all

theorem startsComment_singleton (c : Char) : startsComment [c] = false := by
  simp [startsComment]

/-- What follows makes no difference to a code point that has another next to it, and otherwise only where
an asterisk follows. -/
theorem startsComment_cons_append {c : Char} {a s : List Char} (h : a ≠ [] ∨ s.head? ≠ some '*') :
    startsComment (c :: (a ++ s)) = startsComment (c :: a) := by
  cases a with
  | nil =>
    have hs : s.head? ≠ some '*' := h.resolve_left fun hne => hne rfl
    cases s with
    | nil => rfl
    | cons d s =>
      have hd : (d == '*') = false := by simpa using hs
      rw [List.nil_append, startsComment_cons_cons, startsComment_singleton, hd, Bool.and_false]
  | cons d a => rw [List.cons_append, startsComment_cons_cons, startsComment_cons_cons]

/-- A front begins a comment only where the whole does. -/
theorem startsComment_cons_of_append {c : Char} {a s : List Char}
    (h : startsComment (c :: (a ++ s)) = false) : startsComment (c :: a) = false := by
  by_cases ha : a = []
  · rw [ha]
    exact startsComment_singleton c
  · rwa [startsComment_cons_append (Or.inl ha)] at h

/-- The first text is the second with closed comments put in. No code point that is kept begins a
comment. -/
inductive StripsTo : List Char → List Char → Prop where
  | nil : StripsTo [] []
  | keep {c : Char} {s t : List Char} (hc : startsComment (c :: s) = false) (hs : StripsTo s t) :
      StripsTo (c :: s) (c :: t)
  | drop {x s t : List Char} (hx : IsComment x) (hs : StripsTo s t) : StripsTo (x ++ s) t

/-- A text of which nothing is left is one comment after another. -/
theorem StripsTo.comments_induction {motive : List Char → Prop} (nil : motive [])
    (comment : ∀ {x s : List Char}, IsComment x → motive s → motive (x ++ s)) {m : List Char}
    (hm : StripsTo m []) : motive m := by
  generalize hnil : ([] : List Char) = t at hm
  induction hm with
  | nil => exact nil
  | keep => contradiction
  | drop hx _ ih => exact comment hx (ih hnil)

/-- Comments may be put before a text. -/
theorem StripsTo.comments_append {m s t : List Char} (hm : StripsTo m []) (hs : StripsTo s t) :
    StripsTo (m ++ s) t := by
  refine hm.comments_induction (motive := fun m => StripsTo (m ++ s) t) hs fun hx ih => ?_
  rw [List.append_assoc]
  exact .drop hx ih

theorem readUncommented_passes {x : List Char} (hx : IsComment x) (s : List Char) :
    readUncommented (x ++ s) = (readUncommented s).after (.taking x) := by
  obtain ⟨y, rfl, hy⟩ := hx
  rw [List.cons_append, List.cons_append, readUncommented, readCommentBody_append hy]
  rfl

/-- A comment that is not closed takes all of the text with it. -/
theorem readUncommented_unclosed {s : List Char} (h : IsOpenComment s) :
    readUncommented s = ⟨[], [], Trace.taking s ++ [.report .unclosedComment]⟩ := by
  obtain ⟨x, rfl, hx⟩ := h
  rw [readUncommented, readCommentBody_unclosed hx, readUncommented, Reading.after, List.append_nil]
  rfl

/-- A code point that begins no comment is kept. -/
theorem readUncommented_keeps {c : Char} {s : List Char} (h : startsComment (c :: s) = false) :
    readUncommented (c :: s) = ((readUncommented s).map (c :: ·)).after [.take c] := by
  rw [readUncommented]
  rintro t rfl rfl
  simp [startsComment] at h

/-- Closed comments leave nothing behind. -/
theorem readUncommented_comment_append {x : List Char} (hx : IsComment x) (s : List Char) :
    (readUncommented (x ++ s)).value = (readUncommented s).value := by
  rw [readUncommented_passes hx]
  rfl

theorem readUncommented_cons {c : Char} {s : List Char} (h : startsComment (c :: s) = false) :
    (readUncommented (c :: s)).value = c :: (readUncommented s).value := by
  rw [readUncommented_keeps h]
  rfl

/-- What is stripped from the front of a text is stripped from the whole, unless the two parts make a
`/*` between them. -/
theorem value_readUncommented_append {a t : List Char} (h : StripsTo a t) {s : List Char}
    (hs : s.head? ≠ some '*') :
    (readUncommented (a ++ s)).value = t ++ (readUncommented s).value := by
  induction h with
  | nil => rfl
  | @keep c a t hc _ ih =>
    -- an opening would need the `*` that `s` does not begin with
    have hcs : startsComment (c :: (a ++ s)) = false := by
      rwa [startsComment_cons_append (Or.inr hs)]
    rw [List.cons_append, readUncommented_cons hcs, ih, List.cons_append]
  | drop hx _ ih => rw [List.append_assoc, readUncommented_comment_append hx, ih]

/-- Comments alone are stripped from the front of every text. -/
theorem value_readUncommented_of_stripsTo_nil {m : List Char} (hm : StripsTo m []) (s : List Char) :
    (readUncommented (m ++ s)).value = (readUncommented s).value := by
  refine hm.comments_induction
    (motive := fun m => (readUncommented (m ++ s)).value = (readUncommented s).value) rfl fun hx ih => ?_
  rw [List.append_assoc, readUncommented_comment_append hx, ih]

/-- A text begins with a comment, or it is one that is not closed, or it begins with a code point that is
kept. -/
theorem readUncommented_cases (s : List Char) :
    s = [] ∨ (∃ x r, s = x ++ r ∧ IsComment x) ∨ IsOpenComment s ∨
      ∃ c r, s = c :: r ∧ startsComment s = false := by
  cases s with
  | nil => exact Or.inl rfl
  | cons c s =>
    by_cases hc : startsComment (c :: s) = true
    · rcases comment_cases hc with hclosed | hopen
      · exact Or.inr (Or.inl hclosed)
      · exact Or.inr (Or.inr (Or.inl hopen))
    · exact Or.inr (Or.inr (Or.inr ⟨c, s, rfl, by simpa using hc⟩))

/-- Where a code point is left, closed comments alone stand before it, and it begins none itself. -/
theorem exists_comments_of_value_eq_cons {s q : List Char} {d : Char}
    (h : (readUncommented s).value = d :: q) :
    ∃ m b, s = m ++ d :: b ∧ StripsTo m [] ∧ startsComment (d :: b) = false ∧
      (readUncommented b).value = q := by
  rcases readUncommented_cases s with hs | ⟨x, r, hs, hx⟩ | hopen | ⟨c, r, hs, hc⟩
  · rw [hs] at h
    simp [readUncommented] at h
  · -- the comment is one more of those that stand before
    rw [hs, readUncommented_comment_append hx] at h
    obtain ⟨m, b, rfl, hm, hd, hb⟩ := exists_comments_of_value_eq_cons h
    exact ⟨x ++ m, b, by rw [hs, List.append_assoc], .drop hx hm, hd, hb⟩
  · rw [readUncommented_unclosed hopen] at h
    contradiction
  · rw [hs] at hc
    rw [hs, readUncommented_cons hc] at h
    obtain ⟨rfl, hr⟩ := List.cons.inj h
    exact ⟨[], r, hs, .nil, hc, hr⟩
termination_by s.length
decreasing_by
  rw [hs]
  exact hx.length_lt_append r

/-- What stands before a point of the stripped text is stripped from what stands before it in the
original. -/
theorem exists_stripsTo_of_value_eq_append {s p q : List Char} {d : Char}
    (h : (readUncommented s).value = p ++ d :: q) :
    ∃ a b, s = a ++ d :: b ∧ StripsTo a p ∧ startsComment (d :: b) = false ∧
      (readUncommented b).value = q := by
  -- each code point of `p` is found behind the comments before it
  induction p generalizing s with
  | nil => exact exists_comments_of_value_eq_cons h
  | cons e p ih =>
    obtain ⟨m, r, rfl, hm, he, hr⟩ := exists_comments_of_value_eq_cons h
    obtain ⟨a, b, rfl, ha, hd, hb⟩ := ih hr
    have hkept : StripsTo (e :: a) (e :: p) := .keep (startsComment_cons_of_append he) ha
    exact ⟨m ++ e :: a, b, by rw [List.append_assoc, List.cons_append], hm.comments_append hkept, hd, hb⟩

/-! ## Openings that only the stripping makes

Two signs that comments have kept apart stand side by side when those are gone. Nothing else makes an opening
in a stripped text: what was an opening before began a comment. -/

/-- At `n` in the stripped text an opening `/*` begins whose two signs comments have kept apart in the
text `s` itself. -/
def JoinsAt (s : List Char) (n : Nat) : Prop :=
  ∃ a p m b, s = a ++ '/' :: (m ++ '*' :: b) ∧ StripsTo a p ∧ p.length = n ∧ StripsTo m [] ∧ m ≠ []

/-- The stripped text has an opening at `n` exactly where the stripping has joined one. -/
theorem joinsAt_iff {s : List Char} {n : Nat} :
    JoinsAt s n ↔ startsComment ((readUncommented s).value.drop n) = true := by
  constructor
  · rintro ⟨a, p, m, b, rfl, ha, rfl, hm, hne⟩
    -- between the two signs a comment begins, so the first of them is kept
    have hslash : startsComment ('/' :: (m ++ '*' :: b)) = false := by
      refine hm.comments_induction (motive := fun m => m ≠ [] → startsComment ('/' :: (m ++ '*' :: b)) = false)
        (fun h => absurd rfl h) (fun hx _ _ => ?_) hne
      obtain ⟨y, rfl, _⟩ := hx
      rfl
    rw [value_readUncommented_append ha (by simp), List.drop_left, readUncommented_cons hslash,
      value_readUncommented_of_stripsTo_nil hm, readUncommented_cons, startsComment_cons_cons]
    · rfl
    · simp [startsComment]
  · intro h
    obtain ⟨t, ht⟩ := startsComment_iff.1 h
    have hvalue := List.take_append_drop n (readUncommented s).value
    rw [ht] at hvalue
    -- the text up to the first sign, and from there to the second
    obtain ⟨a, r, rfl, ha, hr, hrest⟩ := exists_stripsTo_of_value_eq_append hvalue.symm
    obtain ⟨m, b, rfl, hm, -⟩ := exists_comments_of_value_eq_cons hrest
    refine ⟨a, _, m, b, rfl, ha, ?_, hm, ?_⟩
    · rw [List.length_take]
      have := congrArg List.length ht
      rw [List.length_drop, List.length_cons] at this
      omega
    · -- side by side they would have begun a comment
      rintro rfl
      simp [startsComment] at hr

end CssLex
