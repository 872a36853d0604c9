import CssLex.Proofs.Comments
import CssLex.Proofs.Passing

/-!
# CssLex — readers that see a few code points

Two texts begin alike if their first code points are the same (`SameUpTo`). A reader is said to see `k` code
points behind a text (`Sees`) if it does alike on every text that is the same up to `k` code points behind
what it follows: the same is followed of both readings and, unless an error is the answer, the same value
is read (`Alike`).

Readers that are put together see as far as their parts do: what is taken first is not counted
(`Sees.append`), and where one reading stands behind another the sum of what both take is what the whole
takes (`Sees.bind`).
-/

namespace CssLex

/-! ## Texts that begin alike

The tests that decide which token begins look at two or three code points, so they come out the same for texts
that are the same so far. A run of a class is the same if the texts are up to the code point that ends it. -/

/-- The first `n` code points are the same. A shorter text is the same as a whole. -/
def SameUpTo (n : Nat) (s t : List Char) : Prop :=
  s.take n = t.take n

namespace SameUpTo

variable {m n : Nat} {c : Char} {s t : List Char}

theorem refl (n : Nat) (s : List Char) : SameUpTo n s s := rfl

/-- What is the same far ahead is the same less far ahead. -/
theorem mono (h : SameUpTo n s t) (hm : m ≤ n) : SameUpTo m s t := by
  have htake := congrArg (List.take m) h
  rwa [List.take_take, List.take_take, Nat.min_eq_left hm] at htake

/-- Where more than `n` code points are the same, so are the first `n`. -/
theorem front (h : SameUpTo (m + n) s t) : SameUpTo n s t :=
  h.mono (Nat.le_add_left n m)

/-- At the end of a text the other one ends as well: nothing follows in one that does not follow in the other.
-/
theorem eq_nil (h : SameUpTo (n + 1) [] t) : t = [] := by
  cases t with
  | nil => rfl
  | cons d t => simp [SameUpTo] at h

/-- Texts that begin alike begin with the same code point, and go on alike for one less. -/
theorem exists_cons (h : SameUpTo (n + 1) (c :: s) t) : ∃ u, t = c :: u ∧ SameUpTo n s u := by
  cases t with
  | nil => simp [SameUpTo] at h
  | cons d u =>
    rw [SameUpTo, List.take_succ_cons, List.take_succ_cons] at h
    obtain ⟨rfl, hu⟩ := List.cons.inj h
    exact ⟨u, rfl, hu⟩

/-- The same code point before both makes them the same for one more. -/
theorem cons (h : SameUpTo n s t) : SameUpTo (n + 1) (c :: s) (c :: t) := by
  rw [SameUpTo, List.take_succ_cons, List.take_succ_cons, h]

theorem exists_append {w : List Char} (h : SameUpTo (w.length + n) (w ++ s) t) :
    ∃ u, t = w ++ u ∧ SameUpTo n s u := by
  induction w generalizing t with
  | nil => exact ⟨t, rfl, by rwa [List.length_nil, Nat.zero_add] at h⟩
  | cons c w ih =>
    rw [List.length_cons, Nat.add_right_comm] at h
    obtain ⟨u, rfl, hu⟩ := h.exists_cons
    obtain ⟨v, rfl, hv⟩ := ih hu
    exact ⟨v, rfl, hv⟩

/-- What stands behind the same beginning. -/
theorem behind {w u v : List Char} (h : SameUpTo (w.length + n) s t) (hs : w ++ u = s)
    (ht : w ++ v = t) : SameUpTo n u v := by
  subst hs ht
  obtain ⟨u', hu, hsame⟩ := h.exists_append
  rwa [List.append_cancel_left hu]

/-- One code point ahead is enough to know what comes next. -/
theorem head?_eq (h : SameUpTo (n + 1) s t) : t.head? = s.head? := by
  cases s with
  | nil => rw [h.eq_nil]
  | cons c s =>
    obtain ⟨u, rfl, _⟩ := h.exists_cons
    rfl

/-- A front of so many code points is one of both texts or of none. -/
theorem isPrefix_iff {w : List Char} (h : SameUpTo w.length s t) : w <+: t ↔ w <+: s := by
  rw [List.prefix_iff_eq_take, List.prefix_iff_eq_take, h]

theorem startsComment_eq (h : SameUpTo 2 s t) : startsComment t = startsComment s := by
  have hopens := isPrefix_iff (w := ['/', '*']) h
  rw [Bool.eq_iff_iff, startsComment_iff, startsComment_iff]
  constructor
  · rintro ⟨u, rfl⟩
    obtain ⟨v, hv⟩ := hopens.1 ⟨u, rfl⟩
    exact ⟨v, hv.symm⟩
  · rintro ⟨u, rfl⟩
    obtain ⟨v, hv⟩ := hopens.2 ⟨u, rfl⟩
    exact ⟨v, hv.symm⟩

theorem startsEscape_eq (h : SameUpTo 2 s t) : startsEscape t = startsEscape s := by
  rw [← startsEscape_take s, ← startsEscape_take t, h]

/-- Three code points show whether an identifier begins: two hyphens need the third. -/
theorem startsIdent_eq (h : SameUpTo 3 s t) : startsIdent t = startsIdent s := by
  rw [← startsIdent_take s, ← startsIdent_take t, h]

/-- Three code points show whether a number begins: a sign and a point need the third. -/
theorem startsNumber_eq (h : SameUpTo 3 s t) : startsNumber t = startsNumber s := by
  rw [← startsNumber_take s, ← startsNumber_take t, h]

/-- Two code points show whether a name begins, an escape being the longer of its beginnings. -/
theorem startsName_eq (h : SameUpTo 2 s t) : startsName t = startsName s := by
  rw [startsName, startsName, h.startsEscape_eq, h.head?_eq]

/-- A run of a class, of at most `m` code points, is the same if the texts are up to the next one. -/
theorem takeWhile_take_eq {p : Char → Bool} (h : SameUpTo (((s.take m).takeWhile p).length + 1) s t) :
    (t.take m).takeWhile p = (s.take m).takeWhile p := by
  induction s generalizing m t with
  | nil => rw [h.eq_nil]
  | cons c s ih =>
    obtain ⟨u, rfl, hu⟩ := h.exists_cons
    cases m with
    | zero => rfl
    | succ m =>
      rw [List.take_succ_cons, List.take_succ_cons, List.takeWhile_cons, List.takeWhile_cons]
      cases hc : p c with
      | false => rfl
      | true =>
        rw [List.take_succ_cons, List.takeWhile_cons, hc] at hu
        simp only [if_true]
        rw [ih hu]

/-- A run without such a bound. -/
theorem takeWhile_eq {p : Char → Bool} (h : SameUpTo ((s.takeWhile p).length + 1) s t) :
    t.takeWhile p = s.takeWhile p := by
  induction s generalizing t with
  | nil => rw [h.eq_nil]
  | cons c s ih =>
    obtain ⟨u, rfl, hu⟩ := h.exists_cons
    rw [List.takeWhile_cons, List.takeWhile_cons]
    cases hc : p c with
    | false => rfl
    | true =>
      rw [List.takeWhile_cons, hc] at hu
      simp only [if_true]
      rw [ih hu]

end SameUpTo

/-! ## Readings that are alike

Under the strict policy a reading counts only as far as it is followed. So two readings are compared on that
part, and their values only where it is all of the trace. -/

namespace Trace

/-- To follow a trace does not change whether it finishes. -/
theorem finishes_followed_iff {p : ErrorPolicy} {t : Trace} :
    Finishes p (followed p t) ↔ Finishes p t := by
  cases p with
  | lenient => exact iff_of_true (finishes_lenient _) (finishes_lenient _)
  | strict =>
    induction t with
    | nil => rfl
    | cons e t ih =>
      cases e with
      | take c => exact ih
      | report kind => exact iff_of_false (not_finishes_report kind _) (not_finishes_report kind t)

/-- Of traces that are followed alike, either both finish, and are the same, or none does. -/
theorem eq_of_followed_eq {p : ErrorPolicy} {t u : Trace} (h : u.followed p = t.followed p)
    (ht : t.Finishes p) : u = t := by
  have hu : u.Finishes p := by rwa [← finishes_followed_iff, h, finishes_followed_iff]
  rwa [followed_of_finishes ht, followed_of_finishes hu] at h

end Trace

variable {α β : Type} {p : ErrorPolicy}

/-- How many code points are taken on the part of the trace that is followed. -/
def Reading.reach (p : ErrorPolicy) (r : Reading α) : Nat :=
  (Trace.taken (r.trace.followed p)).length

/-- The same is followed of both readings and, unless an error is the answer, the values are the same. -/
structure Alike (p : ErrorPolicy) (r r' : Reading α) : Prop where
  followed : r'.trace.followed p = r.trace.followed p
  value : r.trace.Finishes p → r'.value = r.value

namespace Reading

/-- A reading without reports is followed over all that it takes. -/
theorem reach_of_taking {r : Reading α} {w : List Char} (h : r.trace = .taking w) :
    r.reach p = w.length := by
  rw [reach, h, Trace.followed_of_finishes (Trace.finishes_taking p w), Trace.taken_taking]

/-- What is followed before a reading is added to its reach. -/
theorem reach_after {t : Trace} (h : t.Finishes p) (r : Reading α) :
    (r.after t).reach p = (Trace.taken t).length + r.reach p := by
  rw [reach, trace_after, Trace.followed_append_of_finishes h, Trace.taken_append, List.length_append]
  rfl

/-- Behind a report that is the answer nothing more is reached. -/
theorem reach_after_of_not_finishes {t : Trace} (h : ¬ t.Finishes p) (r : Reading α) :
    (r.after t).reach p = (Trace.taken (t.followed p)).length := by
  rw [reach, trace_after, Trace.followed_append_of_not_finishes h]

end Reading

namespace Alike

theorem refl (r : Reading α) : Alike p r r :=
  ⟨rfl, fun _ => rfl⟩

/-- The same is made of the same values. -/
theorem map {r r' : Reading α} (h : Alike p r r') (f : α → β) : Alike p (r.map f) (r'.map f) :=
  ⟨h.followed, fun hf => congrArg f (h.value hf)⟩

/-- The same trace before both keeps them alike: either it is followed to its end and they come behind it, or
neither is reached. -/
theorem after {r r' : Reading α} (h : Alike p r r') (t : Trace) : Alike p (r.after t) (r'.after t) := by
  refine ⟨?_, fun hf => h.value (Trace.finishes_append_iff.1 hf).2⟩
  -- behind a report that is the answer nothing of them is followed
  by_cases ht : t.Finishes p
  · rw [Reading.trace_after, Reading.trace_after, Trace.followed_append_of_finishes ht,
      Trace.followed_append_of_finishes ht, h.followed]
  · rw [Reading.trace_after, Reading.trace_after, Trace.followed_append_of_not_finishes ht,
      Trace.followed_append_of_not_finishes ht]

end Alike

/-! ## Readers that see a few code points

One law for each way in which readers are put together. With them a reader is followed by its own recursion,
and only what it looks ahead for is counted. -/

/-- What is read of `s` depends on no more than `k` code points behind what is followed. -/
def Sees (p : ErrorPolicy) (k : Nat) (read : List Char → Reading α) (s : List Char) : Prop :=
  ∀ t, SameUpTo ((read s).reach p + k) s t → Alike p (read s) (read t)

namespace Sees

variable {k m : Nat} {s : List Char} {read : List Char → Reading α}

/-- To see farther is to see more than is needed. -/
theorem mono (h : Sees p m read s) (hm : m ≤ k) : Sees p k read s :=
  fun t ht => h t (ht.mono (Nat.add_le_add_left hm _))

/-- The value has no part in how far is seen. -/
theorem map (h : Sees p k read s) (f : α → β) : Sees p k (fun s => (read s).map f) s :=
  fun t ht => (h t ht).map f

theorem nil (hk : 0 < k) (read : List Char → Reading α) : Sees p k read [] := by
  intro t ht
  obtain ⟨n, rfl⟩ : ∃ n, k = n + 1 := ⟨k - 1, by omega⟩
  rw [← Nat.add_assoc] at ht
  rw [ht.eq_nil]
  exact .refl _

/-- Texts that are the same as far as `f` sees are read by `f`. -/
theorem congr {f : List Char → Reading α} (hf : Sees p k f s)
    (hread : ∀ t, SameUpTo ((f s).reach p + k) s t → read t = f t) : Sees p k read s := by
  intro t ht
  have hs := hread s (.refl _ s)
  rw [hs] at ht
  rw [hs, hread t ht]
  exact hf t ht

/-- A text that is taken first is not counted. -/
theorem append {f : List Char → Reading α} {w : List Char} (hf : Sees p k f s)
    (hread : ∀ t, SameUpTo ((f s).reach p + k) s t → read (w ++ t) = (f t).after (.taking w)) :
    Sees p k read (w ++ s) := by
  intro t ht
  have hs := hread s (.refl _ s)
  rw [hs, Reading.reach_after (Trace.finishes_taking p w), Trace.taken_taking, Nat.add_assoc] at ht
  obtain ⟨u, rfl, hu⟩ := ht.exists_append
  rw [hs, hread u hu]
  exact (hf u hu).after (.taking w)

/-- One code point that is taken first. -/
theorem cons {f : List Char → Reading α} {c : Char} (hf : Sees p k f s)
    (hread : ∀ t, SameUpTo ((f s).reach p + k) s t → read (c :: t) = (f t).after [.take c]) :
    Sees p k read (c :: s) :=
  append (w := [c]) hf hread

/-- An error that is reported first is not counted either. -/
theorem report (hf : Sees p k read s) (kind : ErrorKind) :
    Sees p k (fun s => (read s).after [.report kind]) s := by
  intro t ht
  by_cases hfin : Trace.Finishes p [.report kind]
  · refine (hf t ?_).after _
    rwa [Reading.reach_after hfin, Trace.taken_report, Trace.taken_nil, List.length_nil,
      Nat.zero_add] at ht
  · refine ⟨?_, fun h => absurd (Trace.finishes_append_iff.1 h).1 hfin⟩
    rw [Reading.trace_after, Reading.trace_after, Trace.followed_append_of_not_finishes hfin,
      Trace.followed_append_of_not_finishes hfin]

/-- A reader that takes and reports nothing sees nothing. -/
theorem idle (value : α) (s : List Char) : Sees p k (fun s => ⟨value, s, []⟩) s :=
  fun _ _ => ⟨rfl, fun _ => rfl⟩

/-- One reading behind another: both see as far. -/
theorem bind {x : List Char → Reading α} {g : α → List Char → Reading β}
    (hsplits : ∀ s, (x s).Splits s) (hx : Sees p k x s)
    (hg : (x s).trace.Finishes p → Sees p k (g (x s).value) (x s).rest) :
    Sees p k (fun s => (g (x s).value (x s).rest).after (x s).trace) s := by
  intro t ht
  by_cases hf : (x s).trace.Finishes p
  · -- the first reading is followed to its end, so the second one begins at the same place
    simp only [Reading.reach_after hf] at ht
    have hreach : (x s).reach p = (Trace.taken (x s).trace).length := by
      rw [Reading.reach, Trace.followed_of_finishes hf]
    have hfirst := hx t (ht.mono (by omega))
    have htrace : (x t).trace = (x s).trace := Trace.eq_of_followed_eq hfirst.followed hf
    have hrest : SameUpTo ((g (x s).value (x s).rest).reach p + k) (x s).rest (x t).rest := by
      rw [Nat.add_assoc] at ht
      have hsplit := hsplits t
      rw [Reading.Splits, htrace] at hsplit
      exact ht.behind (hsplits s) hsplit
    have hsecond := hg hf (x t).rest hrest
    simp only [hfirst.value hf, htrace]
    exact hsecond.after _
  · -- an error of the first reading is the answer
    simp only [Reading.reach_after_of_not_finishes hf] at ht
    have hfirst := hx t ht
    have hft : ¬ (x t).trace.Finishes p := by
      rwa [← Trace.finishes_followed_iff, hfirst.followed, Trace.finishes_followed_iff]
    refine ⟨?_, fun h => absurd (Trace.finishes_append_iff.1 h).1 hf⟩
    simp only [Reading.trace_after]
    rw [Trace.followed_append_of_not_finishes hf, Trace.followed_append_of_not_finishes hft,
      hfirst.followed]

end Sees

end CssLex
