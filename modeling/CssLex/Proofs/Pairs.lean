import CssLex.Cursor

/-!
# CssLex — pairs that are read as one

A carriage return and its line feed are one newline, and a high surrogate and a low one are one code point.
The two readings have this in common (`ReadsPairs`): whatever is in a pair is read together with the other
half of it, and all else alone. So each goes with putting lists together, unless a pair is cut where they
meet (`CutsPair`).

* `normalize_normalForm`: what `normalize` gives is a normal form.
* `Utf16.Says`: which text a list of units says, unit by unit.
* `Utf16.ofUtf16_says`: a cursor over units is a cursor over the text that they say.
-/

namespace CssLex

/-! ## Two for one

The two readings take a pair where one of a first class has one of a second directly behind it. No element is
in both classes, so pairs do not overlap, and it does not matter from which end they are looked for. -/

section

variable {α β : Type} {p q : α → Bool}

/-- A pair is cut where the lists meet: one of the class `p` is the last of the first list, and one of the
class `q` the first of the second. -/
def CutsPair (p q : α → Bool) (s t : List α) : Prop :=
  s.getLast?.any p = true ∧ t.head?.any q = true

/-- How many of the class `p` have one of the class `q` directly behind them. -/
def countPairs (p q : α → Bool) (s : List α) : Nat :=
  (s.zip s.tail).countP fun x => p x.1 && q x.2

/-- The two halves, and what stands around them. -/
theorem cutsPair_iff {s t : List α} :
    CutsPair p q s t ↔ ∃ s' a b t', s = s' ++ [a] ∧ t = b :: t' ∧ p a = true ∧ q b = true := by
  constructor
  · rintro ⟨hs, ht⟩
    obtain ⟨a, hlast, ha⟩ := (Option.any_eq_true ..).1 hs
    obtain ⟨b, hhead, hb⟩ := (Option.any_eq_true ..).1 ht
    obtain ⟨s', rfl⟩ := List.getLast?_eq_some_iff.1 hlast
    obtain ⟨t', rfl⟩ := List.head?_eq_some_iff.1 hhead
    exact ⟨s', a, b, t', rfl, rfl, ha, hb⟩
  · rintro ⟨s', a, b, t', rfl, rfl, ha, hb⟩
    refine ⟨?_, hb⟩
    rw [List.getLast?_concat]
    exact ha

/-- What stands in front of the first list makes no difference to the place where the lists meet. -/
theorem CutsPair.cons {s t : List α} (h : CutsPair p q s t) (a : α) : CutsPair p q (a :: s) t := by
  obtain ⟨s', b, c, t', rfl, rfl, hb, hc⟩ := cutsPair_iff.1 h
  exact cutsPair_iff.2 ⟨a :: s', b, c, t', rfl, rfl, hb, hc⟩

theorem countPairs_of_cuts {a : α} {s : List α} (h : CutsPair p q [a] s) :
    countPairs p q (a :: s) = countPairs p q s + 1 := by
  cases s with
  | nil => exact absurd h.2 Bool.false_ne_true
  | cons b s =>
    have hab : (p a && q b) = true := Bool.and_eq_true_iff.2 h
    show ((a, b) :: (b :: s).zip s).countP _ = _
    exact List.countP_cons_of_pos hab

theorem countPairs_of_not_cuts {a : α} {s : List α} (h : ¬ CutsPair p q [a] s) :
    countPairs p q (a :: s) = countPairs p q s := by
  cases s with
  | nil => rfl
  | cons b s =>
    have hab : ¬ (p a && q b) = true := fun hboth => h (Bool.and_eq_true_iff.1 hboth)
    show ((a, b) :: (b :: s).zip s).countP _ = _
    exact List.countP_cons_of_neg hab

/-- Takes a pair in one step, and what is in no pair in another. -/
@[elab_as_elim]
theorem pairs_induction {P : List α → Prop} (p q : α → Bool) (nil : P [])
    (pair : ∀ a b s, p a = true → q b = true → P s → P (a :: b :: s))
    (one : ∀ a s, ¬ CutsPair p q [a] s → P s → P (a :: s)) : ∀ s, P s
  | [] => nil
  | [a] => one a [] (fun h => absurd h.2 Bool.false_ne_true) nil
  | a :: b :: s => by
    by_cases h : p a = true ∧ q b = true
    · exact pair a b s h.1 h.2 (pairs_induction p q nil pair one s)
    · exact one a (b :: s) h (pairs_induction p q nil pair one (b :: s))

/-- One of `p` and one of `q` directly behind it are read together, and all else is read alone. -/
structure ReadsPairs (p q : α → Bool) (pair : α → α → β) (one : α → β) (f : List α → List β) :
    Prop where
  /-- No pair begins where another one ends. -/
  apart : ∀ a, p a = true → q a = false
  nil : f [] = []
  pair : ∀ a b s, p a = true → q b = true → f (a :: b :: s) = pair a b :: f s
  one : ∀ a s, ¬ CutsPair p q [a] s → f (a :: s) = one a :: f s

namespace ReadsPairs

variable {pair : α → α → β} {one : α → β} {f : List α → List β}

/-- The second half of a pair makes none with what follows it. -/
theorem not_cuts_behind (hf : ReadsPairs p q pair one f) {b : α} (hb : q b = true) (s : List α) :
    ¬ CutsPair p q [b] s := by
  rintro ⟨hpb, _⟩
  have hqb := hf.apart b hpb
  rw [hb] at hqb
  contradiction

/-- Nor does the first half with what stands before it. -/
theorem not_cuts_before (hf : ReadsPairs p q pair one f) {a : α} (ha : p a = true) (s t : List α) :
    ¬ CutsPair p q s (a :: t) := by
  rintro ⟨_, hqa⟩
  have hno := hf.apart a ha
  rw [show q a = true from hqa] at hno
  contradiction

/-- Every pair makes the list shorter by one. -/
theorem length_add (hf : ReadsPairs p q pair one f) (s : List α) :
    (f s).length + countPairs p q s = s.length := by
  induction s using pairs_induction p q with
  | nil =>
    rw [hf.nil]
    rfl
  | pair a b s ha hb ih =>
    have hcount : countPairs p q (a :: b :: s) = countPairs p q s + 1 := by
      rw [countPairs_of_cuts (s := b :: s) ⟨ha, hb⟩, countPairs_of_not_cuts (hf.not_cuts_behind hb s)]
    rw [hf.pair a b s ha hb, hcount]
    simp only [List.length_cons]
    omega
  | one a s ha ih =>
    rw [hf.one a s ha, countPairs_of_not_cuts ha]
    simp only [List.length_cons]
    omega

theorem append (hf : ReadsPairs p q pair one f) {s t : List α} (h : ¬ CutsPair p q s t) :
    f (s ++ t) = f s ++ f t := by
  induction s using pairs_induction p q with
  | nil =>
    rw [hf.nil]
    rfl
  | pair a b s ha hb ih =>
    have hs : ¬ CutsPair p q s t := fun hcut => h ((hcut.cons b).cons a)
    calc f (a :: b :: (s ++ t)) = pair a b :: f (s ++ t) := hf.pair a b _ ha hb
      _ = pair a b :: f s ++ f t := by rw [ih hs, List.cons_append]
      _ = f (a :: b :: s) ++ f t := by rw [hf.pair a b s ha hb]
  | one a s ha ih =>
    have hs : ¬ CutsPair p q s t := fun hcut => h (hcut.cons a)
    -- behind `a` stands the front of `s`, or the front of `t` where `a` is the last
    have hat : ¬ CutsPair p q [a] (s ++ t) := by
      cases s with
      | nil => exact h
      | cons b s => exact ha
    calc f (a :: (s ++ t)) = one a :: f (s ++ t) := hf.one a _ hat
      _ = one a :: f s ++ f t := by rw [ih hs, List.cons_append]
      _ = f (a :: s) ++ f t := by rw [hf.one a s ha]

/-- The halves of a pair that is cut are read alone, and together where the lists are put together. -/
theorem append_of_cuts (hf : ReadsPairs p q pair one f) {s t : List α} (h : CutsPair p q s t) :
    ∃ a b u v, f s = u ++ [one a] ∧ f t = one b :: v ∧ f (s ++ t) = u ++ pair a b :: v ∧
      p a = true ∧ q b = true := by
  obtain ⟨s, a, b, t, rfl, rfl, ha, hb⟩ := cutsPair_iff.1 h
  have hleft : f (s ++ [a]) = f s ++ [one a] := by
    have halone : ¬ CutsPair p q [a] [] := fun hcut => absurd hcut.2 Bool.false_ne_true
    rw [hf.append (hf.not_cuts_before ha s []), hf.one a [] halone, hf.nil]
  have hright : f (b :: t) = one b :: f t := hf.one b t (hf.not_cuts_behind hb t)
  have hjoined : f (s ++ [a] ++ b :: t) = f s ++ pair a b :: f t := by
    rw [List.append_assoc]
    show f (s ++ a :: b :: t) = _
    rw [hf.append (hf.not_cuts_before ha s (b :: t)), hf.pair a b t ha hb]
  exact ⟨a, b, f s, f t, hleft, hright, hjoined, ha, hb⟩

/-- Reading goes with putting lists together exactly where no pair is cut. -/
theorem append_iff (hf : ReadsPairs p q pair one f) {s t : List α} :
    f (s ++ t) = f s ++ f t ↔ ¬ CutsPair p q s t := by
  refine ⟨fun heq hcut => ?_, hf.append⟩
  obtain ⟨a, b, u, v, hs, ht, hst, _⟩ := hf.append_of_cuts hcut
  -- the halves are read as two, and the pair as one
  rw [hs, ht, hst] at heq
  have hlength := congrArg List.length heq
  simp only [List.length_append, List.length_cons, List.length_nil] at hlength
  omega

end ReadsPairs

end

/-! ## Line ends

A carriage return is the first half of a pair, a line feed the second. Each is a newline by itself too, which
is why a pair that is cut gives one newline more. -/

/-- Normalising reads pairs: the two conditions of its cases are those of the classes. -/
theorem readsPairs_normalize :
    ReadsPairs (· == '\r') (· == '\n') (fun _ _ => '\n') normalizeChar normalize where
  apart a ha := by
    rw [beq_iff_eq.1 ha]
    rfl
  nil := rfl
  pair a b s ha hb := by
    rw [beq_iff_eq.1 ha, beq_iff_eq.1 hb, normalize]
  one a s h := by
    rw [normalize]
    rintro t rfl rfl
    exact h ⟨rfl, rfl⟩

/-- **A normalised text is in a normal form**, and normal texts are those that are not changed. Only the
pairs of a carriage return and a line feed make it shorter. Normalising goes with putting texts together,
unless such a pair is cut: then each half of it gives a newline, where the pair would have given one. -/
theorem normalize_normalForm (s t : List Char) :
    IsNormal (normalize s) ∧ (normalize s = s ↔ IsNormal s) ∧ normalize (normalize s) = normalize s ∧
      (normalize s).length + countPairs (· == '\r') (· == '\n') s = s.length ∧
      (normalize (s ++ t) = normalize s ++ normalize t ↔ ¬ CutsPair (· == '\r') (· == '\n') s t) ∧
      (CutsPair (· == '\r') (· == '\n') s t → ∃ u v, normalize s = u ++ ['\n'] ∧
        normalize t = '\n' :: v ∧ normalize (s ++ t) = u ++ '\n' :: v) := by
  have hnormal (s : List Char) : IsNormal (normalize s) := isNormal_normalize s
  refine ⟨hnormal s, ⟨fun h => h ▸ hnormal s, normalize_eq_self⟩, normalize_eq_self (hnormal s),
    readsPairs_normalize.length_add s, readsPairs_normalize.append_iff, fun hcut => ?_⟩
  obtain ⟨a, b, u, v, hs, ht, hst, ha, hb⟩ := readsPairs_normalize.append_of_cuts hcut
  rw [beq_iff_eq.1 ha] at hs
  rw [beq_iff_eq.1 hb] at ht
  exact ⟨u, v, hs, ht, hst⟩

/-- A carriage return stands before the pair that is cut, and a pair behind it. -/
theorem normalize_normalForm_of_runs :
    let s := ['\n', '\r', '\r']
    let t := ['\n', '\r', '\n', '\x00']
    CutsPair (· == '\r') (· == '\n') s t ∧ ∃ u v, normalize s = u ++ ['\n'] ∧
      normalize t = '\n' :: v ∧ normalize (s ++ t) = u ++ '\n' :: v := by
  intro s t
  have hcut : CutsPair (· == '\r') (· == '\n') s t := ⟨rfl, rfl⟩
  exact ⟨hcut, (normalize_normalForm s t).2.2.2.2.2 hcut⟩

/-! ## Surrogates

The classes are the high and the low surrogates, and a pair stands for a code point above U+FFFF. The other
units, and what encodes one of them, are told by their numbers. -/

namespace Utf16

theorem isHigh_iff {u : UInt16} : isHigh u = true ↔ 0xD800 ≤ u.toNat ∧ u.toNat ≤ 0xDBFF := by
  simp [isHigh, UInt16.le_iff_toNat_le]

theorem isLow_iff {u : UInt16} : isLow u = true ↔ 0xDC00 ≤ u.toNat ∧ u.toNat ≤ 0xDFFF := by
  simp [isLow, UInt16.le_iff_toNat_le]

theorem isLow_of_isHigh {u : UInt16} (h : isHigh u = true) : isLow u = false := by
  rw [isHigh_iff] at h
  rw [Bool.eq_false_iff, ne_eq, isLow_iff]
  omega

theorem not_surrogate_iff {u : UInt16} :
    isHigh u = false ∧ isLow u = false ↔ ¬ (0xD800 ≤ u.toNat ∧ u.toNat ≤ 0xDFFF) := by
  rw [Bool.eq_false_iff, Bool.eq_false_iff, ne_eq, ne_eq, isHigh_iff, isLow_iff]
  omega

/-- Reading units reads pairs. -/
theorem readsPairs_decode : ReadsPairs isHigh isLow ofPair ofUnit decode where
  apart _ := isLow_of_isHigh
  nil := rfl
  pair u v units hu hv := by
    rw [decode, if_pos (Bool.and_eq_true_iff.2 ⟨hu, hv⟩)]
  one u units h := by
    cases units with
    | nil => rfl
    | cons v units =>
      rw [decode, if_neg]
      exact fun hboth => h (Bool.and_eq_true_iff.1 hboth)

theorem toNat_toUInt16 {n : Nat} (h : n < 0x10000) : n.toUInt16.toNat = n :=
  UInt16.toNat_ofNat_of_lt' h

/-- A surrogate by itself is replaced. -/
theorem ofUnit_of_surrogate {u : UInt16} (h : isHigh u = true ∨ isLow u = true) :
    ofUnit u = replacementChar :=
  if_pos (Bool.or_eq_true_iff.2 h)

theorem toNat_ofUnit {u : UInt16} (hhigh : isHigh u = false) (hlow : isLow u = false) :
    (ofUnit u).toNat = u.toNat := by
  have hof : ofUnit u = Char.ofNat u.toNat := by
    rw [ofUnit, hhigh, hlow]
    rfl
  have hplain := not_surrogate_iff.1 ⟨hhigh, hlow⟩
  have hlt := u.toNat_lt
  rw [hof]
  apply toNat_ofNat_of_isValidChar
  unfold Nat.isValidChar
  omega

/-- A pair has ten bits from each of its halves. -/
theorem toNat_ofPair {u v : UInt16} (hu : isHigh u = true) (hv : isLow v = true) :
    (ofPair u v).toNat = 0x10000 + (u.toNat - 0xD800) * 0x400 + (v.toNat - 0xDC00) := by
  rw [isHigh_iff] at hu
  rw [isLow_iff] at hv
  apply toNat_ofNat_of_isValidChar
  unfold Nat.isValidChar
  omega

/-- A pair is the spelling of its code point. -/
theorem encodeChar_ofPair {u v : UInt16} (hu : isHigh u = true) (hv : isLow v = true) :
    encodeChar (ofPair u v) = [u, v] := by
  have hnat := toNat_ofPair hu hv
  rw [isHigh_iff] at hu
  rw [isLow_iff] at hv
  have hlarge : ¬ (ofPair u v).toNat < 0x10000 := by omega
  simp only [encodeChar, if_neg hlarge, List.cons.injEq, and_true, ← UInt16.toNat_inj]
  rw [hnat, toNat_toUInt16 (by omega), toNat_toUInt16 (by omega)]
  omega

/-- A code point is spelled by one unit that is no surrogate, or by a pair. -/
theorem encodeChar_cases (c : Char) :
    (∃ u, encodeChar c = [u] ∧ isHigh u = false ∧ isLow u = false ∧ ofUnit u = c) ∨
      ∃ u v, encodeChar c = [u, v] ∧ isHigh u = true ∧ isLow v = true ∧ ofPair u v = c := by
  have hvalid : c.toNat.isValidChar := c.valid
  unfold Nat.isValidChar at hvalid
  by_cases hc : c.toNat < 0x10000
  -- up to U+FFFF a code point is its own unit, and no code point is a surrogate
  · left
    have hu := toNat_toUInt16 hc
    have hplain : ¬ (0xD800 ≤ c.toNat.toUInt16.toNat ∧ c.toNat.toUInt16.toNat ≤ 0xDFFF) := by
      rw [hu]
      omega
    obtain ⟨hhigh, hlow⟩ := not_surrogate_iff.2 hplain
    refine ⟨_, if_pos hc, hhigh, hlow, ?_⟩
    rw [← Char.toNat_inj, toNat_ofUnit hhigh hlow, hu]
  -- above it the ten upper bits make the high surrogate and the ten lower ones the low
  · right
    let high := (0xD800 + (c.toNat - 0x10000) / 0x400).toUInt16
    let low := (0xDC00 + (c.toNat - 0x10000) % 0x400).toUInt16
    have hhighNat : high.toNat = 0xD800 + (c.toNat - 0x10000) / 0x400 := toNat_toUInt16 (by omega)
    have hlowNat : low.toNat = 0xDC00 + (c.toNat - 0x10000) % 0x400 := toNat_toUInt16 (by omega)
    have hhigh : isHigh high = true := by
      rw [isHigh_iff, hhighNat]
      omega
    have hlow : isLow low = true := by
      rw [isLow_iff, hlowNat]
      omega
    refine ⟨high, low, if_neg hc, hhigh, hlow, ?_⟩
    rw [← Char.toNat_inj, toNat_ofPair hhigh hlow, hhighNat, hlowNat]
    omega

/-- The pair that spells a code point stands for it. -/
theorem ofPair_of_encodeChar {c : Char} {u v : UInt16} (h : encodeChar c = [u, v]) : ofPair u v = c := by
  rcases encodeChar_cases c with ⟨u', hc, _⟩ | ⟨u', v', hc, _, _, hpair⟩
  · rw [hc] at h
    simp at h
  · rw [hc] at h
    simp only [List.cons.injEq, and_true] at h
    rw [← hpair, h.1, h.2]

/-! ## What units say

`Says` gives the text of a list of units without reading it from left to right: what a unit is replaced by
depends on its two neighbours alone. The reader decides the same, so there is one text that a list says
(`says_iff`). -/

/-- What a unit is replaced by, between the unit before it and the unit behind it. A surrogate that is in no
pair is replaced by one replacement character. -/
inductive Replaced (before : Option UInt16) (u : UInt16) (behind : Option UInt16) :
    List Char → Prop where
  /-- A high surrogate and the low one directly behind it give the code point that they encode. -/
  | pair {v : UInt16} {c : Char} (hu : isHigh u = true) (hv : isLow v = true) (hbehind : behind = some v)
      (hc : encodeChar c = [u, v]) : Replaced before u behind [c]
  /-- The low one has been replaced with the high one. -/
  | second (hu : isLow u = true) (hbefore : before.any isHigh = true) : Replaced before u behind []
  | loneHigh (hu : isHigh u = true) (hbehind : behind.any isLow = false) :
      Replaced before u behind [replacementChar]
  | loneLow (hu : isLow u = true) (hbefore : before.any isHigh = false) :
      Replaced before u behind [replacementChar]
  | kept {c : Char} (hhigh : isHigh u = false) (hlow : isLow u = false) (hc : c.toNat = u.toNat) :
      Replaced before u behind [c]

/-- The text that units say behind another unit: each of them is replaced where it stands. -/
inductive Says : Option UInt16 → List UInt16 → List Char → Prop where
  | nil {before : Option UInt16} : Says before [] []
  | cons {before : Option UInt16} {u : UInt16} {units : List UInt16} {part text : List Char}
      (hu : Replaced before u units.head? part) (hunits : Says (some u) units text) :
      Says before (u :: units) (part ++ text)

section

variable {before behind : Option UInt16} {u v : UInt16} {units : List UInt16} {part text : List Char}

/-- The first unit is replaced where it stands, and the others behind it. -/
theorem says_cons_iff :
    Says before (u :: units) text ↔ ∃ part rest, text = part ++ rest ∧
      Replaced before u units.head? part ∧ Says (some u) units rest := by
  constructor
  · rintro (_ | ⟨hu, hunits⟩)
    exact ⟨_, _, rfl, hu, hunits⟩
  · rintro ⟨part, rest, rfl, hu, hunits⟩
    exact .cons hu hunits

/-- The first half of a pair is replaced by its code point. -/
theorem replaced_first_iff (hu : isHigh u = true) (hv : isLow v = true) :
    Replaced before u (some v) part ↔ part = [ofPair u v] := by
  have hlow := isLow_of_isHigh hu
  constructor
  · intro h
    cases h with
    | pair _ _ hbehind hc =>
      obtain rfl := Option.some.inj hbehind
      rw [ofPair_of_encodeChar hc]
    | second hlow' | loneLow hlow' =>
      rw [hlow] at hlow'
      contradiction
    | loneHigh _ hbehind => exact absurd hv (Bool.eq_false_iff.1 hbehind)
    | kept hhigh => exact absurd hu (Bool.eq_false_iff.1 hhigh)
  · rintro rfl
    exact .pair hu hv rfl (encodeChar_ofPair hu hv)

/-- The second half is replaced by nothing. -/
theorem replaced_second_iff (hu : isHigh u = true) (hv : isLow v = true) :
    Replaced (some u) v behind part ↔ part = [] := by
  constructor
  · intro h
    cases h with
    | pair hhigh | loneHigh hhigh =>
      rw [isLow_of_isHigh hhigh] at hv
      contradiction
    | second => rfl
    | loneLow _ hbefore => exact absurd hu (Bool.eq_false_iff.1 hbefore)
    | kept _ hlow => exact absurd hv (Bool.eq_false_iff.1 hlow)
  · rintro rfl
    exact .second hv hu

/-- A unit in no pair is replaced by what it is read as alone. -/
theorem replaced_alone_iff (hbefore : before.any isHigh = true → isLow u = false)
    (hbehind : ¬ CutsPair isHigh isLow [u] units) :
    Replaced before u units.head? part ↔ part = [ofUnit u] := by
  constructor
  · intro h
    cases h with
    | pair hu hv hhead => exact absurd ⟨hu, by rw [hhead]; exact hv⟩ hbehind
    | second hu hhigh =>
      rw [hbefore hhigh] at hu
      contradiction
    | loneHigh hhigh => rw [ofUnit_of_surrogate (.inl hhigh)]
    | loneLow hlow => rw [ofUnit_of_surrogate (.inr hlow)]
    | kept hhigh hlow hc => rw [Char.toNat_inj.1 (hc.trans (toNat_ofUnit hhigh hlow).symm)]
  · rintro rfl
    -- without a second half behind it, without a first half before it, or no surrogate at all
    by_cases hhigh : isHigh u = true
    · rw [ofUnit_of_surrogate (.inl hhigh)]
      exact .loneHigh hhigh (Bool.eq_false_iff.2 fun hlow => hbehind ⟨hhigh, hlow⟩)
    by_cases hlow : isLow u = true
    · rw [ofUnit_of_surrogate (.inr hlow)]
      exact .loneLow hlow (Bool.eq_false_iff.2 fun hfirst => Bool.eq_false_iff.1 (hbefore hfirst) hlow)
    · rw [Bool.not_eq_true] at hhigh hlow
      exact .kept hhigh hlow (toNat_ofUnit hhigh hlow)

/-- What is read is what the units say, and nothing else is, if they do not begin with the second half of a
pair. -/
theorem says_iff (h : before.any isHigh = true → units.head?.any isLow = false) :
    Says before units text ↔ text = decode units := by
  -- a pair or a single unit at a time, as the reader takes them
  induction units using pairs_induction isHigh isLow generalizing before text with
  | nil =>
    constructor
    · rintro ⟨⟩
      rfl
    · rintro rfl
      exact .nil
  | pair u v units hu hv ih =>
    -- the second half of a pair is not the first of another one
    have hunits : (some v).any isHigh = true → units.head?.any isLow = false := by
      intro hhigh
      rw [isLow_of_isHigh hhigh] at hv
      contradiction
    simp [says_cons_iff, replaced_first_iff hu hv, replaced_second_iff hu hv, ih hunits,
      readsPairs_decode.pair u v units hu hv]
  | one u units hu ih =>
    have hunits : (some u).any isHigh = true → units.head?.any isLow = false := by
      intro hhigh
      exact Bool.eq_false_iff.2 fun hlow => hu ⟨hhigh, hlow⟩
    simp [says_cons_iff, replaced_alone_iff h hu, ih hunits, readsPairs_decode.one u units hu]

end

/-- A code point is read back from its units in front of any others. -/
theorem decode_encodeChar_append (c : Char) (units : List UInt16) :
    decode (encodeChar c ++ units) = c :: decode units := by
  rcases encodeChar_cases c with ⟨u, hc, hhigh, _, rfl⟩ | ⟨u, v, hc, hhigh, hlow, rfl⟩
  · rw [hc]
    refine readsPairs_decode.one u units fun hcut => ?_
    exact absurd hcut.1 (Bool.eq_false_iff.1 hhigh)
  · rw [hc]
    exact readsPairs_decode.pair u v units hhigh hlow

/-- A text is read back from its units. -/
theorem decode_encode (s : List Char) : decode (encode s) = s := by
  induction s with
  | nil => rfl
  | cons c s ih => rw [encode, List.flatMap_cons, decode_encodeChar_append, ← encode, ih]

/-- **Units are read as the text that they say.** The units of a text say that text, and reading them is
reading it. Any list of units says exactly one text, which is normalised and read. Lists of units go together
as their texts do, unless the one ends with a high surrogate (nothing is behind it, so it is in no pair) and
the other begins with a low one. -/
theorem ofUtf16_says (policy : ErrorPolicy) :
    (∀ text : String, Cursor.ofUtf16 (encode text.toList) policy = Cursor.ofText text policy) ∧
      (∀ units, (∀ text, Says none units text ↔ text = decode units) ∧
        (Cursor.ofUtf16 units policy).rest = normalize (decode units)) ∧
      ∀ units units', decode (units ++ units') = decode units ++ decode units' ↔
        ¬ CutsPair isHigh isLow units units' := by
  refine ⟨fun text => ?_, fun units => ⟨fun text => ?_, rfl⟩, fun units units' => ?_⟩
  · rw [Cursor.ofUtf16, decode_encode]
    rfl
  · exact says_iff fun h => absurd h Bool.false_ne_true
  · exact readsPairs_decode.append_iff

/-- Of two high surrogates in front of two low ones the inner ones are a pair. -/
example : decode [0xD800, 0xD83D, 0xDE00, 0xDC00] = ['\uFFFD', '😀', '\uFFFD'] := by decide

end Utf16

end CssLex
