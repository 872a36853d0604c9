import CssLex.Proofs.Reads
import CssLex.Token.Write

/-!
# CssLex — numerals are read back

`Numeral.Valid` is what the reader of numerals makes sure of, and what the writer of numbers keeps to. The
text of a valid numeral is read as that numeral, as long as what follows does not go on with it
(`StopsNumeral`).
-/

namespace CssLex

/-- There is a digit, and digits stand where digits should. -/
structure Numeral.Valid (m : Numeral) : Prop where
  whole : ∀ c ∈ m.whole, c.isDigit = true
  fraction : ∀ c ∈ m.fraction, c.isDigit = true
  some_digit : m.whole ≠ [] ∨ m.fraction ≠ []
  exponent : ∀ e ∈ m.exponent, (e.mark = 'e' ∨ e.mark = 'E') ∧ e.digits ≠ [] ∧
    ∀ c ∈ e.digits, c.isDigit = true

/-- No digit, point or exponent of a numeral begins here. -/
structure StopsNumeral (r : List Char) : Prop where
  digit : startsDigit r = false
  point : ∀ t, r = '.' :: t → startsDigit t = false
  exponent : readExponent r = (none, r)

/-! ## Part by part

Each part is read from its own text, up to what cannot go on with it. Where the text behind it goes on with
digits, these are read along; that is said as well, since it is needed where the longest numeral is looked
for. -/

theorem startsDigit_append {ds : List Char} (hne : ds ≠ []) (hd : ∀ c ∈ ds, c.isDigit = true)
    (r : List Char) : startsDigit (ds ++ r) = true := by
  cases ds with
  | nil => contradiction
  | cons d ds => simpa [startsDigit] using hd d List.mem_cons_self

/-- Digits are read together with those behind them. -/
theorem readDigits_append_of_digits {ds : List Char} (hd : ∀ c ∈ ds, c.isDigit = true) (r : List Char) :
    readDigits (ds ++ r) = (ds ++ (readDigits r).1, (readDigits r).2) := by
  rw [readDigits, List.takeWhile_append_of_pos hd, List.dropWhile_append_of_pos hd, readDigits]

theorem readDigits_of_not_startsDigit {r : List Char} (hr : startsDigit r = false) :
    readDigits r = ([], r) := by
  obtain ⟨htake, hdrop⟩ := takeWhile_append_stop (s := []) (by simp) hr
  exact Prod.ext htake hdrop

/-- Digits are read alone where something else stops them. -/
theorem readDigits_digits_append {ds r : List Char} (hd : ∀ c ∈ ds, c.isDigit = true)
    (hr : startsDigit r = false) : readDigits (ds ++ r) = (ds, r) := by
  rw [readDigits_append_of_digits hd, readDigits_of_not_startsDigit hr, List.append_nil]

/-- A sign is read where it was written, and none where what follows has none. -/
theorem readSign_append {sign : Option Sign} {r : List Char} (hr : (readSign r).1 = none) :
    readSign (signText sign ++ r) = (sign, r) := by
  cases sign with
  | none =>
    -- nothing is written, and what follows has no sign of its own
    have hrest := signText_readSign_append r
    rw [hr] at hrest
    exact Prod.ext hr hrest
  | some s => cases s <;> rfl

theorem readSign_of_startsDigit {r : List Char} (h : startsDigit r = true) :
    (readSign r).1 = none := by
  unfold readSign
  split
  · contradiction
  · contradiction
  · rfl

/-- Digits behind a point are read together with those behind them. -/
theorem readFraction_text_append {f : List Char} (hne : f ≠ []) (hf : ∀ c ∈ f, c.isDigit = true)
    (r : List Char) :
    readFraction (fractionText f ++ r) = (f ++ (readDigits r).1, (readDigits r).2) := by
  have hpoint : fractionText f = '.' :: f := by
    rw [fractionText, if_neg (by simpa using hne)]
  rw [hpoint, List.cons_append, readFraction, if_pos (startsDigit_append hne hf r),
    readDigits_append_of_digits hf]

/-- The digits behind a point are read alone where something else stops them. Where there are none no point
was written, so none may follow that has a digit. -/
theorem readFraction_append {f r : List Char} (hf : ∀ c ∈ f, c.isDigit = true)
    (hdigit : startsDigit r = false) (hpoint : ∀ t, r = '.' :: t → startsDigit t = false) :
    readFraction (fractionText f ++ r) = (f, r) := by
  cases f with
  | nil =>
    show readFraction r = ([], r)
    unfold readFraction
    split
    · next t => rw [hpoint t rfl]; rfl
    · rfl
  | cons d f =>
    rw [readFraction_text_append (List.cons_ne_nil d f) hf, readDigits_of_not_startsDigit hdigit,
      List.append_nil]

/-- The digits of an exponent are read together with those behind them. -/
theorem readExponent_text_append {e : Exponent} (hmark : e.mark = 'e' ∨ e.mark = 'E')
    (hne : e.digits ≠ []) (hd : ∀ c ∈ e.digits, c.isDigit = true) (r : List Char) :
    readExponent (e.text ++ r) =
      (some { e with digits := e.digits ++ (readDigits r).1 }, (readDigits r).2) := by
  have hdigit := startsDigit_append hne hd r
  have hsign : readSign (signText e.sign ++ (e.digits ++ r)) = (e.sign, e.digits ++ r) :=
    readSign_append (readSign_of_startsDigit hdigit)
  simp only [Exponent.text, List.cons_append, List.append_assoc, readExponent, hsign, hmark, hdigit,
    and_self, if_true, readDigits_append_of_digits hd]

/-- The digits of an exponent are read alone where something else stops them. -/
theorem readExponent_append {e : Exponent} (hmark : e.mark = 'e' ∨ e.mark = 'E')
    (hne : e.digits ≠ []) (hd : ∀ c ∈ e.digits, c.isDigit = true) {r : List Char}
    (hr : startsDigit r = false) : readExponent (e.text ++ r) = (some e, r) := by
  rw [readExponent_text_append hmark hne hd, readDigits_of_not_startsDigit hr, List.append_nil]

/-- An exponent stops the digits before it. -/
theorem startsDigit_text_append {e : Exponent} (hmark : e.mark = 'e' ∨ e.mark = 'E') (r : List Char) :
    startsDigit (e.text ++ r) = false ∧ ∀ t, e.text ++ r = '.' :: t → startsDigit t = false := by
  rcases hmark with h | h <;> simp [Exponent.text, h, startsDigit]

theorem startsDigit_fractionText_append {r : List Char} (hr : startsDigit r = false) (f : List Char) :
    startsDigit (fractionText f ++ r) = false := by
  rw [fractionText]
  split
  · exact hr
  · rfl

/-- The exponent of a numeral and what follows stop the digits before it. -/
theorem startsDigit_exponent_append {m : Numeral} (hm : m.Valid) {r : List Char}
    (hr : StopsNumeral r) :
    startsDigit ((m.exponent.map Exponent.text).getD [] ++ r) = false ∧
      ∀ t, (m.exponent.map Exponent.text).getD [] ++ r = '.' :: t → startsDigit t = false := by
  cases he : m.exponent with
  | none => exact ⟨hr.digit, hr.point⟩
  | some e => exact startsDigit_text_append (hm.exponent e he).1 r

/-- Before its sign a numeral has a digit, or a point and a digit. -/
theorem head_unsigned_append {m : Numeral} (hm : m.Valid) (r : List Char) :
    startsDigit (m.whole ++ (fractionText m.fraction ++ r)) = true ∨
      ∃ t, m.whole ++ (fractionText m.fraction ++ r) = '.' :: t ∧ startsDigit t = true := by
  by_cases hwhole : m.whole = []
  · right
    have hne : m.fraction ≠ [] := by
      rcases hm.some_digit with h | h
      · contradiction
      · exact h
    refine ⟨m.fraction ++ r, ?_, startsDigit_append hne hm.fraction r⟩
    rw [hwhole, fractionText, if_neg (by simpa using hne)]
    rfl
  · exact Or.inl (startsDigit_append hwhole hm.whole _)

/-- The parts of a numeral in their order, in front of another text. -/
theorem Numeral.text_append (m : Numeral) (r : List Char) :
    m.text ++ r = signText m.sign ++ (m.whole ++ (fractionText m.fraction ++
      ((m.exponent.map Exponent.text).getD [] ++ r))) := by
  simp only [Numeral.text, List.append_assoc]

/-- The sign of a numeral is read first, and its other parts are left. -/
theorem readSign_text_append {m : Numeral} (hm : m.Valid) (r : List Char) :
    readSign (m.text ++ r) = (m.sign, m.whole ++ (fractionText m.fraction ++
      ((m.exponent.map Exponent.text).getD [] ++ r))) := by
  rw [m.text_append]
  -- behind the sign stands a digit or a point
  refine readSign_append ?_
  rcases head_unsigned_append hm ((m.exponent.map Exponent.text).getD [] ++ r) with h | ⟨t, ht, _⟩
  · exact readSign_of_startsDigit h
  · rw [ht]
    rfl

theorem startsNumber_text_append {m : Numeral} (hm : m.Valid) (r : List Char) :
    startsNumber (m.text ++ r) = true := by
  rw [startsNumber_iff, readSign_text_append hm]
  exact head_unsigned_append hm _

/-- A valid numeral is read as it is. -/
theorem readNumeral_text_append {m : Numeral} (hm : m.Valid) {r : List Char}
    (hr : StopsNumeral r) : readNumeral (m.text ++ r) = (m, r) := by
  -- each part is stopped by the part behind it, the last by what follows
  obtain ⟨hdigit, hpoint⟩ := startsDigit_exponent_append hm hr
  have hfraction := readFraction_append hm.fraction hdigit hpoint
  have hwhole := startsDigit_fractionText_append hdigit m.fraction
  have hexponent : readExponent ((m.exponent.map Exponent.text).getD [] ++ r) = (m.exponent, r) := by
    cases he : m.exponent with
    | none => exact hr.exponent
    | some e =>
      obtain ⟨hmark, hne, hd⟩ := hm.exponent e he
      exact readExponent_append hmark hne hd hr.digit
  simp only [readNumeral, readSign_text_append hm, readDigits_digits_append hm.whole hwhole,
    hfraction, hexponent]

theorem readNumeral_text {m : Numeral} (hm : m.Valid) : readNumeral m.text = (m, []) := by
  have hread := readNumeral_text_append hm (r := []) ⟨rfl, by simp, rfl⟩
  rwa [List.append_nil] at hread

/-! ## Written numbers

What is written for a number is the text of a numeral (`Numeric.write_eq_text`), an integer or a layout, with
a plus where one was read and none stands there yet. The numeral is valid, so it is read back as it is. -/

theorem isDigit_toDigits (n : Nat) : ∀ c ∈ Nat.toDigits 10 n, c.isDigit = true :=
  fun _ hc => Nat.isDigit_of_mem_toDigits (by decide) (by decide) hc

theorem valid_integer (sign : Option Sign) (n : Nat) :
    Numeral.Valid ⟨sign, Nat.toDigits 10 n, [], none⟩ :=
  ⟨isDigit_toDigits n, by simp, Or.inl Nat.toDigits_ne_nil, by simp⟩

/-- The digits behind a point are digits, those that fill up its places included. -/
theorem isDigit_fraction (d : Decimal) : ∀ c ∈ d.fraction, c.isDigit = true := by
  intro c hc
  unfold Decimal.fraction at hc
  simp only at hc
  split at hc
  · contradiction
  · rcases List.mem_append.1 hc with hc | hc
    · rw [List.eq_of_mem_replicate hc]
      rfl
    · exact isDigit_toDigits _ c hc

/-- A layout has digits before its point in either form, and in its exponent. -/
theorem valid_lay (format : NumeralFormat) (d : Decimal) : (format.lay d).Valid := by
  unfold NumeralFormat.lay
  simp only
  split
  · exact ⟨isDigit_toDigits _, isDigit_fraction _, Or.inl Nat.toDigits_ne_nil, by simp⟩
  · refine ⟨isDigit_toDigits _, isDigit_fraction _, Or.inl Nat.toDigits_ne_nil, ?_⟩
    intro e he
    obtain rfl := Option.mem_some.1 he
    exact ⟨Or.inl rfl, Nat.toDigits_ne_nil, isDigit_toDigits _⟩

theorem valid_marked {m : Numeral} (hm : m.Valid) : m.marked.Valid := by
  rcases m.marked_eq_or with hsame | ⟨_, _, hmarked⟩
  · rwa [hsame]
  · rw [hmarked]
    exact ⟨hm.whole, by simp, Or.inr (by simp), hm.exponent⟩

/-- Whatever the sign is, the digits are those that they were. -/
theorem Numeral.Valid.withSign {m : Numeral} (hm : m.Valid) (sign : Option Sign) :
    Numeral.Valid { m with sign := sign } :=
  ⟨hm.whole, hm.fraction, hm.some_digit, hm.exponent⟩

/-- So every number that is no integer has a valid numeral. -/
theorem valid_toNumeral (x : Binary64) : x.toNumeral.Valid := by
  unfold Binary64.toNumeral
  split
  · exact ⟨by simp, by simp, by simp, by simp⟩
  · have hlay := valid_lay cssNumerals x.shortest
    refine Numeral.Valid.withSign ?_ _
    split
    · exact valid_marked hlay
    · exact hlay

/-- Only a number with a minus is written with one. -/
theorem sign_toNumeral_of_not_negative {x : Binary64} (h : x.negative = false) :
    x.toNumeral.sign = none := by
  unfold Binary64.toNumeral
  split
  · rfl
  · simp [h]

/-- A plus is not written before a negative integer. No reading gives a number that has both. -/
def Numeric.HasOneSign (n : Numeric) : Prop :=
  n.signed = true → n.value.negative = false → ∀ i ∈ n.integer?, 0 ≤ i

/-- Without a minus no negative integer is spelled: clamping keeps what is not negative from becoming so. -/
theorem integer?_nonneg {m : Numeral} (h : m.sign ≠ some .minus) : ∀ i ∈ m.integer?, 0 ≤ i := by
  intro i hi
  simp only [Numeral.integer?, Option.mem_def] at hi
  split at hi
  · have hclamp := Option.some.inj hi
    rw [int64OfDigits_eq_clampInt64, applySign, if_neg h, clampInt64] at hclamp
    omega
  · contradiction

/-- A value is negative if its numeral has a minus, also where it is zero. -/
theorem negative_value_iff {m : Numeral} : m.value.negative = true ↔ m.sign = some .minus :=
  decide_eq_true_iff

/-- What is read of a numeral has one sign at most. -/
theorem hasOneSign_toNumeric (m : Numeral) : m.toNumeric.HasOneSign := by
  intro _ hplus
  apply integer?_nonneg
  rw [ne_eq, ← negative_value_iff, Bool.not_eq_true]
  exact hplus

/-- The numeral of an integer. -/
def intNumeral (i : Int) : Numeral :=
  ⟨if i < 0 then some .minus else none, Nat.toDigits 10 i.natAbs, [], none⟩

theorem writeInt_eq_text (i : Int) : writeInt i = (intNumeral i).text := by
  unfold writeInt intNumeral
  split <;> simp [Numeral.text, signText, Sign.char, fractionText]

/-- What is written of a number behind the plus that it may need. -/
def Numeric.writeMagnitude (n : Numeric) : List Char :=
  match n.integer? with
  | some i => writeInt i
  | none => n.value.clampFinite.toNumeral.text

/-- What is written is a plus, if one is needed, and the number behind it. -/
theorem Numeric.write_eq (n : Numeric) :
    n.write = (if n.signed && !n.value.negative then ['+'] else []) ++ n.writeMagnitude := rfl

/-- The numeral of a number behind the plus that it may need. -/
def Numeric.unsignedNumeral (n : Numeric) : Numeral :=
  match n.integer? with
  | some i => intNumeral i
  | none => n.value.clampFinite.toNumeral

/-- The numeral that is written for a number. -/
def Numeric.numeral (n : Numeric) : Numeral :=
  if n.signed && !n.value.negative then { n.unsignedNumeral with sign := some .plus }
  else n.unsignedNumeral

/-- Behind the plus stands a numeral. -/
theorem Numeric.writeMagnitude_eq_text (n : Numeric) : n.writeMagnitude = n.unsignedNumeral.text := by
  unfold writeMagnitude unsignedNumeral
  split
  · exact writeInt_eq_text _
  · rfl

/-- The numeral that is written is valid, whatever the number. -/
theorem valid_numeral (n : Numeric) : n.numeral.Valid := by
  have hunsigned : n.unsignedNumeral.Valid := by
    unfold Numeric.unsignedNumeral
    split
    · exact valid_integer _ _
    · exact valid_toNumeral _
  unfold Numeric.numeral
  split
  · exact hunsigned.withSign _
  · exact hunsigned

/-- Where a plus goes before it a number has no sign of its own. -/
theorem Numeric.sign_unsignedNumeral {n : Numeric} (h : n.HasOneSign) (hsigned : n.signed = true)
    (hplus : n.value.negative = false) : n.unsignedNumeral.sign = none := by
  unfold unsignedNumeral
  cases hi : n.integer? with
  | some i =>
    have hpos : 0 ≤ i := h hsigned hplus i hi
    exact if_neg (Int.not_lt.2 hpos)
  | none =>
    refine sign_toNumeral_of_not_negative ?_
    unfold Binary64.clampFinite
    split
    · exact hplus
    · exact hplus

/-- The text of a number is that of its numeral. -/
theorem Numeric.write_eq_text {n : Numeric} (h : n.HasOneSign) : n.write = n.numeral.text := by
  rw [n.write_eq, n.writeMagnitude_eq_text, numeral]
  split
  · -- the plus that is written in front is the sign of the numeral
    next hplus =>
    simp only [Bool.and_eq_true, Bool.not_eq_eq_eq_not, Bool.not_true] at hplus
    have hnone := sign_unsignedNumeral h hplus.1 hplus.2
    simp [Numeral.text, hnone, signText, Sign.char]
  · rfl

/-- What is written of a number with one sign is a valid numeral. -/
theorem exists_write_eq_text {n : Numeric} (h : n.HasOneSign) :
    ∃ m : Numeral, m.Valid ∧ n.write = m.text :=
  ⟨n.numeral, valid_numeral n, Numeric.write_eq_text h⟩

/-- And of a number with two it is none. -/
theorem write_of_not_hasOneSign {n : Numeric} (h : ¬ n.HasOneSign) :
    ∃ w, n.write = '+' :: '-' :: w := by
  simp only [Numeric.HasOneSign, Classical.not_imp, Classical.not_forall] at h
  obtain ⟨hsigned, hplus, i, hi, hneg⟩ := h
  refine ⟨Nat.toDigits 10 i.natAbs, ?_⟩
  have hminus : n.writeMagnitude = '-' :: Nat.toDigits 10 i.natAbs := by
    simp [Numeric.writeMagnitude, Option.mem_def.1 hi, writeInt, Int.not_le.1 hneg]
  rw [n.write_eq, hminus, hsigned, hplus]
  rfl

/-! ## How written numbers begin

A number that is written never begins with its point, so it can only run into a token before it with a digit
or a sign. -/

/-- A layout has a digit before its point. -/
theorem whole_toNumeral_ne_nil (x : Binary64) : x.toNumeral.whole ≠ [] := by
  have hlay : (cssNumerals.lay x.shortest).whole ≠ [] := by
    unfold NumeralFormat.lay
    simp only
    split <;> exact Nat.toDigits_ne_nil
  unfold Binary64.toNumeral
  split
  · simp
  · simp only
    split
    · -- the mark stands behind the point
      rcases (cssNumerals.lay x.shortest).marked_eq_or with hsame | ⟨_, _, hmarked⟩
      · rwa [hsame]
      · rwa [hmarked]
    · exact hlay

theorem startsDigit_text {m : Numeral} (hm : m.Valid) (hwhole : m.whole ≠ [])
    (hsign : m.sign = none) : startsDigit m.text = true := by
  have htext := m.text_append []
  rw [List.append_nil, hsign] at htext
  rw [htext]
  exact startsDigit_append hwhole hm.whole _

/-- A numeral that is written has no sign, or a minus where the number is negative. -/
theorem sign_toNumeral_cases (x : Binary64) :
    x.toNumeral.sign = none ∨ x.toNumeral.sign = some .minus ∧ x.negative = true := by
  unfold Binary64.toNumeral
  split
  · exact Or.inl rfl
  · cases hneg : x.negative with
    | false => exact Or.inl rfl
    | true => exact Or.inr ⟨rfl, rfl⟩

theorem exists_text_of_minus {m : Numeral} (h : m.sign = some .minus) : ∃ s, m.text = '-' :: s := by
  refine ⟨m.whole ++ fractionText m.fraction ++ (m.exponent.map Exponent.text).getD [], ?_⟩
  rw [Numeral.text, h]
  rfl

/-- A magnitude begins with a digit, or with the minus of a number that is negative. -/
theorem writeMagnitude_cases (n : Numeric) :
    startsDigit n.writeMagnitude = true ∨ (∃ s, n.writeMagnitude = '-' :: s) ∧
      (n.value.negative = true ∨ ∃ i ∈ n.integer?, i < 0) := by
  unfold Numeric.writeMagnitude
  cases hi : n.integer? with
  | some i =>
    by_cases hneg : i < 0
    · simp [writeInt, hneg]
    · left
      show startsDigit (writeInt i) = true
      rw [writeInt, if_neg hneg, ← List.append_nil (Nat.toDigits 10 i.natAbs)]
      exact startsDigit_append Nat.toDigits_ne_nil (isDigit_toDigits _) []
  -- a float has a digit before its point in every layout, so only its sign can come first
  | none =>
    have hvalid := valid_toNumeral n.value.clampFinite
    have hwhole := whole_toNumeral_ne_nil n.value.clampFinite
    rcases sign_toNumeral_cases n.value.clampFinite with hsign | ⟨hsign, hnegative⟩
    · exact Or.inl (startsDigit_text hvalid hwhole hsign)
    · have hsame : n.value.clampFinite.negative = n.value.negative := by
        unfold Binary64.clampFinite
        split <;> rfl
      exact Or.inr ⟨exists_text_of_minus hsign, Or.inl (hsame ▸ hnegative)⟩

/-- A number begins with a digit or a sign, never with its point. -/
theorem write_cases (n : Numeric) :
    startsDigit n.write = true ∨ (∃ s, n.write = '+' :: s) ∨ (∃ s, n.write = '-' :: s) ∧
      (n.value.negative = true ∨ ∃ i ∈ n.integer?, i < 0) := by
  rw [n.write_eq]
  split
  · exact Or.inr (Or.inl ⟨_, rfl⟩)
  · rcases writeMagnitude_cases n with h | h
    · exact Or.inl h
    · exact Or.inr (Or.inr h)

theorem head_write_of_not_minus {m : Numeral} (hm : m.sign ≠ some .minus) :
    ∃ c s, m.toNumeric.write = c :: s ∧ c ≠ '-' := by
  have hplus : m.toNumeric.value.negative = false := by
    rw [← Bool.not_eq_true]
    exact mt negative_value_iff.1 hm
  rcases write_cases m.toNumeric with h | ⟨s, hs⟩ | ⟨_, hneg | ⟨i, hi, hneg⟩⟩
  · cases hwrite : m.toNumeric.write with
    | nil =>
      rw [hwrite] at h
      contradiction
    | cons c s =>
      rw [hwrite] at h
      refine ⟨c, s, rfl, ?_⟩
      rintro rfl
      contradiction
  · exact ⟨'+', s, hs, by decide⟩
  · rw [hplus] at hneg
    contradiction
  · exact absurd (integer?_nonneg hm i hi) (Int.not_le.2 hneg)

/-! ## Where a numeral ends

What is left behind a numeral begins with no digit, whichever part was the last. -/

theorem startsDigit_readDigits (s : List Char) : startsDigit (readDigits s).2 = false :=
  head?_dropWhile _ s

theorem startsDigit_readFraction {s : List Char} (h : startsDigit s = false) :
    startsDigit (readFraction s).2 = false := by
  unfold readFraction
  split
  · split
    · exact startsDigit_readDigits _
    · rfl
  · exact h

theorem startsDigit_readExponent {s : List Char} (h : startsDigit s = false) :
    startsDigit (readExponent s).2 = false := by
  cases s with
  | nil => rfl
  | cons c s =>
    simp only [readExponent]
    split
    · exact startsDigit_readDigits _
    · exact h

/-- No digit is left behind a numeral. -/
theorem startsDigit_readNumeral (s : List Char) : startsDigit (readNumeral s).2 = false :=
  startsDigit_readExponent (startsDigit_readFraction (startsDigit_readDigits _))

end CssLex
