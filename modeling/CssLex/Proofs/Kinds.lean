import CssLex.Proofs.Decimals
import CssLex.Proofs.Joining

/-!
# CssLex — which numbers keep their kind

An integer is written as an integer. Another number is written with a point or an exponent, but zeros behind
the point do not make it another number where it is read: what decides is whether the digits that are
written have a part behind the point that is not zero, or stand before an exponent (`Binary64.ShowsFloat`).

* `isWhole_toNumeral_iff`: of the numerals that are written, which spell integers.
* `tokenize_write_numeric`: the token of a number is read back alone, an integer as an integer, another
  number as one exactly if it shows.
-/

namespace CssLex

/-- The number is not zero, and what is written for it has an exponent or a part behind the point that is not
zero. Its shortest decimal says whether it has an exponent, the fifteen digits that are written of it whether
there is such a part. -/
def Binary64.ShowsFloat (x : Binary64) : Prop :=
  x.isZero = false ∧ (x.shortest.value < 10 ^ (-6 : ℤ) ∨ 10 ^ (21 : ℤ) ≤ x.shortest.value ∨
    ¬ ∃ k : ℤ, (x.shortest.cut 15).value = k)

/-! ## Numerals that spell integers

A numeral spells an integer if neither its digits behind the point nor those of its exponent say anything. For
the numerals that are written this is followed through the layout: an exponent that is written is never zero,
so a numeral with one is none of them. -/

/-- The mark does not make another number of an integer: its zero says nothing. -/
theorem isWhole_marked {m : Numeral} : m.marked.IsWhole ↔ m.IsWhole := by
  rcases m.marked_eq_or with hsame | ⟨hfraction, _, hmarked⟩
  · rw [hsame]
  · rw [hmarked]
    simp [Numeral.IsWhole, Silent, hfraction]

/-- An integer is written without a point and without an exponent. -/
theorem isWhole_intNumeral (i : ℤ) : (intNumeral i).IsWhole :=
  ⟨by simp [Silent, intNumeral], by simp [intNumeral]⟩

/-- An exponent is zero only where its number is. -/
theorem silent_ofInt_iff {power : ℤ} : Silent (Exponent.ofInt power).digits ↔ power = 0 := by
  show Silent (Nat.toDigits 10 power.natAbs) ↔ power = 0
  rw [silent_iff (isDigit_toDigits _), natOfDigits_toDigits, Int.natAbs_eq_zero]

/-- Where the point is laid out the digits decide, and an exponent is never zero. -/
theorem isWhole_lay_iff (d : Decimal) : (cssNumerals.lay d).IsWhole ↔
    (-6 < d.point ∧ d.point ≤ 21) ∧ ∃ k : ℤ, (d.cut 15).value = k := by
  have hplain : (Numeral.mk none (d.cut 15).stripZeros.whole (d.cut 15).stripZeros.fraction none).IsWhole ↔
      ∃ k : ℤ, (d.cut 15).value = k := by
    rw [← (d.cut 15).value_stripZeros, ← Decimal.silent_fraction_iff]
    simp [Numeral.IsWhole]
  simp only [NumeralFormat.lay]
  split
  -- laid out plainly, the digits behind the point decide
  · next hpoint =>
    have hplaces : -6 < d.point ∧ d.point ≤ 21 := hpoint
    rw [and_iff_right hplaces]
    exact hplain
  · next hpoint =>
    -- an exponent is written; it would have to be zero, and then the point would be within the bounds
    refine iff_of_false (fun hwhole => hpoint ?_) fun h => hpoint h.1
    have hpower : d.point - 1 = 0 := silent_ofInt_iff.1 (hwhole.2 _ rfl)
    show -6 < d.point ∧ d.point ≤ 21
    omega

/-- **The numeral of a number spells an integer unless it shows that it is none.** -/
theorem isWhole_toNumeral_iff (x : Binary64) : x.toNumeral.IsWhole ↔ ¬ x.ShowsFloat := by
  cases hx : x.isZero with
  | true =>
    rw [Binary64.toNumeral, if_pos hx]
    exact iff_of_true (by decide) fun hshows => by simp [Binary64.ShowsFloat, hx] at hshows
  | false =>
    -- neither the mark nor the sign makes a difference
    have hmarked : (if x.isIntegral then (cssNumerals.lay x.shortest).marked
        else cssNumerals.lay x.shortest).IsWhole ↔ (cssNumerals.lay x.shortest).IsWhole := by
      split
      · exact isWhole_marked
      · rfl
    have hnumeral : x.toNumeral.IsWhole ↔ (cssNumerals.lay x.shortest).IsWhole := by
      rw [← hmarked, Binary64.toNumeral, hx, if_neg Bool.false_ne_true]
      exact Iff.rfl
    have hdigits := Binary64.digits_shortest_ne_zero hx
    have hupper : x.shortest.point ≤ 21 ↔ x.shortest.value < 10 ^ (21 : ℤ) := by
      rw [← not_lt, Decimal.lt_point_iff hdigits, not_le]
    rw [hnumeral, isWhole_lay_iff, Decimal.lt_point_iff hdigits, hupper, Binary64.ShowsFloat]
    simp only [hx, true_and, not_or, not_lt, not_le, not_not, and_assoc]

/-! ## Tokens that are read back

The token of a number is written and read alone. That gives one token, which differs from it in the number
(`Numeric.reread`), and of the number only the numeral has to be compared. -/

/-- A number is an integer exactly if its numeral spells one. -/
theorem kind_toNumeric {m : Numeral} : m.toNumeric.kind = .integer ↔ m.IsWhole := by
  show (if m.integer?.isSome then NumericKind.integer else .float) = .integer ↔ m.IsWhole
  cases hi : m.integer? with
  | some i => exact iff_of_true rfl (Numeral.integer?_eq_some_iff.1 hi).1
  | none =>
    refine iff_of_false (by simp) fun hwhole => ?_
    rw [Numeral.integer?_eq_some_iff.2 ⟨hwhole, rfl⟩] at hi
    contradiction

theorem kind_reread {n : Numeric} (h : n.HasOneSign) :
    (n.kind = .integer → n.reread.kind = .integer) ∧
      (n.kind = .float → (n.reread.kind = .float ↔ n.value.clampFinite.ShowsFloat)) := by
  have hsign : n.numeral.IsWhole ↔ n.unsignedNumeral.IsWhole := by
    unfold Numeric.numeral
    split <;> rfl
  have hkind : n.reread.kind = .integer ↔ n.unsignedNumeral.IsWhole := by
    rw [n.reread_eq h, kind_toNumeric, hsign]
  have hfloat : n.reread.kind = .float ↔ ¬ n.unsignedNumeral.IsWhole := by
    rw [← hkind]
    cases n.reread.kind <;> simp
  rw [hkind, hfloat]
  -- an integer is written as one, any other number by its shortest digits
  unfold Numeric.unsignedNumeral Numeric.kind
  cases n.integer? with
  | some i => simp [isWhole_intNumeral]
  | none => simp [isWhole_toNumeral_iff]

/-- In either mode the tokens are those of one text. -/
theorem exists_tokensOf_of_scan {text : String} {mode : CommentMode} {scan : Scan}
    (hscan : Scan.ofText text mode = .ok scan) : ∃ s, IsNormal s ∧ scan.tokens = tokensOf s := by
  have hnormal := isNormal_normalize text.toList
  cases mode with
  | preserve =>
    obtain ⟨errors, h⟩ := scan_preserve text
    rw [h] at hscan
    exact ⟨_, hnormal, by rw [← Except.ok.inj hscan]⟩
  | strip =>
    obtain ⟨errors, h⟩ := scan_strip text
    rw [h] at hscan
    exact ⟨_, hnormal.of_sublist (value_readUncommented_sublist _), by rw [← Except.ok.inj hscan]⟩

/-- A text of a single token. -/
theorem exists_scan_of_tokensOf {text : String} {t : Token} (h : tokensOf (normalize text.toList) = [t]) :
    ∃ scan, Scan.ofText text .preserve = .ok scan ∧ t ∈ scan.tokens := by
  obtain ⟨errors, hscan⟩ := scan_preserve text
  rw [h] at hscan
  exact ⟨_, hscan, List.mem_singleton_self t⟩

/-- The tokens of a text have the form that tokens are read in, whatever was done with the comments. -/
theorem lexical_of_scan {text : String} {mode : CommentMode} {scan : Scan} {t : Token}
    (hscan : Scan.ofText text mode = .ok scan) (ht : t ∈ scan.tokens) : t.Lexical := by
  obtain ⟨s, hs, htokens⟩ := exists_tokensOf_of_scan hscan
  exact lexical_tokensOf hs t (htokens ▸ ht)

section

variable {t : Token} {n : Numeric}

/-- Alone in its text a number is read back as one token. -/
theorem tokenize_write_of_numeric (ht : t.Lexical) (hn : t.numeric? = some n) :
    tokenize (.ofList t.write) = .ok [t.reread] := by
  -- nothing is reported by a number, and none runs into the end of the text
  have hplain : t.write = t.body ∧ t.reports = [] ∧ t.Parted [] := by
    cases t with
    | number => exact ⟨rfl, rfl, rfl, rfl, by simp, by simp⟩
    | percentage => exact ⟨rfl, rfl, trivial⟩
    | dimension => exact ⟨rfl, rfl, rfl, by simp⟩
    | _ => contradiction
  obtain ⟨hbody, hreports, hparted⟩ := hplain
  obtain ⟨hvalue, hrest, hreported⟩ := readToken_body_append ht hparted
  rw [List.append_nil] at hvalue hrest hreported
  have htokens : readTokens t.body = [readToken t.body] := by
    rw [readTokens_of_ne_nil (body_ne_nil ht), hrest, readTokens_nil]
  rw [tokenize_eq_ok_iff, String.toList_ofList, hbody, normalize_eq_self (isNormal_body ht), htokens,
    List.map_singleton, hvalue, List.forall_mem_singleton, hreported]
  exact ⟨hreports, rfl⟩

/-- A token of a number that is read back has a number, and that is the number read back. -/
theorem numeric?_reread (hn : t.numeric? = some n) : t.reread.numeric? = some n.reread := by
  cases t with
  | number => rw [← Option.some.inj hn]; rfl
  | percentage => rw [← Option.some.inj hn]; rfl
  | dimension => rw [← Option.some.inj hn]; rfl
  | _ => contradiction

theorem isComment_of_numeric (hn : t.numeric? = some n) : t.isComment = false := by
  cases t with
  | comment => contradiction
  | _ => rfl

/-- It differs from that token in the number alone. -/
theorem exists_tokenize_write (ht : t.Lexical) (hn : t.numeric? = some n) :
    ∃ u, tokenize (.ofList t.write) = .ok [u] ∧ u.forgetNumber = t.forgetNumber ∧
      u.numeric? = some n.reread :=
  ⟨t.reread, tokenize_write_of_numeric ht hn, forgetNumber_reread (isComment_of_numeric hn),
    numeric?_reread hn⟩

/-- Only one number can be read from what is written, so what a single token says is known. -/
theorem eq_reread_of_tokenize_write {u : Token} {m : Numeric} (ht : t.Lexical) (hn : t.numeric? = some n)
    (hread : tokenize (.ofList t.write) = .ok [u]) (hm : u.numeric? = some m) : m = n.reread := by
  rw [tokenize_write_of_numeric ht hn] at hread
  have hu : t.reread = u := (List.cons.inj (Except.ok.inj hread)).1
  rw [← hu, numeric?_reread hn] at hm
  exact (Option.some.inj hm).symm

/-- A number that was read has at most one sign in front of it, so it is written with at most one. -/
theorem Token.Lexical.hasOneSign (ht : t.Lexical) (hn : t.numeric? = some n) : n.HasOneSign := by
  cases t with
  | number => exact Option.some.inj hn ▸ ht
  | percentage => exact Option.some.inj hn ▸ ht
  | dimension => exact Option.some.inj hn ▸ ht.1
  | _ => contradiction

end

/-- **A number is read back as one token of its kind of token**, an integer as an integer, and another number
as one exactly if it shows: those that are written with nothing but zeros behind the point come back as
integers. -/
theorem tokenize_write_numeric {text : String} {mode : CommentMode} {scan : Scan} {t : Token}
    {n : Numeric} (hscan : Scan.ofText text mode = .ok scan) (ht : t ∈ scan.tokens)
    (hn : t.numeric? = some n) :
    ∃ u m, tokenize (.ofList t.write) = .ok [u] ∧ u.forgetNumber = t.forgetNumber ∧
      u.numeric? = some m ∧ (n.kind = .integer → m.kind = .integer) ∧
        (n.kind = .float → (m.kind = .float ↔ n.value.clampFinite.ShowsFloat)) := by
  have hlexical := lexical_of_scan hscan ht
  obtain ⟨u, hread, hsame, hu⟩ := exists_tokenize_write hlexical hn
  exact ⟨u, n.reread, hread, hsame, hu, kind_reread (hlexical.hasOneSign hn)⟩

/-- Ten, written with an exponent, is no integer; it is written as `10.0`, which is one. -/
theorem not_tokenize_write_keeps_kind :
    ¬ ∀ text scan t n, Scan.ofText text .preserve = .ok scan → t ∈ scan.tokens → t.numeric? = some n →
      ∃ u m, tokenize (.ofList t.write) = .ok [u] ∧ u.forgetNumber = t.forgetNumber ∧
        u.numeric? = some m ∧ m.kind = n.kind := by
  intro h
  let n := (Numeral.mk none ['1'] [] (some ⟨'e', none, ['1']⟩)).toNumeric
  have htokens : tokensOf (normalize "1e1".toList) = [.number n] := by decide +kernel
  obtain ⟨scan, hscan, hmem⟩ := exists_scan_of_tokensOf htokens
  obtain ⟨u, m, hread, _, hm, hkind⟩ := h _ scan _ n hscan hmem rfl
  -- what is read is known, and it is an integer
  rw [eq_reread_of_tokenize_write (lexical_of_scan hscan hmem) rfl hread hm] at hkind
  have hinteger : n.reread.kind = .integer := by decide +kernel
  have hfloat : n.kind = .float := by decide +kernel
  rw [hinteger, hfloat] at hkind
  contradiction

/-- A number that is so great that it takes an exponent. -/
theorem tokenize_write_numeric_of_exponent :
    ∃ scan t n, Scan.ofText "1e30px" .preserve = .ok scan ∧ t ∈ scan.tokens ∧ t.numeric? = some n ∧
      n.kind = .float ∧ n.value.clampFinite.ShowsFloat ∧
      ∃ u m, tokenize (.ofList t.write) = .ok [u] ∧ u.forgetNumber = t.forgetNumber ∧
        u.numeric? = some m ∧ m.kind = .float := by
  let n := (Numeral.mk none ['1'] [] (some ⟨'e', none, ['3', '0']⟩)).toNumeric
  have htokens : tokensOf (normalize "1e30px".toList) = [.dimension n "px"] := by decide +kernel
  obtain ⟨scan, hscan, hmem⟩ := exists_scan_of_tokensOf htokens
  have hfloat : n.kind = .float := by decide +kernel
  have hshows : n.value.clampFinite.ShowsFloat := by
    -- it has one digit, and thirty places before the point
    have hshortest : n.value.clampFinite.shortest = ⟨1, 30⟩ := by decide +kernel
    refine ⟨by decide +kernel, Or.inr (Or.inl ?_)⟩
    rw [hshortest, Decimal.value, Nat.cast_one, one_mul]
    exact zpow_le_zpow_right₀ (by norm_num) (by norm_num)
  obtain ⟨u, m, hread, hsame, hm, _, hkind⟩ := tokenize_write_numeric hscan hmem rfl
  exact ⟨scan, _, n, hscan, hmem, rfl, hfloat, hshows, u, m, hread, hsame, hm, (hkind hfloat).2 hshows⟩

end CssLex
