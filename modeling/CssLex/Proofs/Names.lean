import CssLex.Proofs.Reads

/-!
# CssLex — names are read back

An escape that stands for one code point whatever follows it (`EscapeSpells`) can be put anywhere, in names
as well as in strings and urls. Both escapes that are written are of this kind: the hexadecimal one because
its space closes it, the other because no hexadecimal digit is escaped by itself.

A text that spells a name (`SpellsName`) is read as that name where the name cannot go on behind it.
`writeName`, `writeIdent` and `writeUnit` spell the name they are given, unless NUL is in it.
-/

namespace CssLex

/-! ## Hexadecimal digits

An escape by number is written with `Nat.toDigits` and read with `hexValue`. Each undoes the other, digit by
digit. -/

/-- There are sixteen digits, and each is read as what it was written for. -/
theorem hexDigitValue_digitChar {d : Nat} (hd : d < 16) : hexDigitValue d.digitChar = d := by
  have hall : ∀ d < 16, hexDigitValue (Nat.digitChar d) = d := by decide
  exact hall d hd

theorem isHexDigit_digitChar {d : Nat} (hd : d < 16) : isHexDigit d.digitChar = true := by
  have hall : ∀ d < 16, isHexDigit (Nat.digitChar d) = true := by decide
  exact hall d hd

/-- A digit at the end counts the others sixteenfold. -/
theorem hexValue_append_singleton (s : List Char) (c : Char) :
    hexValue (s ++ [c]) = 16 * hexValue s + hexDigitValue c := by
  simp [hexValue]

/-- Hexadecimal digits are the digits of what they are written for. -/
theorem toDigits_sixteen (n : Nat) :
    hexValue (Nat.toDigits 16 n) = n ∧ ∀ c ∈ Nat.toDigits 16 n, isHexDigit c = true := by
  -- by the recursion of `Nat.toDigits`: one digit, or those of the quotient and one for the remainder
  rcases Nat.lt_or_ge n 16 with hn | hn
  · rw [Nat.toDigits_of_lt_base hn]
    constructor
    · have hvalue := hexDigitValue_digitChar hn
      simpa [hexValue] using hvalue
    · intro c hc
      rw [List.mem_singleton.1 hc]
      exact isHexDigit_digitChar hn
  · have hmod : n % 16 < 16 := Nat.mod_lt n (by decide)
    obtain ⟨hvalue, hdigits⟩ := toDigits_sixteen (n / 16)
    rw [Nat.toDigits_of_base_le (by decide) hn]
    constructor
    · rw [hexValue_append_singleton, hvalue, hexDigitValue_digitChar hmod]
      omega
    · intro c hc
      rcases List.mem_append.1 hc with hc | hc
      · exact hdigits c hc
      · rw [List.mem_singleton.1 hc]
        exact isHexDigit_digitChar hmod

/-! ## NUL

NUL has no spelling: where it would have to be written, what is read back is the replacement character. -/

/-- The code point that is read back where this one is written. -/
def withoutNul (c : Char) : Char :=
  if c = '\x00' then replacementChar else c

theorem withoutNul_of_ne {c : Char} (hc : c ≠ '\x00') : withoutNul c = c :=
  if_neg hc

theorem withoutNul_ne (c : Char) : withoutNul c ≠ '\x00' := by
  unfold withoutNul
  split
  · decide
  · assumption

/-- A text that has been read back has no NUL, so it can be written once more without a change. -/
theorem not_mem_map_withoutNul (s : List Char) : '\x00' ∉ s.map withoutNul := by
  rw [List.mem_map]
  rintro ⟨c, _, hc⟩
  exact withoutNul_ne c hc

theorem map_withoutNul_of_not_mem {s : List Char} (hs : '\x00' ∉ s) : s.map withoutNul = s := by
  refine (List.map_congr_left fun c hc => ?_).trans (List.map_id s)
  exact withoutNul_of_ne fun h => hs (h ▸ hc)

/-- The text with the replacement character for every NUL. -/
def replaceNul (text : String) : String :=
  .ofList (text.toList.map withoutNul)

theorem toList_replaceNul (text : String) : (replaceNul text).toList = text.toList.map withoutNul :=
  String.toList_ofList

/-- The number of a code point is read as the code point, but for NUL. -/
theorem scalarOf_toNat (c : Char) : scalarOf c.toNat = withoutNul c := by
  by_cases hc : c = '\x00'
  · rw [hc]
    rfl
  · have hzero : c.toNat ≠ 0 := by
      intro h
      apply hc
      rw [← Char.ofNat_toNat c, h]
    have hvalid : c.toNat.isValidChar := c.valid
    rw [withoutNul_of_ne hc]
    simp [scalarOf, hzero, hvalid]

/-! ## Escapes

An escape that is written has to be read as the same code point in front of any text. For digits that is what
the space behind them is for. -/

/-- What stands behind the backslash spells the code point, whatever follows. -/
def EscapeSpells (e : List Char) (c : Char) : Prop :=
  e ≠ [] ∧ e.head? ≠ some '\n' ∧ ∀ s, readEscape (e ++ s) = ⟨c, s, .taking e⟩

/-- Digits with a space behind them spell their code point, whatever follows. -/
theorem escapeSpells_number (c : Char) :
    EscapeSpells (Nat.toDigits 16 c.toNat ++ [' ']) (withoutNul c) := by
  obtain ⟨hvalue, hdigits⟩ := toDigits_sixteen c.toNat
  -- six digits are enough for every code point
  have hlength : (Nat.toDigits 16 c.toNat).length ≤ 6 := by
    rw [Nat.length_toDigits_le_iff (by decide) (by decide)]
    have hvalid := c.valid
    simp only [UInt32.isValidChar, Nat.isValidChar] at hvalid
    show c.val.toNat < _
    omega
  have hne : Nat.toDigits 16 c.toNat ≠ [] := Nat.toDigits_ne_nil
  generalize Nat.toDigits 16 c.toNat = digits at hvalue hdigits hlength hne
  refine ⟨by simp, ?_, fun s => ?_⟩
  · cases digits with
    | nil => exact absurd rfl hne
    | cons d digits =>
      have hd := hdigits d List.mem_cons_self
      simp only [List.cons_append, List.head?_cons, ne_eq, Option.some.injEq]
      rintro rfl
      contradiction
  · -- the space stops the digits, and is the whitespace that belongs to them
    have hstop : ((' ' :: s).take (6 - digits.length)).takeWhile isHexDigit = [] := by
      cases 6 - digits.length with
      | zero => rfl
      | succ n => rfl
    have hrun : ((digits ++ ' ' :: s).take 6).takeWhile isHexDigit = digits := by
      rw [List.take_append, List.take_of_length_le hlength,
        List.takeWhile_append_of_pos hdigits, hstop, List.append_nil]
    cases digits with
    | nil => exact absurd rfl hne
    | cons d digits =>
      have hd := hdigits d List.mem_cons_self
      have hread : readEscape (d :: (digits ++ ' ' :: s)) =
          ⟨scalarOf (hexValue (d :: digits)), s, .taking (d :: digits ++ [' '])⟩ := by
        rw [List.cons_append] at hrun
        simp only [readEscape, hd, if_true, hrun]
        have hdrop : (d :: digits ++ ' ' :: s).drop (d :: digits).length = ' ' :: s := List.drop_left
        rw [List.cons_append] at hdrop
        rw [hdrop]
        rfl
      rw [List.append_assoc, List.cons_append, List.singleton_append, hread, hvalue,
        scalarOf_toNat]

/-- A code point other than NUL is spelled by its number. -/
theorem escapeSpells_hex {c : Char} (hc : c ≠ '\x00') :
    EscapeSpells (Nat.toDigits 16 c.toNat ++ [' ']) c := by
  have hspells := escapeSpells_number c
  rwa [withoutNul_of_ne hc] at hspells

/-- A code point that is neither a digit nor a newline is spelled by itself. -/
theorem escapeSpells_char {c : Char} (hhex : isHexDigit c = false) (hline : c ≠ '\n') :
    EscapeSpells [c] c := by
  refine ⟨by simp, by simpa using hline, fun s => ?_⟩
  simp [readEscape, hhex, Trace.taking]

/-! ## Names

A spelling of a name is made of name code points and such escapes. It is read as the front of a name, so where
the name stops behind it, it is the name. -/

/-- The text is read as the name where it stands alone. -/
inductive SpellsName : List Char → List Char → Prop where
  | nil : SpellsName [] []
  | char {c : Char} {w n : List Char} (hc : isNameChar c = true) (hw : SpellsName w n) :
      SpellsName (c :: w) (c :: n)
  | escape {e : List Char} {c : Char} {w n : List Char} (he : EscapeSpells e c)
      (hw : SpellsName w n) : SpellsName ('\\' :: (e ++ w)) (c :: n)

/-- Behind a backslash such a text makes an escape, for it is not empty and begins with no newline. -/
theorem startsEscape_of_spells {e : List Char} {c : Char} (he : EscapeSpells e c) (s : List Char) :
    startsEscape ('\\' :: (e ++ s)) = true := by
  obtain ⟨hne, hline, _⟩ := he
  cases e with
  | nil => contradiction
  | cons d e => simpa [startsEscape] using hline

/-- What spells a name is read as the front of one. -/
theorem SpellsName.readName_front {w n : List Char} (h : SpellsName w n) (r : List Char) :
    readName (w ++ r) = ((readName r).map (n ++ ·)).after (.taking w) := by
  induction h with
  | nil => rfl
  | @char c w n hc hw ih =>
    rw [List.cons_append, readName, if_pos hc, ih]
    rfl
  | @escape e c w n he hw ih =>
    have hback : isNameChar '\\' = false := by decide
    rw [List.cons_append, List.append_assoc, readName, hback, startsEscape_of_spells he, he.2.2]
    simp [ih, Reading.map, Reading.after, Trace.taking]

theorem readName_of_not_startsName {s : List Char} (h : startsName s = false) :
    readName s = ⟨[], s, []⟩ := by
  cases s with
  | nil =>
    rw [readName]
  | cons c s =>
    simp only [startsName, List.head?_cons, Option.any_some, Bool.or_eq_false_iff] at h
    rw [readName, h.1, h.2]
    rfl

/-- Where no name goes on behind it, it is all that is read. -/
theorem SpellsName.readName_append {w n : List Char} (h : SpellsName w n) {r : List Char}
    (hr : startsName r = false) : readName (w ++ r) = ⟨n, r, .taking w⟩ := by
  rw [h.readName_front, readName_of_not_startsName hr]
  simp [Reading.map, Reading.after]

/-- The two hyphens of a `-->` are read as a name where one is asked for. -/
theorem readName_arrow (s : List Char) :
    readName ('-' :: '-' :: '>' :: s) = ⟨['-', '-'], '>' :: s, .taking ['-', '-']⟩ := by
  have hspells : SpellsName ['-', '-'] ['-', '-'] := .char (by decide) (.char (by decide) .nil)
  exact hspells.readName_append (r := '>' :: s) rfl

theorem SpellsName.append {v w m n : List Char} (hv : SpellsName v m) (hw : SpellsName w n) :
    SpellsName (v ++ w) (m ++ n) := by
  induction hv with
  | nil => exact hw
  | char hc _ ih => exact .char hc ih
  | escape he _ ih =>
    rw [List.cons_append, List.append_assoc]
    exact .escape he ih

/-! ## Writing spells

Each writer of names gives a spelling of its name, from the code point to the identifier and the unit. NUL has
to be left out, as it has no spelling. -/

theorem spellsName_hex {c : Char} (hc : c ≠ '\x00') : SpellsName (escapeAsHex c) [c] := by
  have h := SpellsName.escape (escapeSpells_hex hc) .nil
  rwa [List.append_nil] at h

/-- Hexadecimal digits are name code points, so none of them is escaped by itself. -/
theorem isNameChar_of_isHexDigit {c : Char} (h : isHexDigit c = true) : isNameChar c = true := by
  simp only [isHexDigit, Bool.or_eq_true, Bool.and_eq_true, decide_eq_true_eq] at h
  have hletter (hc : c.isAlpha = true) : isNameChar c = true := by
    simp [isNameChar, isNameStart, hc]
  rcases h with (hdigit | ⟨hlow, hhigh⟩) | ⟨hlow, hhigh⟩
  · exact isNameChar_of_isDigit hdigit
  · have hlow : 65 ≤ c.toNat := hlow
    have hhigh : c.toNat ≤ 70 := hhigh
    exact hletter (isAlpha_iff.2 (by omega))
  · have hlow : 97 ≤ c.toNat := hlow
    have hhigh : c.toNat ≤ 102 := hhigh
    exact hletter (isAlpha_iff.2 (by omega))

/-- A code point that is written plainly, by number or behind a backslash: each is a spelling. -/
theorem spellsName_writeNameChar {c : Char} (hc : c ≠ '\x00') :
    SpellsName (writeNameChar c) [c] := by
  unfold writeNameChar
  by_cases hname : isNameChar c = true
  · rw [if_pos hname]
    exact .char hname .nil
  · rw [if_neg hname, if_neg hc]
    split
    · exact spellsName_hex hc
    · next hcontrol =>
      have hline : c ≠ '\n' := by
        rintro rfl
        exact hcontrol (by decide)
      have hhex : isHexDigit c = false := by
        rw [Bool.eq_false_iff]
        exact fun h => hname (isNameChar_of_isHexDigit h)
      exact .escape (escapeSpells_char hhex hline) .nil

theorem spellsName_writeName {n : List Char} (hn : '\x00' ∉ n) : SpellsName (writeName n) n := by
  induction n with
  | nil => exact .nil
  | cons c n ih =>
    simp only [List.mem_cons, not_or] at hn
    exact (spellsName_writeNameChar (Ne.symm hn.1)).append (ih hn.2)

/-- A digit at the front is written by its number, which spells it as well. -/
theorem spellsName_writeNoDigitFirst {n : List Char} (hn : '\x00' ∉ n) :
    SpellsName (writeNoDigitFirst n) n := by
  cases n with
  | nil => exact .nil
  | cons c n =>
    have hname := spellsName_writeName hn
    simp only [List.mem_cons, not_or] at hn
    rw [writeNoDigitFirst]
    split
    · exact (spellsName_hex (Ne.symm hn.1)).append (spellsName_writeName hn.2)
    · exact hname

theorem spellsName_writeIdent {n : List Char} (hn : '\x00' ∉ n) :
    SpellsName (writeIdent n) n := by
  have hhyphen : isNameChar '-' = true := by decide
  fun_cases writeIdent n with
  -- a lone hyphen, two hyphens, one hyphen, none
  | case1 => exact .escape (escapeSpells_char (by decide) (by decide)) .nil
  | case2 s =>
    exact .char hhyphen (.char hhyphen (spellsName_writeName (by simp_all)))
  | case3 s => exact .char hhyphen (spellsName_writeNoDigitFirst (by simp_all))
  | case4 s => exact spellsName_writeNoDigitFirst hn

/-- A unit, with an `e` in front of digits written by its number. -/
theorem spellsName_writeUnit {n : List Char} (hn : '\x00' ∉ n) :
    SpellsName (writeUnit n) n := by
  cases n with
  | nil => exact .nil
  | cons c n =>
    have hident := spellsName_writeIdent hn
    simp only [List.mem_cons, not_or] at hn
    rw [writeUnit]
    split
    · exact (spellsName_hex (Ne.symm hn.1)).append (spellsName_writeName hn.2)
    · exact hident

/-! ## What is written for NUL

NUL is written as the replacement character would be. So a text and what is read back for it are written
alike, and it is enough to know what is written for texts without NUL. -/

/-- A code point is written as what is read back for it. -/
theorem writeNameChar_withoutNul (c : Char) : writeNameChar (withoutNul c) = writeNameChar c := by
  by_cases hc : c = '\x00'
  · rw [hc]
    decide
  · rw [withoutNul_of_ne hc]

theorem writeName_map_withoutNul (n : List Char) : writeName (n.map withoutNul) = writeName n := by
  rw [writeName, writeName, List.flatMap_map, funext writeNameChar_withoutNul]

/-- The rule for digits asks of the front only whether it is a digit. -/
theorem writeNoDigitFirst_map_withoutNul (n : List Char) :
    writeNoDigitFirst (n.map withoutNul) = writeNoDigitFirst n := by
  cases n with
  | nil => rfl
  | cons c n =>
    have hname := writeName_map_withoutNul (c :: n)
    by_cases hc : c = '\x00'
    · -- neither NUL nor what stands for it is a digit
      rw [hc] at hname ⊢
      exact hname
    · rw [List.map_cons, withoutNul_of_ne hc] at hname ⊢
      rw [writeNoDigitFirst, writeNoDigitFirst, hname, writeName_map_withoutNul]

/-- What is read back as a hyphen was one. -/
theorem eq_hyphen_of_withoutNul {c : Char} (h : withoutNul c = '-') : c = '-' := by
  by_cases hc : c = '\x00'
  · rw [hc] at h
    contradiction
  · rwa [withoutNul_of_ne hc] at h

/-- The rule for hyphens asks only for hyphens. -/
theorem writeIdent_map_withoutNul (n : List Char) :
    writeIdent (n.map withoutNul) = writeIdent n := by
  -- the map makes no hyphen, so the same rule applies to both
  fun_cases writeIdent n with
  | case1 => rfl
  | case2 s =>
    show '-' :: '-' :: writeName (s.map withoutNul) = _
    rw [writeName_map_withoutNul]
  | case3 s hs hs' =>
    show writeIdent ('-' :: s.map withoutNul) = _
    rw [writeIdent, writeNoDigitFirst_map_withoutNul]
    · intro hnil
      exact hs (List.map_eq_nil_iff.1 hnil)
    · intro t ht
      obtain ⟨c, u, rfl, hc, _⟩ := List.map_eq_cons_iff.1 ht
      exact hs' u (congrArg (· :: u) (eq_hyphen_of_withoutNul hc))
  | case4 n hn hn' hn'' =>
    have hplain (t : List Char) : n.map withoutNul ≠ '-' :: t := by
      intro ht
      obtain ⟨c, u, rfl, hc, _⟩ := List.map_eq_cons_iff.1 ht
      exact hn'' u (congrArg (· :: u) (eq_hyphen_of_withoutNul hc))
    rw [writeIdent, writeNoDigitFirst_map_withoutNul]
    · exact hplain _
    · exact fun t => hplain _
    · exact hplain

/-! ## Where a written name begins

A name must also be recognised where it begins: an identifier by its first code points, so that it is taken
neither for a number nor for the end of an old-style comment. -/

/-- A spelling that is not empty begins a name. -/
theorem SpellsName.startsName_append {w n : List Char} (h : SpellsName w n) (hn : n ≠ [])
    (r : List Char) : startsName (w ++ r) = true := by
  cases h with
  | nil => contradiction
  | char hc => simp [startsName, hc]
  | escape he =>
    rw [List.cons_append, List.append_assoc, startsName, startsEscape_of_spells he, Bool.or_true]

/-- What is written for a code point begins with the code point or with an escape. -/
theorem writeNameChar_append_cases {c : Char} (hc : c ≠ '\x00') (s : List Char) :
    (isNameChar c = true ∧ writeNameChar c ++ s = c :: s) ∨
      startsEscape (writeNameChar c ++ s) = true := by
  have hspells := spellsName_writeNameChar hc
  by_cases hname : isNameChar c = true
  · left
    simp [writeNameChar, hname]
  · right
    generalize writeNameChar c = w at hspells
    cases hspells with
    | char hc => contradiction
    | escape he =>
      rw [List.cons_append, List.append_assoc]
      exact startsEscape_of_spells he _

/-- What goes on with a name begins one, unless it is a digit or a hyphen. -/
theorem isNameStart_of_isNameChar {c : Char} (h : isNameChar c = true) (hdigit : c.isDigit = false)
    (hhyphen : c ≠ '-') : isNameStart c = true := by
  simpa [isNameChar, hdigit, hhyphen] using h

/-- In front of a name that keeps its digits away stands a code point that is no digit, or an escape. -/
theorem writeNoDigitFirst_append_cases {c : Char} {n : List Char} (hc : c ≠ '\x00') (r : List Char) :
    (isNameChar c = true ∧ c.isDigit = false ∧
        writeNoDigitFirst (c :: n) ++ r = c :: (writeName n ++ r)) ∨
      startsEscape (writeNoDigitFirst (c :: n) ++ r) = true := by
  rw [writeNoDigitFirst]
  split
  · right
    rw [escapeAsHex, List.append_assoc, List.cons_append, List.cons_append]
    exact startsEscape_of_spells (escapeSpells_hex hc) _
  · next hdigit =>
    rw [Bool.not_eq_true] at hdigit
    rw [writeName, List.flatMap_cons, List.append_assoc]
    rcases writeNameChar_append_cases hc (n.flatMap writeNameChar ++ r) with ⟨hname, heq⟩ | hescape
    · exact Or.inl ⟨hname, hdigit, heq⟩
    · exact Or.inr hescape

/-- Behind a hyphen and at the front of an identifier stands a letter or an escape. -/
theorem begins_writeNoDigitFirst {c : Char} {n : List Char} (hc : c ≠ '\x00') (hhyphen : c ≠ '-')
    (r : List Char) :
    (writeNoDigitFirst (c :: n) ++ r).head?.any isNameStart = true ∨
      startsEscape (writeNoDigitFirst (c :: n) ++ r) = true := by
  rcases writeNoDigitFirst_append_cases (n := n) hc r with ⟨hname, hdigit, heq⟩ | hescape
  · left
    rw [heq]
    exact isNameStart_of_isNameChar hname hdigit hhyphen
  · exact Or.inr hescape

/-- Such a beginning is enough for an identifier. -/
theorem startsIdent_of_begins {w : List Char}
    (h : w.head?.any isNameStart = true ∨ startsEscape w = true) : startsIdent w = true := by
  cases w with
  | nil => simp [startsEscape] at h
  | cons d w =>
    rw [startsIdent_cons_iff]
    rcases h with h | h
    · exact Or.inl h
    · exact Or.inr (Or.inl h)

/-- What is written for a name never begins with the `>` that would make a `-->` of two hyphens. -/
theorem head?_writeName_append_ne {n : List Char} (hne : n ≠ []) (h0 : '\x00' ∉ n) (r : List Char) :
    (writeName n ++ r).head? ≠ some '>' := by
  cases n with
  | nil => contradiction
  | cons d n =>
    have hd : d ≠ '\x00' := (List.ne_of_not_mem_cons h0).symm
    rw [writeName, List.flatMap_cons, List.append_assoc]
    rcases writeNameChar_append_cases hd (n.flatMap writeNameChar ++ r) with ⟨hname, heq⟩ | hescape
    · rw [heq]
      rintro h
      obtain rfl : d = '>' := by simpa using h
      contradiction
    · obtain ⟨t, ht, _⟩ := startsEscape_iff.1 hescape
      simp [ht]

/-- What is written for an identifier begins one, if it is not taken for the front of a `-->`. -/
theorem startsIdent_writeIdent {n r : List Char} (hne : n ≠ []) (h0 : '\x00' ∉ n)
    (hr : n = ['-', '-'] → r.head? ≠ some '>') : startsIdent (writeIdent n ++ r) = true := by
  fun_cases writeIdent n with
  | case1 => rfl
  | case2 s =>
    -- two hyphens begin an identifier unless a `>` follows, and none is written for a name
    rw [List.cons_append, List.cons_append, startsIdent, bne_iff_ne]
    by_cases hs : s = []
    · subst hs
      exact hr rfl
    · have hs0 : '\x00' ∉ s := List.not_mem_of_not_mem_cons (List.not_mem_of_not_mem_cons h0)
      exact head?_writeName_append_ne hs hs0 r
  | case3 s hs hs' =>
    cases s with
    | nil => exact absurd rfl hs
    | cons d s =>
      have hd : d ≠ '\x00' := (List.ne_of_not_mem_cons (List.not_mem_of_not_mem_cons h0)).symm
      have hhyphen : d ≠ '-' := by
        rintro rfl
        exact hs' s rfl
      -- what follows the hyphen would begin an identifier by itself
      rw [List.cons_append, startsIdent_cons_iff]
      right; right
      refine ⟨rfl, ?_⟩
      rcases begins_writeNoDigitFirst (n := s) hd hhyphen r with h | h
      · exact Or.inl h
      · exact Or.inr (Or.inl h)
  | case4 s hs hs' hs'' =>
    cases n with
    | nil => contradiction
    | cons c n =>
      have hc : c ≠ '\x00' := (List.ne_of_not_mem_cons h0).symm
      have hhyphen : c ≠ '-' := by
        rintro rfl
        exact hs'' n rfl
      exact startsIdent_of_begins (begins_writeNoDigitFirst hc hhyphen r)

/-- A unit begins an identifier as its name does, and by number an escape does. -/
theorem startsIdent_writeUnit {n r : List Char} (hne : n ≠ []) (h0 : '\x00' ∉ n)
    (hr : n = ['-', '-'] → r.head? ≠ some '>') : startsIdent (writeUnit n ++ r) = true := by
  cases n with
  | nil => contradiction
  | cons c n =>
    rw [writeUnit]
    split
    · have hc : c ≠ '\x00' := (List.ne_of_not_mem_cons h0).symm
      rw [escapeAsHex, List.append_assoc, List.cons_append, List.cons_append, startsIdent_cons_iff]
      exact Or.inr (Or.inl (startsEscape_of_spells (escapeSpells_hex hc) _))
    · exact startsIdent_writeIdent hne h0 hr

end CssLex
