import CssLex.Proofs.Answering
import CssLex.Proofs.Grammar

/-!
# CssLex — which urls are damaged, and where reading goes on

An unquoted url is decided by its longest front of code points that may stand in it and of escapes
(`LongestItems`), the whitespace behind that, and what comes then (`UrlEnds`). Where the url is damaged, what
is skipped ends with the first closing parenthesis that is no part of an escape (`SkipsTo`). Both the url and
what is skipped of it are items of a class, read by readers of one form (`Items.read_append`).

* `UrlMeans`: what stands behind `url(`, said without the readers.
* `Lexer.takes_unquotedUrl`: it always means something, and that is what the call takes.
-/

namespace CssLex

/-! ## Items

The items of a url and the items of what is skipped differ only in their class of code points, so both are
defined and read once for any class (`Items.read_append`). -/

/-- Code points of a class and escapes in front of `r`, with the text that they stand for. They are cut off
if the last is a lone backslash at the end of the text, which stands for the replacement character. -/
inductive Items (p : Char → Bool) : List Char → List Char → Bool → List Char → Prop where
  | nil {r : List Char} : Items p [] [] false r
  | char {c : Char} {w v r : List Char} {cut : Bool} (hc : p c = true)
      (hescape : startsEscape (c :: (w ++ r)) = false) (hw : Items p w v cut r) :
      Items p (c :: w) (c :: v) cut r
  | escape {e w v r : List Char} {c : Char} {cut : Bool} (hne : e ≠ []) (he : EscapeText e c (w ++ r))
      (hescape : startsEscape ('\\' :: (e ++ (w ++ r))) = true) (hw : Items p w v cut r) :
      Items p ('\\' :: (e ++ w)) (c :: v) cut r
  | lone : Items p ['\\'] [replacementChar] true []

/-- Items of the class, and no longer front of the text is made of such. -/
structure LongestItems (p : Char → Bool) (b v : List Char) (cut : Bool) (r : List Char) : Prop where
  items : Items p b v cut r
  longest {b' v' : List Char} {cut' : Bool} {r' : List Char} (h : Items p b' v' cut' r')
    (heq : b' ++ r' = b ++ r) : b'.length ≤ b.length

/-- The error of a backslash that the end of the text cuts off. -/
def cutRemarks (cut : Bool) : List (Nat × ErrorKind) :=
  if cut then [(0, .escapedEnd)] else []

section

variable {p : Char → Bool} {b v r : List Char} {cut : Bool}

/-- A backslash is cut off by the end of the text only. -/
theorem Items.eq_false_of_ne_nil (h : Items p b v cut r) (hr : r ≠ []) : cut = false := by
  induction h with
  | nil => rfl
  | char _ _ _ ih => exact ih hr
  | escape _ _ _ _ ih => exact ih hr
  | lone => contradiction

/-- Behind items that neither an escape nor the class can go on, no others go further. -/
theorem Items.length_le (h : Items p b v cut r) (hstops : startsEscape r = false)
    (hr : r.head?.any p = false) {b' v' r' : List Char} {cut' : Bool} (h' : Items p b' v' cut' r')
    (heq : b' ++ r' = b ++ r) : b'.length ≤ b.length := by
  -- both begin with the same item: what begins an escape is no item by itself
  induction h generalizing b' v' cut' with
  | nil =>
    -- an item more would begin what follows
    rw [List.nil_append] at heq
    cases h' with
    | nil => exact Nat.le_refl 0
    | char hc =>
      rw [← heq, List.cons_append, List.head?_cons, Option.any_some, hc] at hr
      contradiction
    | escape _ _ hescape =>
      rw [← heq, List.cons_append, List.append_assoc, hescape] at hstops
      contradiction
    | lone =>
      rw [← heq] at hstops
      contradiction
  | @char c w _ _ _ hc hplain hw ih =>
    cases h' with
    | nil => exact Nat.zero_le _
    | char _ _ hw' =>
      have hle := ih hstops hr hw' (List.cons.inj heq).2
      exact Nat.succ_le_succ hle
    | escape _ _ hescape =>
      rw [← List.cons_append, ← heq, List.cons_append, List.append_assoc, hescape] at hplain
      contradiction
    | lone =>
      rw [← List.cons_append, ← heq] at hplain
      contradiction
  | @escape e w _ _ _ _ hne he hescape hw ih =>
    rw [List.cons_append, List.append_assoc] at heq
    cases h' with
    | nil => exact Nat.zero_le _
    | char _ hplain =>
      rw [← heq, List.cons_append, hplain] at hescape
      contradiction
    | escape _ he' _ hw' =>
      rw [List.cons_append, List.append_assoc] at heq
      obtain ⟨rfl, hrest⟩ := he.append_cancel he' (List.cons.inj heq).2
      have hle := ih hstops hr hw' hrest
      simp only [List.length_cons, List.length_append]
      omega
    | lone =>
      have hnil := (List.cons.inj heq).2.symm
      exact absurd (List.append_eq_nil_iff.1 hnil).1 hne
  | lone =>
    rw [List.append_nil] at heq
    have hlength := congrArg List.length heq
    rw [List.length_append] at hlength
    exact Nat.le.intro hlength

/-- So items up to where they stop are the longest front. -/
theorem Items.longestItems (h : Items p b v cut r) (hstops : startsEscape r = false)
    (hr : r.head?.any p = false) : LongestItems p b v cut r :=
  ⟨h, fun h' heq => h.length_le hstops hr h' heq⟩

end

/-- Every text begins with items up to where they stop. -/
theorem exists_items (p : Char → Bool) (s : List Char) :
    ∃ b v cut r, b ++ r = s ∧ Items p b v cut r ∧ startsEscape r = false ∧ r.head?.any p = false := by
  cases s with
  | nil => exact ⟨[], [], false, [], rfl, .nil, rfl, rfl⟩
  | cons c s =>
    cases hescape : startsEscape (c :: s) with
    | true =>
      -- what the escape takes spells it, and what it leaves begins with items again
      have hle := length_rest_readEscape_le s
      obtain ⟨b, v, cut, r, hb, hitems, hstops⟩ := exists_items p (readEscape s).rest
      obtain ⟨rfl, he, hline⟩ := escapeText_of_startsEscape hescape hb
      cases s with
      | nil => exact ⟨['\\'], _, true, [], rfl, .lone, rfl, rfl⟩
      | cons d t =>
        obtain ⟨e, htaken⟩ := taken_readEscape_cons (d := d) (t := t)
        have hne : Trace.taken (readEscape (d :: t)).trace ≠ [] := by
          rw [htaken]
          exact List.cons_ne_nil d e
        refine ⟨_, _, cut, r, ?_, .escape hne he (startsEscape_iff.2 ⟨_, rfl, hline⟩) hitems, hstops⟩
        rw [List.cons_append, List.append_assoc, hb, readEscape_splits]
    | false =>
      cases hc : p c with
      | true =>
        obtain ⟨b, v, cut, r, rfl, hitems, hstops⟩ := exists_items p s
        exact ⟨c :: b, c :: v, cut, r, rfl, .char hc hescape hitems, hstops⟩
      | false => exact ⟨[], [], false, c :: s, rfl, .nil, hescape, by simpa using hc⟩
termination_by s.length
decreasing_by
  all_goals
    simp only [List.length_cons] at *
    omega

/-- A reader that takes items one by one takes them before all else. What it reports of them is the
backslash that the end of the text cuts off. -/
theorem Items.read_append {α : Type} {p : Char → Bool} {read : List Char → Reading α}
    (push : Char → α → α) (hsplits : ∀ s, (read s).Splits s)
    (hchar : ∀ c s, p c = true → startsEscape (c :: s) = false →
      read (c :: s) = ((read s).map (push c)).after [.take c])
    (hread : ∀ s, startsEscape ('\\' :: s) = true →
      read ('\\' :: s) = ((read (readEscape s).rest).map (push (readEscape s).value)).after
        (.take '\\' :: (readEscape s).trace))
    {b v r : List Char} {cut : Bool} (h : Items p b v cut r) :
    (read (b ++ r)).value = v.foldr push (read r).value ∧ (read (b ++ r)).rest = (read r).rest ∧
      (read (b ++ r)).remarks = cutRemarks cut ++ (read r).remarks := by
  induction h with
  | nil => exact ⟨rfl, rfl, rfl⟩
  | char hc hescape hw ih =>
    obtain ⟨hvalue, hrest, hremarks⟩ := ih
    rw [List.cons_append, hchar _ _ hc hescape, Reading.remarks_after rfl]
    exact ⟨congrArg (push _) hvalue, hrest, hremarks⟩
  | @escape e w _ r c _ hne he hescape hw ih =>
    obtain ⟨hvalue, hrest, hremarks⟩ := ih
    obtain ⟨hc, hleft⟩ := he.readEscape_append
    rw [List.cons_append, List.append_assoc, hread _ hescape, hc, hleft]
    cases e with
    | nil => contradiction
    | cons d e =>
      rw [List.cons_append, Reading.remarks_after_escape]
      exact ⟨congrArg (push c) hvalue, hrest, hremarks⟩
  -- the backslash is read as an escape that the end of the text cuts off, and that is reported
  | lone =>
    rw [List.append_nil, hread [] rfl]
    exact ⟨rfl, rfl, Reading.remarks_after_escape_nil (hsplits []).map '\\'⟩

/-! ## What is skipped

Skipping is reading items of the class of everything but the closing parenthesis, with the text forgotten. Two
facts remain of it: where it ends, and whether a backslash was cut off. -/

/-- The first closing parenthesis of the text that is no part of an escape is the last that is skipped. If
there is none, all is skipped. -/
inductive SkipsTo (s : List Char) : Bool → List Char → Prop where
  | close {y v z : List Char} (hs : s = y ++ ')' :: z) (hy : Items (· != ')') y v false (')' :: z)) :
      SkipsTo s false z
  | ending {v : List Char} {cut : Bool} (hs : Items (· != ')') s v cut []) : SkipsTo s cut []

theorem exists_skipsTo (s : List Char) : ∃ cut z, SkipsTo s cut z := by
  obtain ⟨b, v, cut, r, rfl, hitems, _, hstop⟩ := exists_items (· != ')') s
  cases r with
  | nil =>
    rw [List.append_nil]
    exact ⟨cut, [], .ending hitems⟩
  | cons c z =>
    obtain rfl : c = ')' := by simpa using hstop
    obtain rfl := hitems.eq_false_of_ne_nil (List.cons_ne_nil _ z)
    exact ⟨false, z, .close rfl hitems⟩

theorem skipDamagedUrl_plain {c : Char} {s : List Char} (hc : c ≠ ')')
    (hescape : startsEscape (c :: s) = false) :
    skipDamagedUrl (c :: s) = (skipDamagedUrl s).after [.take c] := by
  rw [skipDamagedUrl, if_neg hc, hescape]
  rfl

/-- What is skipped is passed item by item, and nothing is reported but a backslash that is cut off. -/
theorem skipDamagedUrl_items {y v r : List Char} {cut : Bool} (h : Items (· != ')') y v cut r) :
    (skipDamagedUrl (y ++ r)).rest = (skipDamagedUrl r).rest ∧
      (skipDamagedUrl (y ++ r)).remarks = cutRemarks cut ++ (skipDamagedUrl r).remarks := by
  refine (h.read_append (fun _ u => u) skipDamagedUrl_splits (fun c s hc hescape => ?_)
    fun s hescape => ?_).2
  · exact skipDamagedUrl_plain (by simpa using hc) hescape
  · rw [skipDamagedUrl, if_neg (by decide), if_pos hescape]
    rfl

/-- Where skipping ends is where the first closing parenthesis stands that is no part of an escape. -/
theorem skipDamagedUrl_of_skipsTo {s z : List Char} {cut : Bool} (h : SkipsTo s cut z) :
    (skipDamagedUrl s).rest = z ∧ (skipDamagedUrl s).remarks = cutRemarks cut := by
  cases h with
  | @close y _ _ hs hy =>
    have hclose : skipDamagedUrl (')' :: z) = ⟨(), z, [.take ')']⟩ := by
      rw [skipDamagedUrl, if_pos rfl]
    have hskip := skipDamagedUrl_items hy
    rw [hclose, ← hs] at hskip
    exact hskip
  | ending hs =>
    have hnil : skipDamagedUrl [] = ⟨(), [], []⟩ := by rw [skipDamagedUrl]
    have hskip := skipDamagedUrl_items hs
    rw [hnil, List.append_nil] at hskip
    exact ⟨hskip.1, hskip.2.trans (List.append_nil _)⟩

/-- What damages a url where it is reported is skipped first. -/
theorem damaged_of_skipsTo {c : Char} {s z : List Char} {cut : Bool} (hc : c ≠ ')')
    (hescape : startsEscape (c :: s) = false) (h : SkipsTo (c :: s) cut z) (kind : ErrorKind) :
    let reading := ((skipDamagedUrl s).map fun _ => Literal.damaged).after [.take c, .report kind]
    reading.rest = z ∧ reading.remarks = (s.length, kind) :: cutRemarks cut := by
  obtain ⟨hrest, hremarks⟩ := skipDamagedUrl_of_skipsTo h
  rw [skipDamagedUrl_plain hc hescape, Reading.rest_after] at hrest
  rw [skipDamagedUrl_plain hc hescape, Reading.remarks_after rfl] at hremarks
  refine ⟨hrest, ?_⟩
  rw [Reading.remarks_after_report (skipDamagedUrl_splits s).map, Reading.remarks_map, hremarks]

/-! ## The url

A url is its items, the white space behind them and what comes then. `UrlEnds` has a case for each of the ways
in which it can go on, and there is always one (`exists_urlEnds`). -/

/-- The code point may stand in an unquoted url. -/
def isUrlPlain (c : Char) : Bool :=
  !(isWhitespace c || isUnexpectedInUrl c || c == ')' || c == '\\')

/-- The items of a url add what they stand for to its text. -/
theorem readUrlText_items {b v r : List Char} {cut : Bool} (h : Items isUrlPlain b v cut r) :
    (readUrlText (b ++ r)).value = (readUrlText r).value.prepend v ∧
      (readUrlText (b ++ r)).rest = (readUrlText r).rest ∧
      (readUrlText (b ++ r)).remarks = cutRemarks cut ++ (readUrlText r).remarks := by
  rw [← Literal.foldr_push]
  refine h.read_append Literal.push readUrlText_splits (fun c s hc _ => ?_) fun _ =>
    readUrlText_of_startsEscape
  simp only [isUrlPlain, Bool.not_eq_true', Bool.or_eq_false_iff, beq_eq_false_iff_ne] at hc
  exact readUrlText_plain hc.1.1.1 hc.1.1.2 hc.1.2 hc.2 s

/-- What the text `v` of a url comes to with the whitespace `w` behind it and then `r`: a token, what is left
behind that, and the errors, each with how many code points are left then. -/
inductive UrlEnds (v : List Char) (cut : Bool) :
    List Char → List Char → Token → List Char → List (Nat × ErrorKind) → Prop where
  | closed {w z : List Char} : UrlEnds v cut w (')' :: z) (.url (.ofList v)) z []
  | ending {w : List Char} :
      UrlEnds v cut w [] (.url (.ofList v)) [] (cutRemarks cut ++ [(0, .unclosedUrl)])
  | interrupted {w s z : List Char} {c : Char} {skipCut : Bool} (hw : w ≠ []) (hc : c ≠ ')')
      (hskip : SkipsTo (c :: s) skipCut z) :
      UrlEnds v cut w (c :: s) (.badUrl (.ofList v)) z (cutRemarks skipCut)
  | unexpected {s z : List Char} {c : Char} {skipCut : Bool} (hc : isUnexpectedInUrl c = true)
      (hskip : SkipsTo (c :: s) skipCut z) :
      UrlEnds v cut [] (c :: s) (.badUrl (.ofList v)) z
        ((s.length, .unexpectedInUrl c) :: cutRemarks skipCut)
  | escapedNewline {s z : List Char} {skipCut : Bool}
      (hskip : SkipsTo ('\\' :: '\n' :: s) skipCut z) :
      UrlEnds v cut [] ('\\' :: '\n' :: s) (.badUrl (.ofList v)) z
        ((('\n' :: s).length, .escapedNewlineInUrl) :: cutRemarks skipCut)

/-- What stands behind `url(` is whitespace, the longest text of a url and what that comes to. -/
def UrlMeans (s : List Char) (t : Token) (r : List Char) (remarks : List (Nat × ErrorKind)) : Prop :=
  ∃ b v cut u, s.dropWhile isWhitespace = b ++ u ∧ LongestItems isUrlPlain b v cut u ∧
    UrlEnds v cut (u.takeWhile isWhitespace) (u.dropWhile isWhitespace) t r remarks

/-- Whatever stands behind the items of a url, one of the cases holds. -/
theorem exists_urlEnds {u : List Char} (v : List Char) (cut : Bool) (hescape : startsEscape u = false)
    (hstop : u.head?.any isUrlPlain = false) :
    ∃ t r remarks,
      UrlEnds v cut (u.takeWhile isWhitespace) (u.dropWhile isWhitespace) t r remarks := by
  have hsplits := u.takeWhile_append_dropWhile (p := isWhitespace)
  have hwhite := head?_dropWhile isWhitespace u
  generalize u.takeWhile isWhitespace = w at *
  generalize u.dropWhile isWhitespace = r at *
  cases r with
  | nil => exact ⟨_, _, _, .ending⟩
  | cons c s =>
    by_cases hclose : c = ')'
    · rw [hclose]
      exact ⟨_, _, _, .closed⟩
    obtain ⟨skipCut, z, hskip⟩ := exists_skipsTo (c :: s)
    by_cases hw : w = []
    · subst hw hsplits
      have hplain : isWhitespace c = false := hwhite
      cases hc : isUnexpectedInUrl c with
      | true => exact ⟨_, _, _, .unexpected hc hskip⟩
      | false =>
        -- only a backslash is left to stop the text, and it stops no text but before a newline
        obtain rfl : c = '\\' := by simpa [isUrlPlain, hplain, hc, hclose] using hstop
        have hline : s.head? = some '\n' := by simpa [startsEscape] using hescape
        cases s with
        | nil => contradiction
        | cons d s =>
          obtain rfl : d = '\n' := by simpa using hline
          exact ⟨_, _, _, .escapedNewline hskip⟩
    · exact ⟨_, _, _, .interrupted hw hclose hskip⟩

theorem exists_urlMeans (s : List Char) : ∃ t r remarks, UrlMeans s t r remarks := by
  obtain ⟨b, v, cut, u, hb, hitems, hescape, hstop⟩ :=
    exists_items isUrlPlain (s.dropWhile isWhitespace)
  obtain ⟨t, r, remarks, hends⟩ := exists_urlEnds v cut hescape hstop
  exact ⟨t, r, remarks, b, v, cut, u, hb.symm, hitems.longestItems hescape hstop, hends⟩

/-- Whitespace, the closing parenthesis and the end of the text are left to what closes the url. -/
theorem readUrlText_eq_closeUrl {w r : List Char} (hw : ∀ c ∈ w, isWhitespace c = true)
    (hr : r.head?.any isWhitespace = false) (hcloses : w ≠ [] ∨ r = [] ∨ r.head? = some ')') :
    readUrlText (w ++ r) = (closeUrl r).after (.taking w) := by
  cases w with
  | nil =>
    cases r with
    | nil =>
      rw [List.append_nil, readUrlText]
      rfl
    | cons c s =>
      obtain rfl : c = ')' := by simpa using hcloses
      rw [List.nil_append, readUrlText, if_neg (by decide), if_pos rfl]
      rfl
  | cons c w =>
    obtain ⟨hc, hw⟩ := List.forall_mem_cons.1 hw
    obtain ⟨hrun, hrest⟩ := takeWhile_append_stop hw hr
    rw [List.cons_append, readUrlText, if_pos hc, hrun, hrest]

theorem closeUrl_cons {c : Char} (hc : c ≠ ')') (s : List Char) :
    closeUrl (c :: s) = (skipDamagedUrl (c :: s)).map fun _ => .damaged := by
  rw [closeUrl.eq_def]
  split
  · next heq => contradiction
  · next heq => exact absurd (List.cons.inj heq).1 hc
  · rfl

/-- What comes behind the items is read as its case says. -/
theorem readUrlText_of_urlEnds {v w r z : List Char} {cut : Bool} {t : Token}
    {remarks : List (Nat × ErrorKind)} (h : UrlEnds v cut w r t z remarks)
    (hw : ∀ c ∈ w, isWhitespace c = true) (hr : r.head?.any isWhitespace = false)
    (hcut : r ≠ [] → cut = false) :
    ((readUrlText (w ++ r)).value.prepend v).urlToken = t ∧ (readUrlText (w ++ r)).rest = z ∧
      cutRemarks cut ++ (readUrlText (w ++ r)).remarks = remarks := by
  have htext : (Literal.closed.prepend v).urlToken = .url (.ofList v) ∧
      (Literal.damaged.prepend v).urlToken = .badUrl (.ofList v) := by
    simp [Literal.prepend, Literal.closed, Literal.damaged, Literal.urlToken]
  have hnone : Trace.reported (.taking w) = [] := Trace.reported_taking w
  -- In the first three cases the text is left to `closeUrl`. In the last two the url is damaged at its next
  -- code point, and there is no white space in front of it.
  cases h with
  | closed =>
    rw [readUrlText_eq_closeUrl hw hr (Or.inr (Or.inr rfl)), hcut (List.cons_ne_nil _ _),
      Reading.remarks_after hnone]
    exact ⟨htext.1, rfl, rfl⟩
  | ending =>
    rw [readUrlText_eq_closeUrl hw hr (Or.inr (Or.inl rfl)), Reading.remarks_after hnone]
    exact ⟨htext.1, rfl, rfl⟩
  | interrupted hne hc hskip =>
    obtain ⟨hrest, hremarks⟩ := skipDamagedUrl_of_skipsTo hskip
    rw [readUrlText_eq_closeUrl hw hr (Or.inl hne), closeUrl_cons hc, hcut (List.cons_ne_nil _ _),
      Reading.remarks_after hnone, Reading.remarks_map, hremarks]
    exact ⟨htext.2, hrest, rfl⟩
  | @unexpected s _ c _ hc hskip =>
    have hwhite : isWhitespace c = false := hr
    have hclose : c ≠ ')' := by
      rintro rfl
      exact absurd hc (by decide)
    have hescape : startsEscape (c :: s) = false := by
      rw [startsEscape_cons, Bool.and_eq_false_iff, beq_eq_false_iff_ne]
      left
      rintro rfl
      exact absurd hc (by decide)
    obtain ⟨hrest, hremarks⟩ := damaged_of_skipsTo hclose hescape hskip (.unexpectedInUrl c)
    rw [List.nil_append, readUrlText, hwhite, if_neg Bool.false_ne_true, if_neg hclose, if_pos hc,
      hcut (List.cons_ne_nil _ _), hremarks]
    exact ⟨htext.2, hrest, rfl⟩
  | @escapedNewline s _ _ hskip =>
    obtain ⟨hrest, hremarks⟩ := damaged_of_skipsTo (by decide) rfl hskip .escapedNewlineInUrl
    rw [List.nil_append, readUrlText, if_neg (by decide), if_neg (by decide), if_neg (by decide),
      if_pos rfl, if_neg (by simp [startsEscape]), hcut (List.cons_ne_nil _ _), hremarks]
    exact ⟨htext.2, hrest, rfl⟩

/-- What the text means is what the reader of urls reads. -/
theorem readUrl_of_urlMeans {s r : List Char} {t : Token} {remarks : List (Nat × ErrorKind)}
    (h : UrlMeans s t r remarks) :
    (readUrl s).value.urlToken = t ∧ (readUrl s).rest = r ∧
      (readUrl s).remarks = remarks := by
  obtain ⟨b, v, cut, u, hb, ⟨hitems, _⟩, hends⟩ := h
  -- a backslash that is cut off has nothing behind it, not even white space
  have hcut : u.dropWhile isWhitespace ≠ [] → cut = false := fun hne =>
    hitems.eq_false_of_ne_nil fun hu => hne (by rw [hu]; rfl)
  have hread := readUrlText_of_urlEnds hends (List.all_eq_true.1 List.all_takeWhile)
    (head?_dropWhile isWhitespace u) hcut
  obtain ⟨hvalue, hrest, hremarks⟩ := readUrlText_items hitems
  rw [List.takeWhile_append_dropWhile, ← hvalue, ← hrest, ← hremarks, ← hb] at hread
  rw [readUrl, Reading.remarks_after (Trace.reported_taking _)]
  exact hread

/-! ## The call

What is left to be seen of the call is that the name in front is read as the name of a url, however it is
spelled. -/

theorem isNameStart_of_isAlpha_toLower {c : Char} (h : c.toLower.isAlpha = true) :
    isNameStart c = true := by
  have halpha : c.isAlpha = true := by
    by_cases hupper : 65 ≤ c.toNat ∧ c.toNat ≤ 90
    · exact isAlpha_iff.2 (Or.inl hupper)
    · have hlower : c.toLower = c := dif_neg hupper
      rwa [hlower] at h
  simp [isNameStart, halpha]

/-- A spelling of the name `url` begins with a letter or an escape, and so does an identifier. -/
theorem startsIdent_of_isUrlName {x n r : List Char} (h : NameText x n r) (hn : isUrlName n = true) :
    startsIdent (x ++ r) = true := by
  cases h with
  | stop => contradiction
  | @char c _ _ _ _ _ =>
    have hlower : c.toLower = 'u' := (List.cons.inj (eq_of_beq hn)).1
    have hstart : isNameStart c = true := isNameStart_of_isAlpha_toLower (by rw [hlower]; decide)
    exact startsIdent_cons_iff.2 (Or.inl hstart)
  | escape he hline hw =>
    rw [List.cons_append, List.append_assoc, startsIdent_cons_iff]
    exact Or.inr (Or.inl (startsEscape_iff.2 ⟨_, rfl, hline⟩))

/-- **What an unquoted url is, and where reading goes on behind it.** -/
theorem Lexer.takes_unquotedUrl {l : Lexer} {x n s : List Char} (hp : l.cursor.policy = .lenient)
    (hl : l.cursor.rest = x ++ '(' :: s) (hname : NameText x n ('(' :: s)) (hurl : isUrlName n = true)
    (hquote : quoteFollows s = false) :
    (∃ t r remarks, UrlMeans s t r remarks) ∧
      ∀ t r remarks, UrlMeans s t r remarks → l.Takes t r remarks := by
  refine ⟨exists_urlMeans s, fun t r remarks hmeans => ?_⟩
  obtain ⟨hvalue, hrest⟩ := hname.readName_append
  rcases hread : readName (x ++ '(' :: s) with ⟨name, rest, trace⟩
  rw [hread] at hvalue hrest
  subst hvalue hrest
  have hreads := Reads.url (startsIdent_of_isUrlName hname hurl) hread hurl hquote
  rw [← hl] at hreads
  have htakes := takes_of_finishes hreads.readToken_eq (hp ▸ Trace.finishes_lenient _)
  have hnone : Trace.reported (trace ++ [.take '(']) = [] := by
    rw [Trace.reported_append, reported_readName hread]
    rfl
  obtain ⟨ht, hr, hremarks⟩ := readUrl_of_urlMeans hmeans
  rwa [Reading.remarks_after hnone, Reading.remarks_map, Reading.value_after, Reading.value_map, ht,
    Reading.rest_after, Reading.rest_map, hr, hremarks] at htakes

/-- A letter of the name is escaped, the parenthesis in the text, and the first one of what is skipped. -/
theorem Lexer.takes_unquotedUrl_of_escapes :
    let l := ofCursor (.ofText "u\\72 l( a\\)\"b\\))x" .lenient)
    let x := "u\\72 l".toList
    let s := " a\\)\"b\\))x".toList
    l.cursor.policy = .lenient ∧ l.cursor.rest = x ++ '(' :: s ∧ NameText x ['u', 'r', 'l'] ('(' :: s) ∧
      isUrlName ['u', 'r', 'l'] = true ∧ quoteFollows s = false ∧
      l.Takes (.badUrl "a)") ['x'] [(5, .unexpectedInUrl '"')] := by
  intro l x s
  have hrest : l.cursor.rest = x ++ '(' :: s := by decide +kernel
  have hname : NameText x ['u', 'r', 'l'] ('(' :: s) := nameText_iff.2 (by decide +kernel)
  have hquote : quoteFollows s = false := by decide
  have hskipped : Items (· != ')') ['"', 'b', '\\', ')'] ['"', 'b', ')'] false [')', 'x'] :=
    .char (by decide) (by decide) (.char (by decide) (by decide)
      (.escape (e := [')']) (by decide) (.char (by decide)) (by decide) .nil))
  have htext : Items isUrlPlain ['a', '\\', ')'] ['a', ')'] false ['"', 'b', '\\', ')', ')', 'x'] :=
    .char (by decide) (by decide)
      (.escape (e := [')']) (by decide) (.char (by decide)) (by decide) .nil)
  have hmeans : UrlMeans s (.badUrl "a)") ['x'] [(5, .unexpectedInUrl '"')] :=
    ⟨_, _, _, _, rfl, htext.longestItems (by decide) (by decide),
      .unexpected (by decide) (.close rfl hskipped)⟩
  have htakes := (takes_unquotedUrl rfl hrest hname rfl hquote).2 _ _ _ hmeans
  exact ⟨rfl, hrest, hname, rfl, hquote, htakes⟩

end CssLex
