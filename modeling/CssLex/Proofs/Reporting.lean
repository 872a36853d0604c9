import CssLex.Proofs.Lookahead

/-!
# CssLex — what is reported, and by which token

An error is never reported without leaving its mark on the token, or on the end of the text. `Token.Reports`
lists what the reading of a token can report, each error with how many code points are left then: none is
for the errors that only the end of a text makes. The list is complete (`reports_readToken`).

`Trace.remarks` are the errors of a trace, placed by what is left. What is taken first does not change them,
so readers that are put together report what their parts do.
-/

namespace CssLex

/-! ## Errors and what is left

Errors are placed by what is left when they are reported, not by what has been taken: so they do not move when
something is put in front of a reading, and the errors of the end of a text are those with nothing left. -/

/-- Only the end of a text makes the error. -/
def ErrorKind.isAtEnd : ErrorKind → Bool
  | .unclosedComment | .escapedEnd | .unclosedString | .unclosedUrl => true
  | _ => false

/-- The error damages an unquoted url. -/
def ErrorKind.damagesUrl : ErrorKind → Bool
  | .unexpectedInUrl _ | .escapedNewlineInUrl => true
  | _ => false

/-- What damages a url is met within the text. -/
theorem ErrorKind.isAtEnd_of_damagesUrl {kind : ErrorKind} (h : kind.damagesUrl = true) :
    kind.isAtEnd = false := by
  cases kind <;> first | rfl | contradiction

theorem ErrorKind.ne_of_damagesUrl {kind other : ErrorKind} (h : kind.damagesUrl = true)
    (ho : other.damagesUrl = false) : kind ≠ other := by
  rintro rfl
  rw [h] at ho
  contradiction

namespace Trace

/-- The errors of a trace that leaves `n` code points, each with how many are left when it is reported. -/
def remarks (n : Nat) : Trace → List (Nat × ErrorKind)
  | [] => []
  | .take _ :: t => remarks n t
  | .report kind :: t => ((taken t).length + n, kind) :: remarks n t

/-- The errors of the first part are placed by all that the second takes as well. -/
theorem remarks_append (n : Nat) (t u : Trace) :
    remarks n (t ++ u) = remarks ((taken u).length + n) t ++ remarks n u := by
  induction t with
  | nil => rfl
  | cons e t ih =>
    cases e with
    | take c => exact ih
    | report kind =>
      simp only [List.cons_append, remarks, ih, taken_append, List.length_append, Nat.add_assoc]

/-- Placing the errors leaves them the same, in the same order. -/
theorem map_remarks (n : Nat) (t : Trace) : (remarks n t).map (·.2) = reported t := by
  induction t with
  | nil => rfl
  | cons e t ih =>
    cases e with
    | take c => exact ih
    | report kind => exact congrArg (kind :: ·) ih

theorem map_reports (t : Trace) : t.reports.map (·.2) = reported t := by
  induction t with
  | nil => rfl
  | cons e t ih =>
    cases e with
    | take c =>
      rw [reports, List.map_map]
      exact ih
    | report kind => exact congrArg (kind :: ·) ih

theorem remarks_of_reported_eq_nil {t : Trace} (h : reported t = []) (n : Nat) : remarks n t = [] := by
  rw [← map_remarks n, List.map_eq_nil_iff] at h
  exact h

/-- What the trace leaves in the end is left at each of its errors. -/
theorem le_of_mem_remarks {n : Nat} {t : Trace} {r : Nat × ErrorKind} (h : r ∈ remarks n t) : n ≤ r.1 := by
  induction t with
  | nil => contradiction
  | cons e t ih =>
    cases e with
    | take c => exact ih h
    | report kind =>
      rcases List.mem_cons.1 h with rfl | h
      · exact Nat.le_add_left _ _
      · exact ih h

/-- What is taken before an error and what is left then is all there is. -/
theorem exists_mem_remarks {t : Trace} {i : Nat} {kind : ErrorKind} (h : (i, kind) ∈ t.reports) (n : Nat) :
    ∃ m, (m, kind) ∈ remarks n t ∧ i + m = (taken t).length + n := by
  induction t generalizing i with
  | nil => contradiction
  | cons e t ih =>
    cases e with
    | take c =>
      obtain ⟨⟨j, _⟩, hj, heq⟩ := List.mem_map.1 h
      obtain ⟨rfl, rfl⟩ := Prod.mk.inj heq
      obtain ⟨m, hm, hsum⟩ := ih hj
      refine ⟨m, hm, ?_⟩
      rw [taken_take, List.length_cons]
      omega
    | report k =>
      rcases List.mem_cons.1 h with heq | h
      · obtain ⟨rfl, rfl⟩ := Prod.mk.inj heq
        exact ⟨_, List.mem_cons_self, Nat.zero_add _⟩
      · obtain ⟨m, hm, hsum⟩ := ih h
        exact ⟨m, List.mem_cons_of_mem _ hm, hsum⟩

end Trace

namespace Reading

variable {α β : Type}

/-- The errors of a reading, each with how many code points are left when it is reported. -/
def remarks (r : Reading α) : List (Nat × ErrorKind) :=
  Trace.remarks r.rest.length r.trace

@[simp] theorem remarks_map (f : α → β) (r : Reading α) : (r.map f).remarks = r.remarks := rfl

/-- What is taken first does not matter. -/
theorem remarks_after {t : Trace} (ht : Trace.reported t = []) (r : Reading α) :
    (r.after t).remarks = r.remarks := by
  rw [remarks, trace_after, Trace.remarks_append, Trace.remarks_of_reported_eq_nil ht, List.nil_append]
  rfl

/-- An error that is reported first is reported in front of all that the reading splits. -/
theorem remarks_after_report {r : Reading α} {s : List Char} (hr : r.Splits s) (c : Char)
    (kind : ErrorKind) :
    (r.after [.take c, .report kind]).remarks = (s.length, kind) :: r.remarks := by
  have hlength : (Trace.taken r.trace).length + r.rest.length = s.length := by
    rw [← List.length_append, hr]
  show ((Trace.taken r.trace).length + r.rest.length, kind) :: r.remarks = _
  rw [hlength]

/-- An escape reports nothing unless it is cut off. -/
theorem remarks_after_escape (r : Reading α) (c d : Char) (s : List Char) :
    (r.after (.take c :: (readEscape (d :: s)).trace)).remarks = r.remarks := by
  refine remarks_after ?_ r
  rw [Trace.reported_take, readEscape]
  split
  · exact Trace.reported_taking _
  · rfl

/-- An escape that the end of the text cuts off is reported there. -/
theorem remarks_after_escape_nil {r : Reading α} (hr : r.Splits []) (c : Char) :
    (r.after (.take c :: (readEscape []).trace)).remarks = (0, .escapedEnd) :: r.remarks :=
  remarks_after_report hr c .escapedEnd

end Reading

/-! ## What the readers report

Besides a stray backslash only names, comments, strings and urls report anything, each a few lists of errors.
They are found by induction along the recursion of the reader, where every plain step leaves them as they are.
-/

/-- A name reports nothing but an escape that the end of the text cuts off. -/
theorem remarks_readName (s : List Char) :
    (readName s).remarks = [] ∨ (readName s).remarks = [(0, .escapedEnd)] := by
  fun_induction readName s with
  | case1 => exact Or.inl rfl
  | case2 c s _ ih => exact ih
  | case3 c s _ _ escaped ih =>
    cases s with
    | nil =>
      right
      refine (Reading.remarks_after_escape_nil (readName_splits []).map c).trans ?_
      rw [Reading.remarks_map, readName]
      rfl
    | cons d s =>
      rw [Reading.remarks_after_escape]
      exact ih
  | case4 => exact Or.inl rfl

/-- A name that leaves something reports nothing. -/
theorem reported_readName {s n r : List Char} {t : Trace} {c : Char} (h : readName s = ⟨n, c :: r, t⟩) :
    Trace.reported t = [] := by
  have hremarks := remarks_readName s
  rw [h] at hremarks
  rcases hremarks with hnone | hcut
  · rw [← Trace.map_remarks (c :: r).length]
    exact congrArg _ hnone
  · -- the end of the text would have to be behind it
    have hle : (c :: r).length ≤ 0 := Trace.le_of_mem_remarks (hcut ▸ List.mem_cons_self)
    contradiction

/-- A comment reports nothing but that it is not closed. -/
theorem remarks_readCommentBody (s : List Char) :
    (readCommentBody s).remarks = [] ∨ (readCommentBody s).remarks = [(0, .unclosedComment)] := by
  fun_induction readCommentBody s with
  | case1 => exact Or.inr rfl
  | case2 s => exact Or.inl rfl
  | case3 c s _ ih => exact ih

/-- A string reports one error at most. It is damaged exactly by a newline; the end of the text leaves it
intact. -/
theorem remarks_readQuoted (q : Char) (s : List Char) :
    ((readQuoted q s).value.intact = true ∧
        ((readQuoted q s).remarks = [] ∨ (readQuoted q s).remarks = [(0, .unclosedString)])) ∨
      (readQuoted q s).value.intact = false ∧
        ∃ n, (readQuoted q s).remarks = [(n, .newlineInString)] := by
  fun_induction readQuoted q s with
  | case1 => exact Or.inl ⟨rfl, Or.inr rfl⟩
  | case2 s => exact Or.inl ⟨rfl, Or.inl rfl⟩
  | case3 s => exact Or.inr ⟨rfl, _, rfl⟩
  | case4 => exact Or.inl ⟨rfl, Or.inr rfl⟩
  | case5 t _ _ ih => exact ih
  | case6 d t _ _ _ escaped ih =>
    rw [Reading.remarks_after_escape]
    exact ih
  | case7 c s _ _ _ ih => exact ih

/-- What is skipped of a damaged url reports nothing but an escape that the end of the text cuts off. -/
theorem remarks_skipDamagedUrl (s : List Char) :
    (skipDamagedUrl s).remarks = [] ∨ (skipDamagedUrl s).remarks = [(0, .escapedEnd)] := by
  fun_induction skipDamagedUrl s with
  | case1 => exact Or.inl rfl
  | case2 s => exact Or.inl rfl
  | case3 c s _ _ escaped ih =>
    cases s with
    | nil =>
      right
      refine (Reading.remarks_after_escape_nil (skipDamagedUrl_splits []) c).trans ?_
      rw [skipDamagedUrl]
      rfl
    | cons d s =>
      rw [Reading.remarks_after_escape]
      exact ih
  | case4 c s _ _ ih => exact ih

/-- What an unquoted url reports: by its end alone where it is intact; once for what damages it, which may
be nothing, and by the end of what is skipped where it is not. -/
inductive UrlRemarks : Bool → List (Nat × ErrorKind) → Prop where
  | closed : UrlRemarks true []
  | open : UrlRemarks true [(0, .unclosedUrl)]
  | openEscape : UrlRemarks true [(0, .escapedEnd), (0, .unclosedUrl)]
  | skipped : UrlRemarks false []
  | skippedEscape : UrlRemarks false [(0, .escapedEnd)]
  | damaged {n : Nat} {kind : ErrorKind} (h : kind.damagesUrl = true) : UrlRemarks false [(n, kind)]
  | damagedEscape {n : Nat} {kind : ErrorKind} (h : kind.damagesUrl = true) :
      UrlRemarks false [(n, kind), (0, .escapedEnd)]

/-- Behind the text of a url and its white space: it is closed, left open or skipped. -/
theorem urlRemarks_closeUrl (s : List Char) :
    UrlRemarks (closeUrl s).value.intact (closeUrl s).remarks := by
  unfold closeUrl
  split
  · exact .open
  · exact .closed
  -- something else is behind the white space, so the rest of the url is skipped
  · rw [Reading.remarks_map]
    rcases remarks_skipDamagedUrl s with h | h <;> rw [h]
    · exact .skipped
    · exact .skippedEscape

/-- What damages a url is reported first, before what is skipped. -/
theorem urlRemarks_damaged {kind : ErrorKind} (h : kind.damagesUrl = true) (c : Char) (s : List Char) :
    UrlRemarks false
      (((skipDamagedUrl s).map fun _ => Literal.damaged).after [.take c, .report kind]).remarks := by
  rw [Reading.remarks_after_report (skipDamagedUrl_splits s).map, Reading.remarks_map]
  rcases remarks_skipDamagedUrl s with hs | hs <;> rw [hs]
  · exact .damaged h
  · exact .damagedEscape h

/-- An unquoted url reports one of the lists of `UrlRemarks`. -/
theorem urlRemarks_readUrlText (s : List Char) :
    UrlRemarks (readUrlText s).value.intact (readUrlText s).remarks := by
  fun_induction readUrlText s with
  | case1 => exact urlRemarks_closeUrl []
  | case2 c s _ =>
    rw [Reading.remarks_after (Trace.reported_taking _)]
    exact urlRemarks_closeUrl _
  | case3 s => exact urlRemarks_closeUrl (')' :: s)
  | case4 c s => exact urlRemarks_damaged rfl c s
  | case5 s escaped _ _ _ hescape ih =>
    cases s with
    | nil =>
      -- a url that ends behind a backslash is reported for both
      have hend : readUrlText escaped.rest = ⟨.closed, [], [.report .unclosedUrl]⟩ := by
        show readUrlText [] = _
        rw [readUrlText]
        rfl
      rw [hend]
      exact .openEscape
    | cons d s =>
      rw [Reading.remarks_after_escape]
      exact ih
  | case6 s => exact urlRemarks_damaged rfl '\\' s
  | case7 c s _ _ _ _ ih => exact ih

/-! ## What a token reports

`Token.Reports` relates a token to the errors that its reading may have reported. Counting errors against
tokens is a case analysis of it, with no reader in sight. -/

namespace Token

def isBadString : Token → Bool
  | .badString _ => true
  | _ => false

def isBadUrl : Token → Bool
  | .badUrl _ => true
  | _ => false

/-- The last that is read of the token is a name. -/
def endsInName : Token → Bool
  | .ident _ | .atKeyword _ | .hash .. | .dimension .. => true
  | _ => false

theorem isBadString_of_endsInName {t : Token} (h : t.endsInName = true) : t.isBadString = false := by
  cases t <;> first | rfl | contradiction

/-- What the reading of a token reports, each error with how many code points are left then. -/
inductive Reports : Token → List (Nat × ErrorKind) → Prop where
  | nothing {t : Token} (hstring : t.isBadString = false) (hback : t ≠ .delim '\\') : Reports t []
  | cutString {text : String} {n : Nat} : Reports (.badString text) [(n, .newlineInString)]
  | strayBackslash {n : Nat} : Reports (.delim '\\') [(n, .escapedNewline)]
  | openComment {text : String} : Reports (.comment text) [(0, .unclosedComment)]
  | openString {text : String} : Reports (.string text) [(0, .unclosedString)]
  | nameEscape {t : Token} (h : t.endsInName = true) : Reports t [(0, .escapedEnd)]
  | openUrl {text : String} : Reports (.url text) [(0, .unclosedUrl)]
  | openUrlEscape {text : String} : Reports (.url text) [(0, .escapedEnd), (0, .unclosedUrl)]
  | badUrl {text : String} {n : Nat} {kind : ErrorKind} (h : kind.damagesUrl = true) :
      Reports (.badUrl text) [(n, kind)]
  | badUrlEscape {text : String} {n : Nat} {kind : ErrorKind} (h : kind.damagesUrl = true) :
      Reports (.badUrl text) [(n, kind), (0, .escapedEnd)]
  | skippedEscape {text : String} : Reports (.badUrl text) [(0, .escapedEnd)]

end Token

/-- Where nothing is reported the token shows nothing either. -/
theorem reports_of_reported_eq_nil {r : Reading Token} (h : Trace.reported r.trace = [])
    (hstring : r.value.isBadString = false) (hback : r.value ≠ .delim '\\') :
    r.value.Reports r.remarks := by
  rw [Reading.remarks, Trace.remarks_of_reported_eq_nil h]
  exact .nothing hstring hback

theorem reports_of_url {l : Literal} {rs : List (Nat × ErrorKind)} (h : UrlRemarks l.intact rs) :
    l.urlToken.Reports rs := by
  obtain ⟨text, intact⟩ := l
  cases h with
  | closed => exact .nothing rfl (by simp [Literal.urlToken])
  | «open» => exact .openUrl
  | openEscape => exact .openUrlEscape
  | skipped => exact .nothing rfl (by simp [Literal.urlToken])
  | skippedEscape => exact .skippedEscape
  | damaged h => exact .badUrl h
  | damagedEscape h => exact .badUrlEscape h

theorem reports_of_name {t : Token} (ht : t.endsInName = true) {rs : List (Nat × ErrorKind)}
    (h : rs = [] ∨ rs = [(0, .escapedEnd)]) : t.Reports rs := by
  rcases h with rfl | rfl
  · refine .nothing (Token.isBadString_of_endsInName ht) ?_
    rintro rfl
    contradiction
  · exact .nameEscape ht

theorem reports_of_quoted (q : Char) (s : List Char) :
    (readQuoted q s).value.stringToken.Reports (readQuoted q s).remarks := by
  rcases remarks_readQuoted q s with ⟨hintact, h | h⟩ | ⟨hcut, n, h⟩
  · rw [h, Literal.stringToken, if_pos hintact]
    exact .nothing rfl (by simp)
  · rw [h, Literal.stringToken, if_pos hintact]
    exact .openString
  · rw [h, Literal.stringToken, if_neg (by simp [hcut])]
    exact .cutString

/-- **Every token reports what it can.** -/
theorem reports_readToken {s : List Char} (h : s ≠ []) :
    (readToken s).value.Reports (readToken s).remarks := by
  have hreads := reads_readToken h
  generalize readToken s = reading at hreads
  cases hreads with
  | comment =>
    -- what opens it is taken first
    show Token.Reports _ (readCommentBody (s.drop 2)).remarks
    rcases remarks_readCommentBody (s.drop 2) with hbody | hbody <;> rw [hbody]
    · exact .nothing rfl (by simp)
    · exact .openComment
  | whitespace =>
    exact reports_of_reported_eq_nil (Trace.reported_taking _) rfl (by simp [readWhitespace])
  | dimension =>
    rw [Reading.remarks_after (Trace.reported_taking _), Reading.remarks_map]
    exact reports_of_name rfl (remarks_readName _)
  | percentage => exact reports_of_reported_eq_nil (Trace.reported_taking _) rfl (by simp)
  | number => exact reports_of_reported_eq_nil (Trace.reported_taking _) rfl (by simp)
  | ident _ hn =>
    have hname := remarks_readName s
    rw [hn] at hname
    exact reports_of_name rfl hname
  | function _ hn =>
    refine reports_of_reported_eq_nil ?_ rfl (by simp)
    rw [Trace.reported_append, reported_readName hn]
    rfl
  | urlFunction _ hn =>
    refine reports_of_reported_eq_nil ?_ rfl (by simp)
    rw [Trace.reported_append, reported_readName hn, Trace.reported_take, Trace.reported_taking]
    rfl
  | url _ hn =>
    rw [Reading.remarks_after, Reading.remarks_map, readUrl,
      Reading.remarks_after (Trace.reported_taking _)]
    · exact reports_of_url (urlRemarks_readUrlText _)
    · rw [Trace.reported_append, reported_readName hn]
      rfl
  | strayBackslash => exact .strayBackslash
  | string => exact reports_of_quoted _ _
  | hash => exact reports_of_name rfl (remarks_readName _)
  | atKeyword => exact reports_of_name rfl (remarks_readName _)
  | cdo => exact .nothing rfl (by simp)
  | cdc => exact .nothing rfl (by simp)
  | punctuation => exact .nothing rfl (by simp)
  | delim hc => exact .nothing rfl (by simpa using hc.back)

namespace Token.Reports

variable {t : Token} {rs : List (Nat × ErrorKind)}

/-- A cut string is reported once, and by nothing else. -/
theorem count_newlineInString (h : t.Reports rs) :
    (rs.map (·.2)).count .newlineInString = [t].countP isBadString := by
  cases h with
  | nothing hstring =>
    rw [List.countP_cons_of_neg (by simp [hstring])]
    rfl
  | nameEscape h =>
    rw [List.countP_cons_of_neg (by simp [isBadString_of_endsInName h])]
    rfl
  | badUrl h | badUrlEscape h =>
    rw [List.map_cons, List.count_cons_of_ne (ErrorKind.ne_of_damagesUrl h rfl)]
    rfl
  | _ => rfl

/-- A backslash that stands alone is reported once, and by nothing else. -/
theorem count_escapedNewline (h : t.Reports rs) :
    (rs.map (·.2)).count .escapedNewline = [t].countP (· == .delim '\\') := by
  cases h with
  | nothing _ hback =>
    rw [List.countP_cons_of_neg (by simpa using hback)]
    rfl
  | nameEscape h =>
    rw [List.countP_cons_of_neg]
    · rfl
    · intro hback
      rw [eq_of_beq hback] at h
      contradiction
  | badUrl h | badUrlEscape h =>
    rw [List.map_cons, List.count_cons_of_ne (ErrorKind.ne_of_damagesUrl h rfl)]
    rfl
  | _ => rfl

/-- Only what is read to the end of the text is reported for its end. -/
theorem left_of_isAtEnd (h : t.Reports rs) {r : Nat × ErrorKind} (hr : r ∈ rs)
    (hend : r.2.isAtEnd = true) : r.1 = 0 := by
  -- Errors of the end are listed with nothing left, and all others are of another kind.
  cases h with
  | nothing => contradiction
  | cutString | strayBackslash =>
    obtain rfl := List.mem_singleton.1 hr
    contradiction
  | badUrl h =>
    obtain rfl := List.mem_singleton.1 hr
    rw [ErrorKind.isAtEnd_of_damagesUrl h] at hend
    contradiction
  | badUrlEscape h =>
    obtain rfl | hr := List.mem_cons.1 hr
    · rw [ErrorKind.isAtEnd_of_damagesUrl h] at hend
      contradiction
    · rw [List.mem_singleton.1 hr]
  | openUrlEscape =>
    obtain rfl | hr := List.mem_cons.1 hr
    · rfl
    · rw [List.mem_singleton.1 hr]
  | _ => rw [List.mem_singleton.1 hr]

/-- What damages a url is reported of damaged urls only. -/
theorem isBadUrl_of_damagesUrl (h : t.Reports rs) {kind : ErrorKind} (hkind : kind ∈ rs.map (·.2))
    (hdamages : kind.damagesUrl = true) : t.isBadUrl = true := by
  cases h with
  | badUrl | badUrlEscape | skippedEscape => rfl
  | openUrlEscape =>
    obtain rfl | hkind := List.mem_cons.1 hkind
    · contradiction
    · rw [List.mem_singleton.1 hkind] at hdamages
      contradiction
  | nothing => exact absurd hkind List.not_mem_nil
  | _ =>
    rw [List.mem_singleton.1 hkind] at hdamages
    contradiction

/-- A url is damaged once at most: what is skipped afterwards is not read as a url. -/
theorem countP_damagesUrl_le (h : t.Reports rs) : (rs.map (·.2)).countP (·.damagesUrl) ≤ 1 := by
  cases h with
  | badUrlEscape h =>
    rw [List.map_cons, List.countP_cons_of_pos h]
    exact Nat.le_refl 1
  | nothing | openUrlEscape => exact Nat.zero_le 1
  | _ => exact List.countP_le_length

/-- Two errors are reported of a url that ends behind a backslash only, damaged or not. -/
theorem length_le_or (h : t.Reports rs) :
    rs.length ≤ 1 ∨
      ((∃ text, t = .url text) ∧ rs.map (·.2) = [.escapedEnd, .unclosedUrl]) ∨
      (∃ text, t = .badUrl text) ∧
        ∃ kind : ErrorKind, kind.damagesUrl = true ∧ rs.map (·.2) = [kind, .escapedEnd] := by
  cases h with
  | openUrlEscape => exact Or.inr (Or.inl ⟨⟨_, rfl⟩, rfl⟩)
  | badUrlEscape h => exact Or.inr (Or.inr ⟨⟨_, rfl⟩, _, h, rfl⟩)
  | nothing => exact Or.inl (Nat.zero_le 1)
  | _ => exact Or.inl (Nat.le_refl 1)

end Token.Reports

end CssLex
