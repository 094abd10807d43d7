import Mathlib.Data.List.Forall2
import Mathlib.Data.List.Induction
import MiniJava.Proofs.Token.MaximalMunch

/-!
# Histories of a scanner

Between two scans, the reports collected so far can be taken off a scanner, at any time and any
number of times. Neither the tokens nor the reports depend on when that is done
(`reports_of_calls`).

A history records what the calls have given. The invariant `History.Kept` ties it to the scanner:
the tokens still to come follow those in the record, and no report is in two places.
-/

namespace MiniJava

open List

/-! ## Calls -/

/-- What can be done with a scanner. -/
inductive ScannerCall
  | scan
  | takePending
  deriving DecidableEq

/-- What calls have given so far, and the scanner then. -/
structure History where
  /-- The tokens that scans have returned. -/
  tokens : List Token
  /-- The lists of reports that were handed over. -/
  handed : List (List Diagnostic)
  scanner : Scanner

namespace History

/-- The history after one more call. -/
def next (h : History) : ScannerCall → History
  | .scan => ⟨h.tokens ++ [h.scanner.scan.1], h.handed, h.scanner.scan.2⟩
  | .takePending => ⟨h.tokens, h.handed ++ [h.scanner.takePending.1], h.scanner.takePending.2⟩

/-- The history of calls on a scanner that begins to read a source. -/
def ofCalls (source : String) (calls : List ScannerCall) : History :=
  calls.foldl next ⟨[], [], .ofSource source⟩

theorem ofCalls_concat (source : String) (calls : List ScannerCall) (call : ScannerCall) :
    ofCalls source (calls ++ [call]) = (ofCalls source calls).next call := by
  unfold ofCalls
  rw [foldl_append]
  rfl

/-- All reports that were made: those that were handed over, and those that nobody has taken yet. -/
def reports (h : History) : List Diagnostic := h.handed.flatten ++ h.scanner.pending

end History

/-! ## What is reported -/

def TokenKind.isInvalid : TokenKind → Bool
  | .invalid _ => true
  | _ => false

/-- The text has a character outside ASCII, and is not an open comment, which may have any. -/
def Token.Foreign (t : Token) : Prop :=
  (∃ c ∈ t.text.toList, 128 ≤ c.toNat) ∧ ¬ ['/', '*'] <+: t.text.toList

/-- The report on an invalid token. It has the range of the token, or, for a character outside
ASCII, the byte at which the token begins and no range. -/
structure Token.Reports (t : Token) (d : Diagnostic) : Prop where
  foreign : t.Foreign →
    d = ⟨.io, s!"non-ASCII character in input at byte {t.span.start}", none⟩
  other : ¬ t.Foreign → d.kind = .scan ∧ d.span = some t.span

theorem toNat_lt_of_inWord {c : Char} (h : InWord c) : c.toNat < 128 := by
  have hle : ∀ d : Char, c ≤ d → d.toNat < 128 → c.toNat < 128 := by
    intro _ hcd hd
    exact Nat.lt_of_le_of_lt (UInt32.le_iff_toNat_le.mp hcd) hd
  rcases h with (⟨-, hc⟩ | ⟨-, hc⟩) | ⟨-, hc⟩ | rfl
  · exact hle 'z' hc (by decide)
  · exact hle 'Z' hc (by decide)
  · exact hle '9' hc (by decide)
  · decide

theorem not_foreign_of_ascii {t : Token} (h : ∀ c ∈ t.text.toList, c.toNat < 128) :
    ¬ t.Foreign := by
  intro hforeign
  obtain ⟨⟨c, hc, hge⟩, -⟩ := hforeign
  exact absurd (h c hc) (Nat.not_lt.mpr hge)

/-- The fault that shows in the text of an invalid token decides how it is reported. -/
theorem exists_reports {t : Token} {fault : ScanFault} {rest : List Char}
    (hkind : t.kind = .invalid fault) (h : fault.Shows t.text.toList rest) :
    ∃ d, t.diagnostic? = some d ∧ t.Reports d := by
  -- All faults but one are reported with the range.
  have hother : fault ≠ .strayUnicode → ∃ d, t.diagnostic? = some d ∧ d.kind = .scan ∧
      d.span = some t.span := by
    intro hne
    unfold Token.diagnostic?
    rw [hkind]
    cases fault with
    | strayUnicode => exact absurd rfl hne
    | _ => exact ⟨_, rfl, rfl, rfl⟩
  have hreports : fault ≠ .strayUnicode → ¬ t.Foreign → ∃ d, t.diagnostic? = some d ∧
      t.Reports d := by
    intro hne hforeign
    obtain ⟨d, hd, hscan⟩ := hother hne
    exact ⟨d, hd, fun h => absurd h hforeign, fun _ => hscan⟩
  cases fault with
  | openComment =>
    obtain ⟨-, body, htext, -⟩ := h
    refine hreports nofun ?_
    intro hforeign
    exact hforeign.2 (htext ▸ ⟨body, rfl⟩)
  | loneAnd =>
    have htext : t.text.toList = ['&'] := h
    refine hreports nofun (not_foreign_of_ascii ?_)
    rw [htext]
    exact forall_mem_singleton.mpr (by decide)
  | loneOr =>
    have htext : t.text.toList = ['|'] := h
    refine hreports nofun (not_foreign_of_ascii ?_)
    rw [htext]
    exact forall_mem_singleton.mpr (by decide)
  | underscoreWord =>
    obtain ⟨_, htext, hcs⟩ := h
    refine hreports nofun (not_foreign_of_ascii ?_)
    rw [htext]
    exact forall_mem_cons.mpr ⟨by decide, fun c hc => toNat_lt_of_inWord (hcs c hc)⟩
  | strayAscii =>
    obtain ⟨-, _, htext, hascii⟩ := h
    refine hreports nofun (not_foreign_of_ascii ?_)
    rw [htext]
    exact forall_mem_singleton.mpr hascii
  | strayUnicode =>
    -- The one fault that is reported without a range.
    obtain ⟨-, c, htext, hge⟩ := h
    have hforeign : t.Foreign := by
      refine ⟨⟨c, htext ▸ mem_singleton_self c, hge⟩, ?_⟩
      intro hopen
      rw [htext] at hopen
      cases (cons_prefix_cons.mp hopen).2.length_le
    refine ⟨⟨.io, s!"non-ASCII character in input at byte {t.span.start}", none⟩, ?_,
      fun _ => rfl, fun hother => absurd hforeign hother⟩
    unfold Token.diagnostic?
    rw [hkind]

/-- Every invalid token has its report, and no other token has any. -/
theorem reports_scan (s : Scanner) :
    (s.scan.1.kind.isInvalid = false ∧ s.scan.1.diagnostic? = none) ∨
    (s.scan.1.kind.isInvalid = true ∧ ∃ d, s.scan.1.diagnostic? = some d ∧ s.scan.1.Reports d) := by
  cases hkind : s.scan.1.kind with
  | invalid _ =>
    have hmore : s.scan.1.kind ≠ .endOfFile := by
      rw [hkind]
      exact nofun
    obtain ⟨_, c, cs, -, -, hlayout, hscan⟩ := Scanner.exists_scan_eq hmore
    have hfits : s.scan.1.kind.Fits s.scan.1.text.toList (lexeme c cs).rest := by
      rw [hscan, Lexeme.toList_text_token]
      exact fits_lexeme hlayout
    rw [hkind] at hfits
    exact .inr ⟨rfl, exists_reports hkind hfits⟩
  | _ =>
    refine .inl ⟨rfl, ?_⟩
    unfold Token.diagnostic?
    rw [hkind]

/-! ## Tokens in turn -/

/-- The token at the end of a source. -/
def endToken (source : String) : Token :=
  ⟨.endOfFile, "", ⟨source.utf8ByteSize, source.utf8ByteSize⟩⟩

/-- The tokens of a source by their number, with the end of the file for ever behind the last
one. -/
def tokenAt (source : String) (k : Nat) : Token := (lex source)[k]?.getD (endToken source)

/-- One scan takes the first of the tokens still to come. At the end none of them is taken. -/
theorem Scanner.tokens_scan {source : String} {s : Scanner}
    (hs : s.offset + utf8Length s.rest = source.utf8ByteSize) :
    s.scan.1 = s.tokens[0]?.getD (endToken source) ∧
    (∀ k, s.scan.2.tokens[k]?.getD (endToken source) = s.tokens[k + 1]?.getD (endToken source)) ∧
    s.scan.2.offset + utf8Length s.scan.2.rest = source.utf8ByteSize := by
  rcases exists_gap s.rest with hgap | ⟨_, c, cs, hrest, hgap, hmore⟩
  · have hscan := scan_of_isLayout hgap
    rw [hs] at hscan
    have hlast : s.tokens = [endToken source] := by
      rw [tokens_eq, hscan, if_pos rfl]
      rfl
    have hstays : s.scan.2.tokens = [endToken source] := by
      rw [hscan, tokens_eq]
      rfl
    rw [hlast, hstays, hscan]
    refine ⟨rfl, ?_, rfl⟩
    intro k
    cases k with
    | zero | succ => rfl
  · have hscan := scan_of_lexeme hrest hgap hmore
    have hkind : s.scan.1.kind ≠ .endOfFile := by
      rw [hscan]
      exact lexeme_kind_ne_endOfFile c cs
    have htokens : s.tokens = s.scan.1 :: s.scan.2.tokens := by rw [tokens_eq, if_neg hkind]
    rw [htokens]
    refine ⟨rfl, fun k => rfl, ?_⟩
    rw [← hs, hrest, utf8Length_append, ← lexeme_append c cs, utf8Length_append, hscan]
    show _ + _ + _ + utf8Length (lexeme c cs).rest = _
    omega

theorem Scanner.pending_scan (s : Scanner) :
    s.scan.2.pending = s.pending ++ s.scan.1.diagnostic?.toList := by
  rcases exists_gap s.rest with hgap | ⟨_, _, _, hrest, hgap, hmore⟩
  · rw [scan_of_isLayout hgap]
    exact (append_nil _).symm
  · rw [scan_of_lexeme hrest hgap hmore]

/-- Where two scanners stand at one place, they read the same tokens. -/
theorem Scanner.tokensWithin_congr (n : Nat) {s t : Scanner} (hrest : s.rest = t.rest)
    (hoffset : s.offset = t.offset) : s.tokensWithin n = t.tokensWithin n := by
  induction n generalizing s t with
  | zero => rfl
  | succ _ ih =>
    have hscan : s.scan.1 = t.scan.1 ∧ s.scan.2.rest = t.scan.2.rest ∧
        s.scan.2.offset = t.scan.2.offset := by
      unfold scan
      rw [hrest, hoffset]
      split <;> exact ⟨rfl, rfl, rfl⟩
    obtain ⟨htoken, hrest, hoffset⟩ := hscan
    unfold tokensWithin
    rw [htoken, ih hrest hoffset]

theorem Scanner.tokens_takePending (s : Scanner) : s.takePending.2.tokens = s.tokens := by
  have hlength : s.rest.length < s.rest.length + 1 := Nat.lt_succ_self _
  have hlength' : s.takePending.2.rest.length < s.rest.length + 1 := hlength
  rw [tokens_eq_tokensWithin hlength, tokens_eq_tokensWithin hlength']
  exact tokensWithin_congr _ rfl rfl

/-- What holds of a history after any calls. -/
structure History.Kept (source : String) (h : History) : Prop where
  /-- The scanner has as many bytes in front of it as the source has behind the last token. -/
  stop : h.scanner.offset + utf8Length h.scanner.rest = source.utf8ByteSize
  read : h.tokens = (List.range h.tokens.length).map (tokenAt source)
  /-- The scanner goes on with the tokens behind those in the record. -/
  coming : ∀ k, h.scanner.tokens[k]?.getD (endToken source) = tokenAt source (h.tokens.length + k)
  reports : List.Forall₂ Token.Reports (h.tokens.filter (·.kind.isInvalid)) h.reports

namespace History

variable {source : String} {h : History}

theorem kept_start (source : String) : Kept source ⟨[], [], .ofSource source⟩ where
  stop := by
    show 0 + utf8Length source.toList = _
    rw [Nat.zero_add, utf8Length_toList]
  read := rfl
  coming k := by
    show (lex source)[k]?.getD _ = (lex source)[0 + k]?.getD _
    rw [Nat.zero_add]
  reports := .nil

theorem Kept.scan (hkept : h.Kept source) : (h.next .scan).Kept source := by
  obtain ⟨hfirst, hothers, hstop⟩ := Scanner.tokens_scan hkept.stop
  refine ⟨hstop, ?_, ?_, ?_⟩
  · show h.tokens ++ [h.scanner.scan.1] = (List.range (h.tokens ++ [h.scanner.scan.1]).length).map _
    rw [length_append, length_singleton, range_succ, map_append, ← hkept.read, hfirst, hkept.coming]
    rfl
  · intro k
    show h.scanner.scan.2.tokens[k]?.getD _ = tokenAt source ((h.tokens ++ [_]).length + k)
    rw [hothers, hkept.coming, length_append, length_singleton]
    congr 1
    omega
  · -- The one new token brings one report if it is invalid, and none otherwise.
    have hpending : (h.next .scan).reports = h.reports ++ h.scanner.scan.1.diagnostic?.toList := by
      show h.handed.flatten ++ h.scanner.scan.2.pending = _
      rw [Scanner.pending_scan, ← append_assoc]
      rfl
    show List.Forall₂ _ ((h.tokens ++ [h.scanner.scan.1]).filter _) _
    rw [hpending, filter_append]
    refine rel_append hkept.reports ?_
    rcases reports_scan h.scanner with ⟨hvalid, hnone⟩ | ⟨hinvalid, _, hd, hreports⟩
    · rw [hnone, filter_singleton, hvalid]
      exact .nil
    · rw [hd, filter_singleton, hinvalid]
      exact .cons hreports .nil

/-- Taking the reports moves them from one list to the other. -/
theorem reports_takePending (h : History) : (h.next .takePending).reports = h.reports := by
  unfold reports next Scanner.takePending
  simp only [flatten_append, flatten_singleton, append_nil]

theorem Kept.takePending (hkept : h.Kept source) : (h.next .takePending).Kept source where
  stop := hkept.stop
  read := hkept.read
  coming := by
    intro k
    show h.scanner.takePending.2.tokens[k]?.getD _ = _
    rw [Scanner.tokens_takePending]
    exact hkept.coming k
  reports := by
    rw [reports_takePending]
    exact hkept.reports

theorem kept_ofCalls (source : String) (calls : List ScannerCall) :
    (ofCalls source calls).Kept source := by
  induction calls using List.reverseRecOn with
  | nil => exact kept_start source
  | append_singleton _ call ih =>
    rw [ofCalls_concat]
    cases call with
    | scan => exact ih.scan
    | takePending => exact ih.takePending

theorem length_tokens_ofCalls (source : String) (calls : List ScannerCall) :
    (ofCalls source calls).tokens.length = calls.count .scan := by
  induction calls using List.reverseRecOn with
  | nil => rfl
  | append_singleton calls call ih =>
    rw [ofCalls_concat, count_append]
    cases call with
    | scan =>
      show ((ofCalls source calls).tokens ++ [_]).length = _
      rw [length_append, ih]
      rfl
    | takePending => exact ih

end History

/-- Whatever is called on a scanner, in any order: the scans give the tokens of the source one after
the other, and the end of the file for ever behind the last one. The reports that were handed over
and those still pending are together one report on each invalid token that was scanned, in order. -/
theorem reports_of_calls (source : String) (calls : List ScannerCall) :
    (History.ofCalls source calls).tokens =
      (List.range (calls.count .scan)).map (tokenAt source) ∧
    List.Forall₂ Token.Reports
      ((History.ofCalls source calls).tokens.filter (·.kind.isInvalid))
      ((History.ofCalls source calls).handed.flatten ++
        (History.ofCalls source calls).scanner.pending) := by
  have hkept := History.kept_ofCalls source calls
  refine ⟨?_, hkept.reports⟩
  rw [← History.length_tokens_ofCalls source calls]
  exact hkept.read

end MiniJava
