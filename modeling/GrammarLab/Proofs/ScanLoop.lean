import Mathlib
import GrammarLab.Proofs.Positions
import GrammarLab.Proofs.Rounds

/-!
# The loop of the scan

The rounds follow one another until the offset leaves the text, and a line is counted with the
offset at which it begins. No round has a fault and each moves on, so the loop ends. It gives the
tokens of the source with their positions.
-/

namespace GrammarLab.Lexer

/-- Where the loop stands: its offset, the number of the line and the offset at which the line
begins. -/
structure Cursor where
  position : Nat := 0
  line : Nat := 1
  lineStart : Nat := 0
  deriving DecidableEq, Repr

namespace Cursor

def moveTo (text : List Char) (c : Cursor) (stop : Nat) : Cursor :=
  let consumed := Span.slice ⟨c.position, stop⟩ text
  if '\n' ∈ consumed then
    ⟨stop, c.line + consumed.count '\n', c.position + (lastLineFeed consumed).toNat + 1⟩
  else { c with position := stop }

@[simp] theorem moveTo_position (text : List Char) (c : Cursor) (stop : Nat) :
    (c.moveTo text stop).position = stop := by
  simp only [moveTo]
  split
  · rfl
  · rfl

def token (c : Cursor) (found : Finding) : Token :=
  ⟨found.1, String.ofList found.2, c.line, c.position - c.lineStart + 1⟩

def round (source : List Char) (c : Cursor) : Except ScanFault (Option Token × Cursor) := do
  let (found, stop) ← scanAt source c.position
  return (found.map c.token, c.moveTo (padded source) stop)

variable {source : List Char} {c next : Cursor} {found : Option Token}

theorem position_lt_of_round (hc : c.position < (padded source).length)
    (h : c.round source = .ok (found, next)) : c.position < next.position := by
  obtain ⟨finding, stop, hscan, hlt, -⟩ := scanAt_advances hc
  rw [round, hscan] at h
  cases h
  rwa [moveTo_position]

end Cursor

def scanFrom (source : List Char) (c : Cursor) : Except ScanFault (List Token) :=
  if hc : c.position < (padded source).length then
    match h : c.round source with
    | .error fault => .error fault
    | .ok (found, next) =>
      have := Cursor.position_lt_of_round hc h
      (scanFrom source next).map (found.toList ++ ·)
  else .ok []
termination_by (padded source).length - c.position
decreasing_by omega

def scan (source : String) : Except ScanFault (List Token) := scanFrom source.toList {}

/-- What keeps the loop from a fault and makes it end. -/
structure ScansSafely (source : List Char) : Prop where
  advances : ∀ i < (padded source).length, ∃ found stop,
    scanAt source i = .ok (found, stop) ∧ i < stop ∧ stop ≤ source.length + 1
  slash : ∀ i, charAt (padded source) i = .ok '/' → ∃ d, charAt (padded source) (i + 1) = .ok d
  operator : ∀ i, branchAt (padded source) i = .ok .operator → ∃ lexeme category,
    symbolTrie.longestMatch ((padded source).drop i) = some (lexeme, category) ∧ lexeme ≠ []
  literal : ∀ i < (padded source).length, ∃ found stop,
    quotedAt source i = .ok (found, stop) ∧ i < stop ∧ stop ≤ source.length + 1

section Lines

variable {cs : List Char} {p : Position}

theorem exists_lastLineFeed (h : '\n' ∈ cs) : ∃ earlier later, cs = earlier ++ '\n' :: later ∧
    '\n' ∉ later ∧ lastLineFeed cs = earlier.length := by
  induction cs using List.reverseRecOn with
  | nil => cases h
  | append_singleton cs c ih =>
    rw [lastLineFeed_append_singleton]
    by_cases hc : c = '\n'
    · subst hc
      exact ⟨cs, [], rfl, by simp, if_pos rfl⟩
    · obtain ⟨earlier, later, rfl, hlater, hlast⟩ := ih (by simpa [Ne.symm hc] using h)
      refine ⟨earlier, later ++ [c], by simp, by simp [hlater, Ne.symm hc], ?_⟩
      rw [if_neg hc, hlast]

theorem column_advance_of_not_mem (h : '\n' ∉ cs) (p : Position) :
    (p.advance cs).column = p.column + cs.length := by
  induction cs generalizing p with
  | nil => rfl
  | cons c rest ih =>
    rw [List.mem_cons, not_or] at h
    have hstep : p.step c = ⟨p.line, p.column + 1⟩ := if_neg (Ne.symm h.1)
    have hrest : (p.advance (c :: rest)).column = (p.step c).column + rest.length :=
      ih h.2 (p.step c)
    rw [hrest, hstep, List.length_cons, Nat.add_right_comm, Nat.add_assoc]

theorem column_advance_lineFeed {earlier later : List Char} (h : '\n' ∉ later) (p : Position) :
    (p.advance (earlier ++ '\n' :: later)).column = later.length + 1 := by
  rw [Position.advance_append]
  refine (column_advance_of_not_mem h ((p.advance earlier).step '\n')).trans ?_
  rw [Position.step, if_pos rfl, Nat.add_comm]

end Lines

/-- The cursor has the offset, and its line and line start make the position. -/
structure Cursor.At (c : Cursor) (p : Position) (i : Nat) : Prop where
  position : c.position = i
  line : c.line = p.line
  lineStart_le : c.lineStart ≤ i
  column : c.position - c.lineStart + 1 = p.column

section Loop

variable {c next : Cursor} {p : Position} {source before : List Char} {found : Option Token}

theorem Cursor.At.moveTo (h : c.At p before.length) (taken after : List Char) :
    (c.moveTo (before ++ (taken ++ after)) (before.length + taken.length)).At (p.advance taken)
      (before ++ taken).length := by
  obtain ⟨hposition, hline, hstart, hcolumn⟩ := h
  have hadvance := p.line_advance taken
  rw [Cursor.moveTo, hposition, Span.slice_append]
  by_cases hfeed : '\n' ∈ taken
  · obtain ⟨earlier, later, rfl, hlater, hlast⟩ := exists_lastLineFeed hfeed
    simp only [hfeed, if_true]
    refine ⟨by simp, by rw [hadvance, hline], ?_, ?_⟩
    · simp [hlast]
    · rw [column_advance_lineFeed hlater]
      simp [hlast]
      omega
  · simp only [hfeed, if_false]
    refine ⟨by simp, ?_, ?_, ?_⟩
    · rw [hadvance, hline, List.count_eq_zero.mpr hfeed, Nat.add_zero]
    · rw [List.length_append]
      exact hstart.trans (Nat.le_add_right _ _)
    · rw [column_advance_of_not_mem hfeed, ← hcolumn]
      show before.length + taken.length - c.lineStart + 1 = _
      omega

theorem Cursor.At.token_eq (h : c.At p before.length) (found : Finding) :
    c.token found = ⟨found.1, String.ofList found.2, p.line, p.column⟩ := by
  rw [Cursor.token, h.line, h.column]

theorem scanFrom_of_round (hc : c.position < (padded source).length)
    (h : c.round source = .ok (found, next)) :
    scanFrom source c = (scanFrom source next).map (found.toList ++ ·) := by
  rw [scanFrom, dif_pos hc]
  split
  · next fault hfault =>
    rw [h] at hfault
    cases hfault
  · next other next' hround =>
    rw [h] at hround
    cases hround
    rfl

theorem scanFrom_of_length_le (h : source.length ≤ c.position) : scanFrom source c = .ok [] := by
  have hbehind : ∀ d : Cursor, source.length < d.position → scanFrom source d = .ok [] := by
    intro d hd
    rw [scanFrom, dif_neg (by rw [length_padded]; omega)]
  rcases h.lt_or_eq with h | h
  · exact hbehind c h
  · have hround : c.round source = .ok (none, c.moveTo (padded source) (source.length + 1)) := by
      rw [Cursor.round, ← h, scanAt_length]
      rfl
    rw [scanFrom_of_round (by rw [length_padded]; omega) hround, hbehind _ (by simp)]
    rfl

theorem tokensAt_cons (p : Position) (q : Piece) (ps : List Piece) :
    tokensAt p (q :: ps) = (q.finding.map fun found =>
      (⟨found.1, String.ofList found.2, p.line, p.column⟩ : Token)).toList ++
        tokensAt (p.advance q.source) ps := by
  cases q with
  | gap c => rfl
  | lexeme category text source => rfl

theorem Found.roundFinds {q : Piece} {after : List Char} (h : Found q after) (before : List Char) :
    RoundFinds (before ++ (q.source ++ after)) before.length q := by
  obtain ⟨d, rest, hsource, hfirst⟩ := h.firstPiece
  rw [hsource, ← hfirst]
  exact roundFinds_firstPiece before d rest

/-- The invariant of the loop: in front of the cursor stands what is consumed, and the rounds from
the cursor on find the pieces of the rest. -/
theorem scanFrom_of_scanned {ps : List Piece} (h : Scanned ps) (hc : c.At p before.length) :
    scanFrom (before ++ ps.flatMap Piece.source) c = .ok (tokensAt p ps) := by
  induction h generalizing before c p with
  | nil => exact scanFrom_of_length_le (by simp [hc.position])
  | @cons q ps hfound hps ih =>
    rw [List.flatMap_cons]
    obtain ⟨stop, hfinds, hends⟩ := hfound.roundFinds before
    generalize hafter : ps.flatMap Piece.source = after at *
    have hround : c.round (before ++ (q.source ++ after)) = .ok (q.finding.map c.token,
        c.moveTo (padded (before ++ (q.source ++ after))) stop) := by
      rw [Cursor.round, hc.position, hfinds]
      rfl
    have hnext : scanFrom (before ++ (q.source ++ after))
        (c.moveTo (padded (before ++ (q.source ++ after))) stop) =
          .ok (tokensAt (p.advance q.source) ps) := by
      rcases hends with rfl | ⟨hend, rfl⟩
      · rw [padded_append, List.append_assoc, ← List.append_assoc before q.source after]
        exact ih (hc.moveTo q.source (after ++ [' ']))
      -- the blank is passed together with the last piece
      · obtain rfl : after = [] := by
          simp only [List.length_append] at hend
          exact List.length_eq_zero_iff.mp (by omega)
        rw [← pieces_of_scanned hps, hafter, pieces]
        exact scanFrom_of_length_le (by simp)
    rw [scanFrom_of_round (by simp [hc.position]) hround, hnext, tokensAt_cons,
      funext hc.token_eq]
    rfl

end Loop

section Safety

variable {source : List Char} {i : Nat}

theorem charAt_eq_ok_iff {text : List Char} {c : Char} :
    charAt text i = .ok c ↔ text[i]? = some c := by
  unfold charAt
  cases text[i]? with
  | none => simp
  | some d => simp

theorem exists_charAt_succ (h : charAt (padded source) i = .ok '/') :
    ∃ d, charAt (padded source) (i + 1) = .ok d := by
  rw [charAt_eq_ok_iff, padded, List.getElem?_append] at h
  split at h
  · next hi =>
    have hnext : i + 1 < (padded source).length := by
      rw [length_padded]
      omega
    exact ⟨_, charAt_eq_ok_iff.mpr (List.getElem?_eq_getElem hnext)⟩
  · exact absurd (List.mem_of_getElem? h) (by decide)

theorem exists_longestMatch (h : branchAt (padded source) i = .ok .operator) :
    ∃ lexeme category, symbolTrie.longestMatch ((padded source).drop i) = some (lexeme, category) ∧
      lexeme ≠ [] := by
  obtain ⟨c, hc, hletter, hstarts⟩ := starts_of_branchAt h
  obtain ⟨hi, rfl⟩ := List.getElem?_eq_some_iff.mp hc
  obtain ⟨lexeme, category, hlongest⟩ :=
    exists_longest_of_starts hletter hstarts ((padded source).drop (i + 1))
  rw [← List.drop_eq_getElem_cons hi] at hlongest
  exact ⟨lexeme, category, Trie.longestMatch_eq_some_iff.mpr hlongest, hlongest.ne_nil⟩

theorem quotedAt_advances (h : i < (padded source).length) : ∃ found stop,
    quotedAt source i = .ok (found, stop) ∧ i < stop ∧ stop ≤ source.length + 1 := by
  have hquote : charAt (padded source) i = .ok (padded source)[i] :=
    charAt_eq_ok_iff.mpr (List.getElem?_eq_getElem h)
  let stop := quoteEnd (padded source)[i] (padded source) (i + 1)
  have hstop : i + 1 ≤ stop := le_quoteEnd _ _ _
  rw [quotedAt, hquote]
  simp only [ok_bind, pure_eq_ok, classifyChar_eq]
  by_cases hopen : (padded source).length ≤ stop
  · rw [if_pos hopen]
    exact ⟨_, _, rfl, h, (length_padded source).le⟩
  · rw [if_neg hopen]
    have hbound : stop + 1 ≤ source.length + 1 := by
      rw [← length_padded]
      omega
    split
    · exact ⟨_, _, rfl, by omega, hbound⟩
    · exact ⟨_, _, rfl, by omega, hbound⟩

/-- The backslash takes the blank along. -/
example : quotedAt "'\\".toList 0 = .ok ((.error, ['\\']), 3) := by cbv

/-- No source makes the scan fail, and its loop ends with the tokens of the source. -/
theorem scan_tokenize (source : String) :
    ScansSafely source.toList ∧ scan source = .ok (tokenize source) := by
  constructor
  · exact ⟨fun i => scanAt_advances, fun i => exists_charAt_succ, fun i => exists_longestMatch,
      fun i => quotedAt_advances⟩
  · have hstart : Cursor.At {} {} ([] : List Char).length := ⟨rfl, rfl, le_rfl, rfl⟩
    have hscan := scanFrom_of_scanned (scanned_pieces source.toList) hstart
    rwa [flatMap_source_pieces] at hscan

end Safety

end GrammarLab.Lexer
