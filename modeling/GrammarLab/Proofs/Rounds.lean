import Mathlib
import GrammarLab.Proofs.MaximalMunch
import GrammarLab.Proofs.Offsets

/-!
# Rounds of the scan by offsets

A round that begins where a piece does finds that piece, and it ends behind the piece or behind the
blank. The blank changes nothing that is found: no run and no symbol goes on with it. Where a symbol
starts one is found, since every first character of a symbol that is no letter is a symbol.
-/

namespace GrammarLab.Lexer

def Piece.finding : Piece → Option Finding
  | .gap _ => none
  | .lexeme category text _ => some (category, text)

/-- The round finds the piece. It ends behind it, or behind the blank if the piece is the last. -/
structure RoundEnds (source : List Char) (i : Nat) (p : Piece) (stop : Nat) : Prop where
  finds : scanAt source i = .ok (p.finding, stop)
  ends : stop = i + p.source.length ∨
    i + p.source.length = source.length ∧ stop = source.length + 1

def RoundFinds (source : List Char) (i : Nat) (p : Piece) : Prop :=
  ∃ stop, RoundEnds source i p stop

section Symbols

variable {c : Char}

theorem blank_not_mem_of_find {w : List Char} (h : (symbolTrie.find w).isSome) : ' ' ∉ w := by
  have hall : ∀ v ∈ symbolEntries.map Prod.fst, ' ' ∉ v := by decide
  exact hall w (Trie.isSome_find_ofEntries.mp h)

theorem longestMatch_concat_blank (cs : List Char) :
    symbolTrie.longestMatch (cs ++ [' ']) = symbolTrie.longestMatch cs := by
  have hbegins : ∀ v, (symbolTrie.find v).isSome → v <+: cs ++ [' '] → v <+: cs := by
    intro v hstored hv
    rcases List.prefix_concat_iff.mp hv with rfl | hv
    · exact absurd (by simp) (blank_not_mem_of_find hstored)
    · exact hv
  cases hlongest : symbolTrie.longestMatch cs with
  | none =>
    rw [Trie.longestMatch_eq_none_iff] at hlongest ⊢
    exact hlongest.of_begins hbegins
  | some found =>
    rw [Trie.longestMatch_eq_some_iff] at hlongest ⊢
    exact hlongest.of_begins (hlongest.begins.trans (List.prefix_append _ _)) hbegins

theorem longestMatch_of_not_starts (h : ¬symbolTrie.Starts c) (rest : List Char) :
    symbolTrie.longestMatch (c :: rest) = none := by
  rw [Trie.longestMatch_eq_none_iff, Trie.unmatched_cons_iff]
  intro v _
  rw [Trie.find, Option.not_isSome_iff_eq_none.mp h, Option.bind_none]

theorem exists_longest_of_starts (hletter : ¬c.isAlpha) (h : symbolTrie.Starts c)
    (rest : List Char) : ∃ lexeme category, symbolTrie.Longest (c :: rest) lexeme category := by
  cases hlongest : symbolTrie.longestMatch (c :: rest) with
  | some found => exact ⟨_, _, Trie.longestMatch_eq_some_iff.mp hlongest⟩
  | none =>
    obtain ⟨e, he, tail, htail⟩ := Trie.starts_ofEntries.mp h
    have hword : e.1 ∈ symbolEntries.map Prod.fst := List.mem_map_of_mem he
    rw [words_symbolEntries] at hword
    obtain ⟨s, hs, heq⟩ := List.mem_map.mp hword
    have hhead : s.toList.head? = some c := by
      rw [heq, ← htail]
      rfl
    have hunmatched := Trie.longestMatch_eq_none_iff.mp hlongest
    exact absurd hhead (head_of_unmatched hunmatched hletter s hs)

theorem length_le_of_delimiter {e : List Char × Category} (he : e ∈ symbolEntries)
    (hc : e.1.head? = some c) (h : String.singleton c ∈ delimiters) : e.1.length ≤ 1 := by
  -- in Booleans, because `decide` would try a quantifier over characters on all of them
  have hall : symbolEntries.all fun e => e.1.head?.all fun c =>
      !decide (String.singleton c ∈ delimiters) || e.1.length ≤ 1 := by decide
  have hhead := List.all_eq_true.mp hall e he
  rw [hc, Option.all_some] at hhead
  simpa [h] using hhead

theorem longestMatch_delimiter (h : String.singleton c ∈ delimiters) (rest : List Char) :
    symbolTrie.longestMatch (c :: rest) = some ([c], .delimiter) := by
  have hstored : ∀ s ∈ delimiters, symbolTrie.find s.toList = some .delimiter := by decide +kernel
  have hc := hstored _ h
  rw [String.toList_singleton] at hc
  refine Trie.longestMatch_eq_some_iff.mpr ⟨by simp, by simp, hc, ?_⟩
  intro v hv hword
  cases v with
  | nil => exact Nat.zero_le _
  | cons d tail =>
    obtain ⟨rfl, -⟩ := List.cons_prefix_cons.mp hv
    obtain ⟨e, he, heq⟩ := List.mem_map.mp (Trie.isSome_find_ofEntries.mp hword)
    have hlength := length_le_of_delimiter he (by rw [heq]; rfl) h
    rwa [heq] at hlength

end Symbols

section Branches

variable {c : Char} {rest : List Char}

theorem padded_append (before rest : List Char) :
    padded (before ++ rest) = before ++ (rest ++ [' ']) := List.append_assoc _ _ _

theorem charAt_padded (before : List Char) (c : Char) (rest : List Char) :
    charAt (padded (before ++ c :: rest)) before.length = .ok c := by
  rw [padded_append]
  exact charAt_append _ _ _

theorem charAt_padded_succ (before : List Char) (c : Char) (rest : List Char) :
    charAt (padded (before ++ c :: rest)) (before.length + 1) = .ok (rest.headD ' ') := by
  rw [padded_append]
  cases rest with
  | nil => exact charAt_append_succ _ _ _ _
  | cons d rest => exact charAt_append_succ _ _ _ _

theorem ne_lineFeed_of_isAlphanum (h : c.isAlphanum) : c ≠ '\n' := by
  rintro rfl
  exact absurd h (by decide)

theorem branchAt_word (hc : c.isAlpha) (before rest : List Char) :
    branchAt (padded (before ++ c :: rest)) before.length = .ok .word := by
  have hline : c ≠ '\n' := ne_lineFeed_of_isAlphanum (by simp [Char.isAlphanum, hc])
  simp [branchAt, charAt_padded, hline, hc]

theorem branchAt_number (hc : c.isDigit) (before rest : List Char) :
    branchAt (padded (before ++ c :: rest)) before.length = .ok .number := by
  have hline : c ≠ '\n' := ne_lineFeed_of_isAlphanum (by simp [Char.isAlphanum, hc])
  simp [branchAt, charAt_padded, hline, not_isAlpha_of_isDigit hc, hc]

theorem branchAt_slash (before rest : List Char) :
    branchAt (padded (before ++ '/' :: rest)) before.length =
      .ok (if rest.headD ' ' = '*' then .blockComment
        else if rest.headD ' ' = '/' then .lineComment else .operator) := by
  have hslash : symbolBranch '/' = .operator := by decide
  have hletter : '/'.isAlpha = false := by decide
  have hdigit : '/'.isDigit = false := by decide
  simp [branchAt, charAt_padded, charAt_padded_succ, hletter, hdigit, hslash]

theorem branchAt_lineFeed (before rest : List Char) :
    branchAt (padded (before ++ '\n' :: rest)) before.length = .ok .lineFeed := by
  simp [branchAt, charAt_padded]

theorem branchAt_symbol (hletter : ¬c.isAlpha) (hdigit : ¬c.isDigit) (hslash : c ≠ '/')
    (hline : c ≠ '\n') (before rest : List Char) :
    branchAt (padded (before ++ c :: rest)) before.length = .ok (symbolBranch c) := by
  simp [branchAt, charAt_padded, hletter, hdigit, hslash, hline]

theorem branchAt_quote (h : IsQuote c) (before rest : List Char) :
    branchAt (padded (before ++ c :: rest)) before.length = .ok .literal := by
  have hliteral : symbolBranch c = .literal := by
    rcases h with rfl | rfl
    · decide
    · decide
  rw [← hliteral]
  rcases h with rfl | rfl
  · exact branchAt_symbol (by decide) (by decide) (by decide) (by decide) before rest
  · exact branchAt_symbol (by decide) (by decide) (by decide) (by decide) before rest

/-- Where nothing but a symbol or a gap is left, a slash is a symbol as well. -/
theorem branchAt_plain (h : Plain (c :: rest)) (hline : c ≠ '\n') (before : List Char) :
    branchAt (padded (before ++ c :: rest)) before.length = .ok (symbolBranch c) := by
  obtain ⟨hletter, hdigit, -⟩ := h.head
  by_cases hslash : c = '/'
  · subst hslash
    have hnext : rest.headD ' ' ≠ '*' ∧ rest.headD ' ' ≠ '/' := by
      cases rest with
      | nil => decide
      | cons d rest => exact h.second
    rw [branchAt_slash, if_neg hnext.1, if_neg hnext.2]
    rfl
  · exact branchAt_symbol hletter hdigit hslash hline before rest

theorem starts_of_symbolBranch (h : symbolBranch c = .operator) : symbolTrie.Starts c := by
  by_contra hstarts
  rw [symbolBranch, if_neg hstarts] at h
  split_ifs at h

theorem starts_of_branchAt {text : List Char} {i : Nat} (h : branchAt text i = .ok .operator) :
    ∃ c, text[i]? = some c ∧ ¬c.isAlpha ∧ symbolTrie.Starts c := by
  unfold branchAt charAt at h
  cases hc : text[i]? with
  | none =>
    rw [hc] at h
    cases h
  | some c =>
    rw [hc] at h
    simp only [ok_bind, pure_eq_ok] at h
    split_ifs at h with hline hletter hdigit hslash
    · cases h
    · cases h
    · cases h
    · cases hd : text[i + 1]? with
      | none =>
        rw [hd] at h
        cases h
      | some d =>
        rw [hd] at h
        have hbranch := Except.ok.inj h
        split_ifs at hbranch
        exact ⟨c, rfl, hletter, starts_of_symbolBranch hbranch⟩
    · exact ⟨c, rfl, hletter, starts_of_symbolBranch (Except.ok.inj h)⟩

end Branches

section Rounds

variable {c quote : Char} {rest : List Char}

theorem slice_padded (before taken after : List Char) :
    Span.slice ⟨before.length, before.length + taken.length⟩ (padded (before ++ (taken ++ after))) =
      taken := by
  rw [padded_append, List.append_assoc]
  exact Span.slice_append _ _ _

theorem runEnd_padded {p : Char → Bool} (hp : p ' ' = false) (before : List Char) (c : Char)
    (rest : List Char) :
    runEnd p (padded (before ++ c :: rest)) (before.length + 1) =
      before.length + (c :: rest.takeWhile p).length := by
  have hrun := runEnd_append p (before ++ [c]) (rest ++ [' '])
  rw [List.append_assoc, List.length_append, takeWhile_concat hp] at hrun
  rw [padded_append]
  refine hrun.trans ?_
  rw [List.length_singleton, List.length_cons]
  omega

theorem slice_run (p : Char → Bool) (before : List Char) (c : Char) (rest : List Char) :
    Span.slice ⟨before.length, before.length + (c :: rest.takeWhile p).length⟩
      (padded (before ++ c :: rest)) = c :: rest.takeWhile p := by
  have hslice := slice_padded before (c :: rest.takeWhile p) (rest.dropWhile p)
  rwa [List.cons_append, List.takeWhile_append_dropWhile] at hslice

theorem roundFinds_word (hc : c.isAlpha) (before rest : List Char) :
    RoundFinds (before ++ c :: rest) before.length (word c rest) := by
  have hblank : Char.isAlphanum ' ' = false := by decide
  refine ⟨_, ?_, .inl rfl⟩
  rw [scanAt, branchAt_word hc]
  simp only [ok_bind, pure_eq_ok, runEnd_padded hblank, slice_run]
  rfl

theorem roundFinds_number (hc : c.isDigit) (before rest : List Char) :
    RoundFinds (before ++ c :: rest) before.length (number c rest) := by
  have hstop := @runEnd_padded (fun d => IsWordChar d) (by decide) before c rest
  refine ⟨_, ?_, .inl rfl⟩
  rw [scanAt, branchAt_number hc]
  simp only [ok_bind, pure_eq_ok, hstop, slice_run]
  rfl

theorem slice_behind_mark (before : List Char) (c d : Char) (text after : List Char) :
    Span.slice ⟨before.length + 2, before.length + 2 + text.length⟩
      (before ++ c :: d :: (text ++ after)) = text := by
  have hslice := Span.slice_append (before ++ [c, d]) text after
  rwa [List.append_assoc, List.length_append] at hslice

theorem roundFinds_blockComment (before body : List Char) :
    RoundFinds (before ++ '/' :: '*' :: body) before.length (blockComment body) := by
  have hclose : findFrom ['*', '/'] (before ++ '/' :: '*' :: body) (before.length + 2) =
      (commentText body).map fun text => before.length + 2 + text.length := by
    have hmark := findFrom_commentText (before ++ ['/', '*']) body
    rwa [List.append_assoc, List.length_append] at hmark
  unfold RoundFinds blockComment
  cases htext : commentText body with
  | none =>
    refine ⟨(before ++ '/' :: '*' :: body).length + 1, ?_, .inr ⟨by simp [Piece.source], rfl⟩⟩
    rw [scanAt, branchAt_slash]
    simp [hclose, htext, padded, Piece.finding, Nat.add_assoc]
  | some text =>
    obtain ⟨after, rfl⟩ := commentText_split htext
    have hstop : before.length + 2 + text.length + 2 =
        before.length + ('/' :: '*' :: text ++ ['*', '/']).length := by
      simp
      omega
    refine ⟨before.length + 2 + text.length + 2, ?_, .inl hstop⟩
    rw [scanAt, branchAt_slash]
    simp [hclose, htext, slice_behind_mark, Piece.finding]

theorem roundFinds_lineComment (before body : List Char) :
    RoundFinds (before ++ '/' :: '/' :: body) before.length (lineComment body) := by
  let text := body.takeWhile (· ≠ '\n')
  have hclose : (findFrom ['\n'] (before ++ '/' :: '/' :: body) (before.length + 2)).getD
      (before ++ '/' :: '/' :: body).length = before.length + 2 + text.length := by
    have hmark := findFrom_lineFeed (before ++ ['/', '/']) body
    rwa [List.append_assoc, List.length_append] at hmark
  have hslice := slice_behind_mark before '/' '/' text (body.dropWhile (· ≠ '\n'))
  rw [List.takeWhile_append_dropWhile] at hslice
  have hstop : before.length + 2 + text.length = before.length + ('/' :: '/' :: text).length := by
    rw [List.length_cons, List.length_cons]
    omega
  refine ⟨before.length + 2 + text.length, ?_, .inl hstop⟩
  rw [scanAt, branchAt_slash, List.headD_cons, if_neg (by decide), if_pos rfl]
  simp only [ok_bind, pure_eq_ok, hclose, hslice]
  rfl

theorem quotedAt_eq (hquote : IsQuote quote) (before body : List Char) :
    quotedAt (before ++ quote :: body) before.length =
      .ok (match quotedText quote body with
        | some text => ((literalCategory quote text, text), before.length + 1 + text.length + 1)
        | none => ((.error, body), (before ++ quote :: body).length + 1)) := by
  have hblank : quote ≠ ' ' := by
    rcases hquote with rfl | rfl
    · decide
    · decide
  have hstop : quoteEnd quote (padded (before ++ quote :: body)) (before.length + 1) =
      before.length + 1 + ((quotedText quote body).map List.length).getD (body.length + 1) := by
    have hclose := quoteEnd_append hblank (before ++ [quote]) body
    rw [List.append_assoc, List.length_append] at hclose
    rwa [padded_append]
  unfold quotedAt
  simp only [charAt_padded, ok_bind, pure_eq_ok, hstop]
  cases htext : quotedText quote body with
  | none =>
    rw [Option.map_none, Option.getD_none, length_padded, if_pos (by simp)]
    simp
  | some text =>
    obtain ⟨after, rfl⟩ := quotedText_split htext
    have hslice := slice_padded (before ++ [quote]) text (quote :: after)
    rw [List.append_assoc, List.length_append, List.singleton_append, List.length_singleton]
      at hslice
    rw [Option.map_some, Option.getD_some, length_padded, if_neg (by simp; omega), hslice]
    rcases hquote with rfl | rfl
    · rfl
    · rw [if_neg (by decide), classifyChar_eq]
      rfl

theorem roundFinds_quoted (hquote : IsQuote quote) (before body : List Char) :
    RoundFinds (before ++ quote :: body) before.length
      (quoted quote (literalCategory quote) body) := by
  unfold RoundFinds quoted
  cases htext : quotedText quote body with
  | none =>
    refine ⟨(before ++ quote :: body).length + 1, ?_, .inr ⟨by simp [Piece.source], rfl⟩⟩
    rw [scanAt, branchAt_quote hquote]
    simp only [ok_bind, pure_eq_ok, quotedAt_eq hquote, htext]
    rfl
  | some text =>
    have hstop : before.length + 1 + text.length + 1 =
        before.length + (quote :: text ++ [quote]).length := by
      simp
      omega
    refine ⟨before.length + 1 + text.length + 1, ?_, .inl hstop⟩
    rw [scanAt, branchAt_quote hquote]
    simp only [ok_bind, pure_eq_ok, quotedAt_eq hquote, htext]
    rfl

/-- A line feed is a gap like any other character that starts no symbol. -/
theorem roundFinds_symbolOrGap (h : Plain (c :: rest)) (before : List Char) :
    RoundFinds (before ++ c :: rest) before.length (symbolOrGap c rest) := by
  unfold RoundFinds symbolOrGap
  -- the line feed comes first in the order of the branches
  by_cases hline : c = '\n'
  · subst hline
    rw [longestMatch_of_not_starts (by decide)]
    refine ⟨before.length + 1, ?_, .inl rfl⟩
    rw [scanAt, branchAt_lineFeed]
    rfl
  have hbranch := branchAt_plain h hline before
  by_cases hdelimiter : String.singleton c ∈ delimiters
  · rw [longestMatch_delimiter hdelimiter]
    refine ⟨before.length + 1, ?_, .inl rfl⟩
    rw [scanAt, hbranch, symbolBranch, if_pos hdelimiter]
    simp only [ok_bind, pure_eq_ok, charAt_padded]
    rfl
  by_cases hstarts : symbolTrie.Starts c
  · obtain ⟨lexeme, category, hlongest⟩ := exists_longest_of_starts h.head.1 hstarts rest
    have hmatch := Trie.longestMatch_eq_some_iff.mpr hlongest
    have hpadded : symbolTrie.longestMatch ((padded (before ++ c :: rest)).drop before.length) =
        some (lexeme, category) := by
      rw [padded_append, List.drop_left, longestMatch_concat_blank, hmatch]
    rw [hmatch]
    refine ⟨before.length + lexeme.length, ?_, .inl rfl⟩
    rw [scanAt, hbranch, symbolBranch, if_neg hdelimiter, if_pos hstarts]
    simp only [ok_bind, pure_eq_ok, hpadded]
    rfl
  · have hquote : ¬(c = '"' ∨ c = '\'') := h.head.2.2
    rw [longestMatch_of_not_starts hstarts]
    refine ⟨before.length + 1, ?_, .inl rfl⟩
    rw [scanAt, hbranch, symbolBranch, if_neg hdelimiter, if_neg hstarts, if_neg hquote]
    rfl

theorem roundFinds_firstPiece (before : List Char) (c : Char) (rest : List Char) :
    RoundFinds (before ++ c :: rest) before.length (firstPiece c rest) := by
  by_cases hletter : c.isAlpha
  · rw [firstPiece_word hletter]
    exact roundFinds_word hletter before rest
  by_cases hdigit : c.isDigit
  · rw [firstPiece_number hdigit]
    exact roundFinds_number hdigit before rest
  by_cases hquote : IsQuote c
  · rw [firstPiece_quote hquote]
    exact roundFinds_quoted hquote before rest
  by_cases hblock : ∃ body, c = '/' ∧ rest = '*' :: body
  · obtain ⟨body, rfl, rfl⟩ := hblock
    exact roundFinds_blockComment before body
  by_cases hline : ∃ body, c = '/' ∧ rest = '/' :: body
  · obtain ⟨body, rfl, rfl⟩ := hline
    exact roundFinds_lineComment before body
  have hplain : Plain (c :: rest) := by
    refine plain_cons hletter hdigit hquote ?_
    rintro d body rfl rfl
    exact ⟨fun hd => hblock ⟨body, rfl, hd ▸ rfl⟩, fun hd => hline ⟨body, rfl, hd ▸ rfl⟩⟩
  rw [firstPiece_eq_symbolOrGap hplain]
  exact roundFinds_symbolOrGap hplain before

theorem scanAt_length (source : List Char) :
    scanAt source source.length = .ok (none, source.length + 1) := by
  have hbranch : branchAt (padded source) source.length = .ok .other := by
    have hother : symbolBranch ' ' = .other := by decide
    have hblank : charAt (padded source) source.length = .ok ' ' := charAt_append _ _ _
    have hletter : ' '.isAlpha = false := by decide
    have hdigit : ' '.isDigit = false := by decide
    simp [branchAt, hblank, hletter, hdigit, hother]
  rw [scanAt, hbranch]
  rfl

theorem scanAt_advances {source : List Char} {i : Nat} (h : i < (padded source).length) :
    ∃ found stop, scanAt source i = .ok (found, stop) ∧ i < stop ∧ stop ≤ source.length + 1 := by
  rw [length_padded, Nat.lt_succ_iff_lt_or_eq] at h
  rcases h with h | rfl
  · obtain ⟨before, c, rest, rfl, rfl⟩ : ∃ before c rest,
        source = before ++ c :: rest ∧ i = before.length :=
      ⟨source.take i, source[i], source.drop (i + 1), by simp, by simp; omega⟩
    obtain ⟨stop, hfinds, hends⟩ := roundFinds_firstPiece before c rest
    obtain ⟨hne, hsplit⟩ := firstPiece_begins c rest
    have hpos := List.length_pos_iff.mpr hne
    have hlength := congrArg List.length hsplit
    refine ⟨_, stop, hfinds, ?_⟩
    simp only [List.length_append, List.length_cons] at hends hlength ⊢
    omega
  · exact ⟨none, source.length + 1, scanAt_length source, Nat.lt_succ_self _, le_rfl⟩

end Rounds

end GrammarLab.Lexer
