import Mathlib
import GrammarLab.Lexer.Token
import GrammarLab.Proofs.LongestMatch

/-!
# What the scan finds

A piece is judged with the characters that follow it in the source. `Found` lists what a step of
the scan can find, with everything that the step has looked at, and it holds of nothing but the
first piece. So a list of pieces is the scan of its own source exactly if each piece is found in
front of the source of those after it (`Scanned`).
-/

namespace GrammarLab.Lexer

/-- Characters between two quotes. A backslash stands together with the character after it. -/
inductive Units (quote : Char) : List Char → Prop where
  | nil : Units quote []
  | plain {c : Char} {rest : List Char} : c ≠ '\\' → c ≠ quote → Units quote rest →
      Units quote (c :: rest)
  | escaped (c : Char) {rest : List Char} : Units quote rest → Units quote ('\\' :: c :: rest)

def Stops (p : Char → Bool) (after : List Char) : Prop := ∀ d ∈ after.head?, p d = false

def IsQuote (c : Char) : Prop := c = '"' ∨ c = '\''

def literalCategory (quote : Char) (text : List Char) : Category :=
  if quote = '"' then .string else charCategory text

def Opens : List Char → Prop
  | [c] => c.isAlpha ∨ c.isDigit ∨ IsQuote c
  | ['/', c] => c = '*' ∨ c = '/'
  | _ => False

/-- Nothing is left at the front but a delimiter, an operator or a gap. -/
def Plain (cs : List Char) : Prop := ∀ v, v <+: cs → ¬Opens v

/-- The scan finds the piece in front of the characters after it. Runs and symbols are as long as
they can be, and a closing mark is the first one. -/
inductive Found : Piece → List Char → Prop where
  | word {c : Char} {run after : List Char} : c.isAlpha → (∀ d ∈ run, d.isAlphanum) →
      Stops Char.isAlphanum after →
      Found (.lexeme (wordCategory (c :: run)) (c :: run) (c :: run)) after
  | number {c : Char} {run after : List Char} : c.isDigit → (∀ d ∈ run, IsWordChar d) →
      Stops (fun d => IsWordChar d) after →
      Found (.lexeme (if IsNumber (c :: run) then .number else .error) (c :: run) (c :: run)) after
  | comment {text after : List Char} : '\n' ∉ text → Stops (· ≠ '\n') after →
      Found (.lexeme .comment text ('/' :: '/' :: text)) after
  | blockComment {text : List Char} (after : List Char) : ¬['*', '/'] <:+: text →
      Found (.lexeme .blockComment text ('/' :: '*' :: text ++ ['*', '/'])) after
  | openComment {body : List Char} : ¬['*', '/'] <:+: body →
      Found (.lexeme .error ('/' :: '*' :: body) ('/' :: '*' :: body)) []
  | literal {quote : Char} {text : List Char} (after : List Char) : IsQuote quote →
      Units quote text →
      Found (.lexeme (literalCategory quote text) text (quote :: text ++ [quote])) after
  | openLiteral {quote : Char} {body : List Char} : IsQuote quote →
      (∀ text after, Units quote text → body ≠ text ++ quote :: after) →
      Found (.lexeme .error body (quote :: body)) []
  | symbol {category : Category} {text after : List Char} : Plain (text ++ after) →
      symbolTrie.Longest (text ++ after) text category → Found (.lexeme category text text) after
  | gap {c : Char} {after : List Char} : Plain (c :: after) → symbolTrie.Unmatched (c :: after) →
      Found (.gap c) after

def Piece.Leads (p : Piece) (cs : List Char) : Prop :=
  ∃ after, cs = p.source ++ after ∧ Found p after

section Ends

variable {p : Char → Bool} {cs text body after : List Char} {quote : Char}

theorem stops_dropWhile (p : Char → Bool) (cs : List Char) : Stops p (cs.dropWhile p) := by
  intro d hd
  induction cs with
  | nil => cases hd
  | cons c rest ih =>
    rw [List.dropWhile_cons] at hd
    split at hd
    · exact ih hd
    · next hc =>
      cases hd
      simpa using hc

theorem takeWhile_append_of_stops {run : List Char} (hrun : ∀ d ∈ run, p d) (h : Stops p after) :
    (run ++ after).takeWhile p = run := by
  rw [List.takeWhile_append_of_pos hrun]
  cases after with
  | nil => simp
  | cons d rest => simp [h d rfl]

theorem commentText_append (h : ¬['*', '/'] <:+: text) (after : List Char) :
    commentText (text ++ '*' :: '/' :: after) = some text := by
  induction text with
  | nil => rfl
  | cons c text ih =>
    rw [List.infix_cons_iff, not_or] at h
    have hopen : ∀ rest, c = '*' → text ++ '*' :: '/' :: after = '/' :: rest → False := by
      rintro rest rfl hslash
      cases text with
      | nil => cases hslash
      | cons d text =>
        obtain ⟨rfl, -⟩ := List.cons.inj hslash
        exact h.1 ⟨text, rfl⟩
    rw [List.cons_append, commentText.eq_3 _ _ hopen, ih h.2]
    rfl

theorem not_infix_of_commentText (h : commentText body = some text) :
    ¬['*', '/'] <:+: text := by
  fun_induction commentText body generalizing text with
  | case1 => cases h
  | case2 rest =>
    cases h
    simp
  | case3 c rest hopen ih =>
    obtain ⟨tail, htail, rfl⟩ := Option.map_eq_some_iff.mp h
    obtain ⟨after, rfl⟩ := commentText_split htail
    rw [List.infix_cons_iff, not_or]
    refine ⟨?_, ih htail⟩
    rintro ⟨more, hmore⟩
    obtain ⟨rfl, hslash⟩ := List.cons.inj hmore
    exact hopen (more ++ '*' :: '/' :: after) rfl (by rw [← hslash]; rfl)

theorem commentText_eq_none_iff : commentText body = none ↔ ¬['*', '/'] <:+: body := by
  constructor
  · intro h
    fun_induction commentText body with
    | case1 => simp
    | case2 => cases h
    | case3 c rest hopen ih =>
      rw [List.infix_cons_iff, not_or]
      refine ⟨?_, ih (Option.map_eq_none_iff.mp h)⟩
      rintro ⟨more, hmore⟩
      obtain ⟨rfl, hslash⟩ := List.cons.inj hmore
      exact hopen more rfl hslash.symm
  · intro h
    cases htext : commentText body with
    | none => rfl
    | some text =>
      obtain ⟨after, rfl⟩ := commentText_split htext
      exact absurd ⟨text, after, by simp⟩ h

theorem Units.quotedText_append (hquote : quote ≠ '\\') (h : Units quote text)
    (after : List Char) : quotedText quote (text ++ quote :: after) = some text := by
  induction h with
  | nil =>
    rw [List.nil_append, quotedText.eq_4 _ _ _ (fun h _ => hquote h) (fun _ _ h _ => hquote h),
      if_pos rfl]
  | plain hback hother _ ih =>
    rw [List.cons_append, quotedText.eq_4 _ _ _ (fun h _ => hback h) (fun _ _ h _ => hback h),
      if_neg hother, ih]
    rfl
  | escaped c _ ih =>
    rw [List.cons_append, List.cons_append, quotedText, ih]
    rfl

theorem units_of_quotedText (h : quotedText quote body = some text) : Units quote text := by
  fun_induction quotedText quote body generalizing text with
  | case1 => cases h
  | case2 => cases h
  | case3 c rest ih =>
    obtain ⟨tail, htail, rfl⟩ := Option.map_eq_some_iff.mp h
    exact .escaped c (ih htail)
  | case4 rest =>
    cases h
    exact .nil
  | case5 c rest hlast hback hother ih =>
    obtain ⟨tail, htail, rfl⟩ := Option.map_eq_some_iff.mp h
    refine .plain ?_ hother (ih htail)
    -- a backslash is followed by nothing or by the character it takes along
    rintro rfl
    cases rest with
    | nil => exact hlast rfl rfl
    | cons d rest => exact hback d rest rfl rfl

theorem quotedText_eq_none_iff (hquote : quote ≠ '\\') : quotedText quote body = none ↔
    ∀ text after, Units quote text → body ≠ text ++ quote :: after := by
  constructor
  · rintro h text after hunits rfl
    cases h.symm.trans (hunits.quotedText_append hquote after)
  · intro h
    cases htext : quotedText quote body with
    | none => rfl
    | some text =>
      obtain ⟨after, hafter⟩ := quotedText_split htext
      exact absurd hafter (h text after (units_of_quotedText htext))

end Ends

section Step

variable {c : Char} {rest after : List Char} {p : Piece}

theorem IsQuote.ne_backslash (h : IsQuote c) : c ≠ '\\' := by
  rcases h with rfl | rfl <;> decide

theorem not_isAlpha_of_isDigit (h : c.isDigit) : ¬c.isAlpha := by
  grind [Char.isDigit, Char.isAlpha, Char.isUpper, Char.isLower]

theorem plain_nil : Plain [] := by
  intro v hv
  rw [List.prefix_nil.mp hv]
  exact id

theorem Plain.head (h : Plain (c :: rest)) : ¬c.isAlpha ∧ ¬c.isDigit ∧ ¬IsQuote c := by
  have hopens := h [c] (by simp)
  simpa [Opens] using hopens

theorem Plain.second {d : Char} (h : Plain ('/' :: d :: rest)) : d ≠ '*' ∧ d ≠ '/' := by
  have hopens := h ['/', d] (by simp)
  simpa [Opens] using hopens

theorem plain_cons (hletter : ¬c.isAlpha) (hdigit : ¬c.isDigit) (hquote : ¬IsQuote c)
    (hcomment : ∀ d body, c = '/' → rest = d :: body → d ≠ '*' ∧ d ≠ '/') :
    Plain (c :: rest) := by
  rintro v ⟨more, hv⟩ hopens
  unfold Opens at hopens
  split at hopens
  · obtain ⟨rfl, -⟩ := List.cons.inj hv
    rcases hopens with h | h | h
    exacts [hletter h, hdigit h, hquote h]
  · obtain ⟨hc, hrest⟩ := List.cons.inj hv
    obtain ⟨hstar, hslash⟩ := hcomment _ more hc.symm hrest.symm
    rcases hopens with h | h
    exacts [hstar h, hslash h]
  · exact hopens

theorem leads_word (hc : c.isAlpha) (rest : List Char) : (word c rest).Leads (c :: rest) :=
  ⟨rest.dropWhile Char.isAlphanum, by simp [word, Piece.source],
    .word hc (fun _ hd => List.mem_takeWhile_imp hd) (stops_dropWhile _ _)⟩

theorem leads_number (hc : c.isDigit) (rest : List Char) : (number c rest).Leads (c :: rest) :=
  ⟨rest.dropWhile fun d => IsWordChar d, by simp [number, Piece.source],
    .number hc (fun _ hd => by simpa using List.mem_takeWhile_imp hd) (stops_dropWhile _ _)⟩

theorem leads_lineComment (body : List Char) : (lineComment body).Leads ('/' :: '/' :: body) := by
  refine ⟨body.dropWhile (· ≠ '\n'), by simp [lineComment, Piece.source],
    .comment (fun h => ?_) (stops_dropWhile _ _)⟩
  simpa using List.mem_takeWhile_imp h

theorem leads_blockComment (body : List Char) : (blockComment body).Leads ('/' :: '*' :: body) := by
  unfold blockComment
  split
  · next text htext =>
    obtain ⟨after, rfl⟩ := commentText_split htext
    exact ⟨after, by simp [Piece.source], .blockComment after (not_infix_of_commentText htext)⟩
  · next hopen =>
    exact ⟨[], by simp [Piece.source], .openComment (commentText_eq_none_iff.mp hopen)⟩

theorem leads_quoted {quote : Char} (hquote : IsQuote quote) (body : List Char) :
    (quoted quote (literalCategory quote) body).Leads (quote :: body) := by
  unfold quoted
  split
  · next text htext =>
    obtain ⟨after, rfl⟩ := quotedText_split htext
    exact ⟨after, by simp [Piece.source], .literal after hquote (units_of_quotedText htext)⟩
  · next hopen =>
    exact ⟨[], by simp [Piece.source],
      .openLiteral hquote ((quotedText_eq_none_iff hquote.ne_backslash).mp hopen)⟩

theorem leads_symbolOrGap (h : Plain (c :: rest)) : (symbolOrGap c rest).Leads (c :: rest) := by
  unfold symbolOrGap
  split
  · next text category hlongest =>
    have hmatch := Trie.longestMatch_eq_some_iff.mp hlongest
    obtain ⟨after, hafter⟩ := hmatch.begins
    rw [← hafter] at h hmatch ⊢
    exact ⟨after, rfl, .symbol h hmatch⟩
  · next hnone => exact ⟨rest, rfl, .gap h (Trie.longestMatch_eq_none_iff.mp hnone)⟩

theorem firstPiece_leads (c : Char) (rest : List Char) : (firstPiece c rest).Leads (c :: rest) := by
  unfold firstPiece
  by_cases hletter : c.isAlpha
  · rw [if_pos hletter]
    exact leads_word hletter rest
  by_cases hdigit : c.isDigit
  · rw [if_neg hletter, if_pos hdigit]
    exact leads_number hdigit rest
  rw [if_neg hletter, if_neg hdigit]
  split
  · exact leads_blockComment _
  · exact leads_lineComment _
  · exact leads_quoted (.inl rfl) _
  · exact leads_quoted (.inr rfl) _
  · next hdouble hsingle hblock hline =>
    refine leads_symbolOrGap (plain_cons hletter hdigit ?_ ?_)
    · rintro (rfl | rfl)
      · exact hdouble rfl
      · exact hsingle rfl
    · rintro d body rfl rfl
      exact ⟨fun h => hblock body rfl (h ▸ rfl), fun h => hline body rfl (h ▸ rfl)⟩

theorem firstPiece_eq_symbolOrGap (h : Plain (c :: rest)) :
    firstPiece c rest = symbolOrGap c rest := by
  obtain ⟨hletter, hdigit, hquote⟩ := h.head
  unfold firstPiece
  rw [if_neg hletter, if_neg hdigit]
  split
  · exact absurd rfl h.second.1
  · exact absurd rfl h.second.2
  · exact absurd (.inl rfl) hquote
  · exact absurd (.inr rfl) hquote
  · rfl

theorem firstPiece_quote {quote : Char} (h : IsQuote quote) (body : List Char) :
    firstPiece quote body = quoted quote (literalCategory quote) body := by
  rcases h with rfl | rfl <;> rfl

/-- A step finds nothing else. What is found fixes how the characters begin, and so the branch that
the step takes. -/
theorem firstPiece_of_leads (h : p.Leads (c :: rest)) : firstPiece c rest = p := by
  obtain ⟨after, hsource, hfound⟩ := h
  cases hfound with
  | @word _ run _ hc hrun hstops =>
    obtain ⟨rfl, hrest⟩ := List.cons.inj hsource
    have htake : rest.takeWhile Char.isAlphanum = run :=
      hrest ▸ takeWhile_append_of_stops hrun hstops
    unfold firstPiece
    rw [if_pos hc, word, htake]
  | @number _ run _ hc hrun hstops =>
    obtain ⟨rfl, hrest⟩ := List.cons.inj hsource
    have htake : rest.takeWhile (fun d => IsWordChar d) = run :=
      hrest ▸ takeWhile_append_of_stops (by simpa using hrun) hstops
    unfold firstPiece
    rw [if_neg (not_isAlpha_of_isDigit hc), if_pos hc, number, htake]
  | @comment text _ htext hstops =>
    have hline : ∀ d ∈ text, decide (d ≠ '\n') = true := by
      intro d hd
      exact decide_eq_true fun h => htext (h ▸ hd)
    cases hsource
    show lineComment (text ++ after) = _
    rw [lineComment, takeWhile_append_of_stops hline hstops]
  | @blockComment text _ htext =>
    rw [Piece.source, List.append_assoc] at hsource
    cases hsource
    show blockComment (text ++ '*' :: '/' :: after) = _
    rw [blockComment, commentText_append htext]
  | @openComment body hopen =>
    rw [List.append_nil] at hsource
    cases hsource
    show blockComment body = _
    rw [blockComment, commentText_eq_none_iff.mpr hopen]
  | @literal _ text _ hquote hunits =>
    rw [Piece.source, List.append_assoc] at hsource
    cases hsource
    show firstPiece c (text ++ c :: after) = _
    rw [firstPiece_quote hquote, quoted, hunits.quotedText_append hquote.ne_backslash]
  | openLiteral hquote hopen =>
    rw [List.append_nil] at hsource
    cases hsource
    rw [firstPiece_quote hquote, quoted,
      (quotedText_eq_none_iff hquote.ne_backslash).mpr hopen]
  | symbol hplain hlongest =>
    rw [Piece.source] at hsource
    rw [← hsource] at hplain hlongest
    rw [firstPiece_eq_symbolOrGap hplain, symbolOrGap, Trie.longestMatch_eq_some_iff.mpr hlongest]
  | gap hplain hnone =>
    rw [Piece.source, List.singleton_append] at hsource
    cases hsource
    rw [firstPiece_eq_symbolOrGap hplain, symbolOrGap, Trie.longestMatch_eq_none_iff.mpr hnone]

theorem Found.source_ne_nil (h : Found p after) : p.source ≠ [] := by
  cases h with
  | symbol _ hlongest => exact hlongest.ne_nil
  | _ => simp [Piece.source]

theorem pieces_append_of_found (h : Found p after) :
    pieces (p.source ++ after) = p :: pieces after := by
  obtain ⟨c, tail, hsource⟩ := List.exists_cons_of_ne_nil h.source_ne_nil
  have hfirst : firstPiece c (tail ++ after) = p :=
    firstPiece_of_leads ⟨after, by rw [hsource]; rfl, h⟩
  rw [hsource, List.cons_append, pieces, hfirst, hsource]
  simp

end Step

inductive Scanned : List Piece → Prop where
  | nil : Scanned []
  | cons {p : Piece} {ps : List Piece} : Found p (ps.flatMap Piece.source) → Scanned ps →
      Scanned (p :: ps)

theorem scanned_pieces (cs : List Char) : Scanned (pieces cs) := by
  fun_induction pieces cs with
  | case1 => exact .nil
  | case2 c rest ih =>
    refine .cons ?_ ih
    obtain ⟨after, hsource, hfound⟩ := firstPiece_leads c rest
    have hrest := flatMap_source_pieces (c :: rest)
    rw [pieces, List.flatMap_cons] at hrest
    rwa [List.append_cancel_left (hrest.trans hsource)]

theorem pieces_of_scanned {ps : List Piece} (h : Scanned ps) :
    pieces (ps.flatMap Piece.source) = ps := by
  induction h with
  | nil => exact pieces.eq_1
  | cons hfound _ ih => rw [List.flatMap_cons, pieces_append_of_found hfound, ih]

end GrammarLab.Lexer
