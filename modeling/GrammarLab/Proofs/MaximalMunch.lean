import Mathlib
import GrammarLab.Proofs.Reached

/-!
# Maximal munch

Where the scan begins a token, the characters at hand decide its class, and within its class the
token is as long as it can be. The scan passes over a character only if no class begins there.
-/

namespace GrammarLab.Lexer

/-- The longest beginning of the characters among those with a property. -/
structure LongestPrefix (P : List Char → Prop) (cs w : List Char) : Prop where
  begins : w <+: cs
  holds : P w
  length_le : ∀ v, v <+: cs → P v → v.length ≤ w.length

structure EndsAt (mark body text : List Char) : Prop where
  marked : text ++ mark <+: body
  length_le : ∀ v, v ++ mark <+: body → text.length ≤ v.length

/-- What a token must be by the characters at its offset: its category, its text and the slice that
it is made from. Literals have a rule of their own. -/
structure Munches (cs : List Char) (category : Category) (text taken : List Char) : Prop where
  word : ∀ c ∈ cs.head?, c.isAlpha → LongestPrefix (fun w => ∀ d ∈ w, d.isAlphanum) cs text ∧
    taken = text ∧ category = if String.ofList text ∈ keywords then .keyword else .identifier
  number : ∀ c ∈ cs.head?, c.isDigit → LongestPrefix (fun w => ∀ d ∈ w, IsWordChar d) cs text ∧
    taken = text ∧ category = if text.all Char.isDigit then .number else .error
  blockComment : ∀ body, cs = '/' :: '*' :: body →
    (category = .blockComment ∧ EndsAt ['*', '/'] body text ∧
      taken = '/' :: '*' :: text ++ ['*', '/']) ∨
    (category = .error ∧ ¬['*', '/'] <:+: body ∧ text = cs ∧ taken = cs)
  lineComment : ∀ body, cs = '/' :: '/' :: body → category = .comment ∧
    LongestPrefix (fun w => '\n' ∉ w) body text ∧ taken = '/' :: '/' :: text
  symbol : Plain cs → LongestPrefix (fun w => w ∈ symbolEntries.map Prod.fst) cs text ∧
    taken = text ∧ (text, category) ∈ symbolEntries

/-- A word, a number, a comment, a literal, a delimiter or an operator begins here. -/
def BeginsLexeme (cs : List Char) : Prop :=
  ∃ v, v <+: cs ∧ (Opens v ∨ v ∈ symbolEntries.map Prod.fst)

section Longest

variable {cs body text : List Char} {category : Category}

theorem longestPrefix_takeWhile (p : Char → Bool) (cs : List Char) :
    LongestPrefix (fun w => ∀ d ∈ w, p d) cs (cs.takeWhile p) := by
  refine ⟨List.takeWhile_prefix p, fun d hd => List.mem_takeWhile_imp hd, ?_⟩
  rintro v ⟨rest, rfl⟩ hv
  rw [List.takeWhile_append_of_pos hv, List.length_append]
  exact Nat.le_add_right _ _

theorem LongestPrefix.congr {P Q : List Char → Prop} (h : LongestPrefix P cs text)
    (hPQ : ∀ w, P w ↔ Q w) : LongestPrefix Q cs text := by
  rwa [funext fun w => propext (hPQ w)] at h

theorem length_le_of_commentText (h : commentText body = some text) {v : List Char}
    (hv : v ++ ['*', '/'] <+: body) : text.length ≤ v.length := by
  fun_induction commentText body generalizing text v with
  | case1 => cases h
  | case2 rest =>
    cases h
    exact Nat.zero_le _
  | case3 c rest hopen ih =>
    obtain ⟨tail, htail, rfl⟩ := Option.map_eq_some_iff.mp h
    cases v with
    | nil =>
      obtain ⟨rfl, after, hafter⟩ := List.cons_prefix_cons.mp hv
      exact (hopen after rfl hafter.symm).elim
    | cons d v =>
      obtain ⟨-, hv⟩ := List.cons_prefix_cons.mp hv
      exact Nat.succ_le_succ (ih htail hv)

theorem endsAt_of_commentText (h : commentText body = some text) :
    EndsAt ['*', '/'] body text := by
  obtain ⟨after, hafter⟩ := commentText_split h
  exact ⟨⟨after, by simp [hafter]⟩, fun v hv => length_le_of_commentText h hv⟩

theorem longestPrefix_symbol (h : symbolTrie.Longest cs text category) :
    LongestPrefix (fun w => w ∈ symbolEntries.map Prod.fst) cs text ∧
      (text, category) ∈ symbolEntries := by
  have hentry := Trie.mem_of_find_ofEntries h.stored
  refine ⟨⟨h.begins, List.mem_map_of_mem hentry, ?_⟩, hentry⟩
  intro v hv hstored
  exact h.length_le v hv (Trie.isSome_find_ofEntries.mpr hstored)

end Longest

section Classes

variable {c : Char} {rest body text taken after : List Char} {category : Category} {p : Piece}

theorem firstPiece_word (hc : c.isAlpha) (rest : List Char) : firstPiece c rest = word c rest :=
  if_pos hc

theorem firstPiece_number (hc : c.isDigit) (rest : List Char) :
    firstPiece c rest = number c rest := by
  unfold firstPiece
  rw [if_neg (not_isAlpha_of_isDigit hc), if_pos hc]

theorem word_eq (hc : c.isAlpha) (rest : List Char) :
    let run := (c :: rest).takeWhile Char.isAlphanum
    word c rest =
      .lexeme (if String.ofList run ∈ keywords then .keyword else .identifier) run run := by
  intro run
  have hrun : run = c :: rest.takeWhile Char.isAlphanum :=
    List.takeWhile_cons_of_pos (by simp [Char.isAlphanum, hc])
  have hcategory := wordCategory_cons hc fun d (hd : d ∈ rest.takeWhile Char.isAlphanum) =>
    List.mem_takeWhile_imp hd
  rw [hrun, ← hcategory]
  rfl

theorem number_eq (hc : c.isDigit) (rest : List Char) :
    let run := (c :: rest).takeWhile fun d => IsWordChar d
    number c rest = .lexeme (if run.all Char.isDigit then .number else .error) run run := by
  intro run
  have hrun : run = c :: rest.takeWhile fun d => IsWordChar d :=
    List.takeWhile_cons_of_pos (by simp [IsWordChar, Char.isAlphanum, hc])
  rw [hrun, number]
  simp [IsNumber]

theorem blockComment_eq_lexeme (h : blockComment body = .lexeme category text taken) :
    (category = .blockComment ∧ EndsAt ['*', '/'] body text ∧
      taken = '/' :: '*' :: text ++ ['*', '/']) ∨
    (category = .error ∧ ¬['*', '/'] <:+: body ∧ text = '/' :: '*' :: body ∧
      taken = '/' :: '*' :: body) := by
  rw [blockComment] at h
  split at h
  · next htext =>
    cases h
    exact .inl ⟨rfl, endsAt_of_commentText htext, rfl⟩
  · next hopen =>
    cases h
    exact .inr ⟨rfl, commentText_eq_none_iff.mp hopen, rfl, rfl⟩

theorem symbolOrGap_eq_lexeme (h : symbolOrGap c rest = .lexeme category text taken) :
    LongestPrefix (fun w => w ∈ symbolEntries.map Prod.fst) (c :: rest) text ∧
      taken = text ∧ (text, category) ∈ symbolEntries := by
  rw [symbolOrGap] at h
  split at h
  · next hlongest =>
    cases h
    obtain ⟨hbegins, hentry⟩ := longestPrefix_symbol (Trie.longestMatch_eq_some_iff.mp hlongest)
    exact ⟨hbegins, rfl, hentry⟩
  · cases h

theorem munches_of_firstPiece (h : firstPiece c rest = .lexeme category text taken) :
    Munches (c :: rest) category text taken := by
  constructor
  · intro d hd hletter
    cases hd
    rw [firstPiece_word hletter, word_eq hletter] at h
    cases h
    exact ⟨longestPrefix_takeWhile _ _, rfl, rfl⟩
  · intro d hd hdigit
    cases hd
    rw [firstPiece_number hdigit, number_eq hdigit] at h
    cases h
    exact ⟨(longestPrefix_takeWhile _ _).congr (by simp), rfl, rfl⟩
  · intro body hbody
    cases hbody
    exact blockComment_eq_lexeme h
  · intro body hbody
    cases hbody
    have hline : lineComment body = .lexeme category text taken := h
    rw [lineComment] at hline
    cases hline
    exact ⟨rfl, (longestPrefix_takeWhile _ _).congr (by simp [List.forall_mem_ne']), rfl⟩
  · intro hplain
    rw [firstPiece_eq_symbolOrGap hplain] at h
    exact symbolOrGap_eq_lexeme h

theorem Found.firstPiece (h : Found p after) :
    ∃ c rest, p.source ++ after = c :: rest ∧ Lexer.firstPiece c rest = p := by
  obtain ⟨c, tail, hsource⟩ := List.exists_cons_of_ne_nil h.source_ne_nil
  refine ⟨c, tail ++ after, by rw [hsource]; rfl, ?_⟩
  exact firstPiece_of_leads ⟨after, by rw [hsource]; rfl, h⟩

theorem Found.munches (h : Found (.lexeme category text taken) after) :
    Munches (taken ++ after) category text taken := by
  obtain ⟨c, rest, hsource, hpiece⟩ := h.firstPiece
  have htaken : taken ++ after = c :: rest := hsource
  rw [htaken]
  exact munches_of_firstPiece hpiece

theorem Stands.munches {cs : List Char} {s : Span} {t : Token} (h : Stands cs s t) :
    Munches (cs.drop s.start) t.category t.text.toList (s.slice cs) := by
  obtain ⟨before, hfound⟩ := h
  rw [Span.slice_append, String.toList_ofList, List.drop_left]
  exact hfound.munches

theorem Found.beginsLexeme (h : Found (.lexeme category text taken) after) :
    BeginsLexeme (taken ++ after) := by
  cases h with
  | @word c _ _ hc => exact ⟨[c], by simp, .inl (.inl hc)⟩
  | @number c _ _ hc => exact ⟨[c], by simp, .inl (.inr (.inl hc))⟩
  | comment => exact ⟨['/', '/'], by simp, .inl (.inr rfl)⟩
  | blockComment => exact ⟨['/', '*'], by simp, .inl (.inl rfl)⟩
  | openComment => exact ⟨['/', '*'], by simp, .inl (.inl rfl)⟩
  | @literal quote _ _ hquote => exact ⟨[quote], by simp, .inl (.inr (.inr hquote))⟩
  | @openLiteral quote _ hquote => exact ⟨[quote], by simp, .inl (.inr (.inr hquote))⟩
  | symbol _ hlongest =>
    exact ⟨text, hlongest.begins, .inr (longestPrefix_symbol hlongest).1.holds⟩

theorem Found.not_beginsLexeme (h : Found (.gap c) after) : ¬BeginsLexeme (c :: after) := by
  rintro ⟨v, hv, hopens | hentry⟩
  · cases h with
    | gap hplain _ => exact hplain v hv hopens
  · cases h with
    | gap _ hnone =>
      have hwords : ∀ w ∈ symbolEntries.map Prod.fst, w ≠ [] := by decide
      have hstored := Trie.isSome_find_ofEntries.mpr hentry
      rw [← symbolTrie, hnone v hv (hwords v hentry)] at hstored
      cases hstored

end Classes

section Starts

variable {ps : List Piece}

theorem exists_span_iff (h : Scanned ps) (before : List Char) (i : Nat) :
    (∃ s ∈ spansFrom before.length ps, s.start = i) ↔ i ∈ startsFrom before.length ps ∧
      BeginsLexeme ((before ++ ps.flatMap Piece.source).drop i) := by
  induction h generalizing before with
  | nil => simp [spansFrom, startsFrom]
  | @cons p ps hfound _ ih =>
    have hrest := ih (before ++ p.source)
    rw [List.append_assoc, List.length_append] at hrest
    have hhere : (before ++ (p.source ++ ps.flatMap Piece.source)).drop before.length =
        p.source ++ ps.flatMap Piece.source := List.drop_left
    rw [List.flatMap_cons, startsFrom, List.mem_cons, or_and_right, ← hrest]
    cases p with
    | gap c =>
      constructor
      · exact .inr
      · rintro (⟨rfl, hbegins⟩ | h)
        · rw [hhere] at hbegins
          exact absurd hbegins hfound.not_beginsLexeme
        · exact h
    | lexeme category text taken =>
      rw [spansFrom, List.exists_mem_cons_iff]
      refine or_congr ⟨?_, fun h => h.1.symm⟩ Iff.rfl
      rintro rfl
      rw [hhere]
      exact ⟨rfl, hfound.beginsLexeme⟩

end Starts

/-- Each token is what its first characters ask for, and tokens begin at all offsets that the scan
reaches and that ask for one. -/
theorem munches_tokenize (source : String) :
    List.Forall₂ (fun s t =>
        Munches (source.toList.drop s.start) t.category t.text.toList (s.slice source.toList))
      (tokenSpans source) (tokenize source) ∧
    ∀ i, (∃ s ∈ tokenSpans source, s.start = i) ↔
      i ∈ reached source ∧ BeginsLexeme (source.toList.drop i) := by
  constructor
  · exact (stands_tokenize source).imp fun s t h => h.munches
  · intro i
    have hstarts := exists_span_iff (scanned_pieces source.toList) [] i
    rwa [List.nil_append, flatMap_source_pieces] at hstarts

/-- A word of the table that is made of letters is a keyword. -/
example : ("sizeof".toList, .operator) ∈ symbolEntries ∧
    (tokenize "sizeof").map Token.category = [.keyword] := by decide +kernel

end GrammarLab.Lexer
