import Mathlib
import GrammarLab.Proofs.Positions

/-!
# Sources joined at line feeds

A line feed ends every lexeme but a comment or a literal that still waits for its end. So sources
without such lexemes can be scanned one by one, and the tokens of the later ones stand as many lines
further down as there are line feeds before them. Tokens spelled on lines of their own are read
back.
-/

namespace GrammarLab.Lexer

def Piece.Unterminated : Piece → Prop
  | .gap _ => False
  | .lexeme category text source => category = .error ∧
      (source = '"' :: text ∨ source = '\'' :: text ∨ source = text ∧ ['/', '*'] <+: text)

instance : (p : Piece) → Decidable p.Unterminated
  | .gap _ => inferInstanceAs (Decidable False)
  | .lexeme _ _ _ => inferInstanceAs (Decidable (_ ∧ _))

/-- The scan of the source leaves nothing unterminated. -/
def Closed (source : String) : Prop := ∀ p ∈ pieces source.toList, ¬p.Unterminated

instance (source : String) : Decidable (Closed source) :=
  inferInstanceAs (Decidable (∀ p ∈ pieces source.toList, ¬p.Unterminated))

def Token.down (lines : Nat) (t : Token) : Token := { t with line := t.line + lines }

def Token.lexeme (t : Token) : Category × String := (t.category, t.text)

def Token.spelling (t : Token) : String := String.ofList (t.category.spell t.text.toList)

/-- Writes tokens on lines of their own, apart from the line feeds inside them. -/
def respell (tokens : List Token) : String := "\n".intercalate (tokens.map Token.spelling)

/-- Up to its first line feed, the second text is a beginning of the first one. -/
def LineBegins (cs ds : List Char) : Prop := ∀ v, '\n' ∉ v → v <+: ds → v <+: cs

section LineBegins

variable {cs ds : List Char}

theorem lineBegins_nil (cs : List Char) : LineBegins cs [] := by
  intro v _ hv
  rw [List.prefix_nil.mp hv]
  exact List.nil_prefix

theorem lineBegins_append_newline (cs rest : List Char) : LineBegins cs (cs ++ '\n' :: rest) := by
  intro v hline hv
  have hshort : cs ++ ['\n'] <+: cs ++ '\n' :: rest := ⟨rest, by simp⟩
  rcases List.prefix_or_prefix_of_prefix hv hshort with hv | hv
  · rcases List.prefix_concat_iff.mp hv with rfl | hv
    · exact absurd (by simp) hline
    · exact hv
  · exact absurd (hv.subset (by simp)) hline

theorem LineBegins.append (h : LineBegins cs ds) (us : List Char) :
    LineBegins (us ++ cs) (us ++ ds) := by
  intro v hline hv
  rcases List.prefix_or_prefix_of_prefix hv (List.prefix_append us ds) with hshort | ⟨tail, rfl⟩
  · exact hshort.trans (List.prefix_append us cs)
  · rw [List.prefix_append_right_inj] at hv ⊢
    exact h tail (fun hmem => hline (List.mem_append_right us hmem)) hv

theorem Stops.of_lineBegins {q : Char → Bool} (h : Stops q cs) (hds : LineBegins cs ds)
    (hq : q '\n' = false) : Stops q ds := by
  intro d hd
  by_cases hline : d = '\n'
  · rw [hline, hq]
  · obtain ⟨rest, rfl⟩ := List.head?_eq_some_iff.mp hd
    obtain ⟨tail, rfl⟩ := hds [d] (by simpa using Ne.symm hline) (by simp)
    exact h d rfl

theorem newline_not_mem_of_opens {v : List Char} (h : Opens v) : '\n' ∉ v := by
  unfold Opens at h
  split at h
  · intro hmem
    rw [← List.mem_singleton.mp hmem] at h
    revert h
    unfold IsQuote
    decide
  · rcases h with rfl | rfl <;> decide
  · exact h.elim

theorem Plain.of_lineBegins (h : Plain cs) (hds : LineBegins cs ds) : Plain ds := by
  intro v hv hopens
  exact h v (hds v (newline_not_mem_of_opens hopens) hv) hopens

end LineBegins

variable {p : Piece} {ps qs : List Piece} {after : List Char}

/-- What is found depends on no more than the first line of what follows, unless a line feed can be
part of the piece. -/
theorem Found.of_lineBegins {later : List Char} (h : Found p after) (hclosed : ¬p.Unterminated)
    (hlater : LineBegins after later) : Found p later := by
  cases h with
  | word hc hrun hstops => exact .word hc hrun (hstops.of_lineBegins hlater (by decide))
  | number hc hrun hstops => exact .number hc hrun (hstops.of_lineBegins hlater (by decide))
  | comment htext hstops => exact .comment htext (hstops.of_lineBegins hlater (by decide))
  | blockComment _ htext => exact .blockComment _ htext
  | openComment => exact absurd ⟨rfl, .inr (.inr ⟨rfl, by simp⟩)⟩ hclosed
  | literal _ hquote hunits => exact .literal _ hquote hunits
  | openLiteral hquote =>
    rcases hquote with rfl | rfl
    · exact absurd ⟨rfl, .inl rfl⟩ hclosed
    · exact absurd ⟨rfl, .inr (.inl rfl)⟩ hclosed
  | @symbol _ text _ hplain hlongest =>
    have hsource := hlater.append text
    exact .symbol (hplain.of_lineBegins hsource) (hlongest.of_begins (List.prefix_append _ _)
      fun v hstored => hsource v (newline_not_mem_of_find hstored))
  | @gap c _ hplain hnone =>
    have hsource : LineBegins (c :: after) (c :: later) := hlater.append [c]
    exact .gap (hplain.of_lineBegins hsource)
      (hnone.of_begins fun v hstored => hsource v (newline_not_mem_of_find hstored))

theorem found_newline (after : List Char) : Found (.gap '\n') after := by
  have hnil : LineBegins [] ('\n' :: after) := lineBegins_append_newline [] after
  exact .gap (plain_nil.of_lineBegins hnil) ((Trie.unmatched_nil symbolTrie).of_begins
    fun v hstored => hnil v (newline_not_mem_of_find hstored))

theorem Scanned.append_newline (h : Scanned ps) (hclosed : ∀ p ∈ ps, ¬p.Unterminated)
    (k : Scanned qs) : Scanned (ps ++ .gap '\n' :: qs) := by
  induction h with
  | nil => exact .cons (found_newline _) k
  | @cons p ps hfound _ ih =>
    rw [List.cons_append]
    refine .cons ?_ (ih fun q hq => hclosed q (List.mem_cons_of_mem _ hq))
    rw [List.flatMap_append, List.flatMap_cons]
    exact hfound.of_lineBegins (hclosed p List.mem_cons_self) (lineBegins_append_newline _ _)

theorem pieces_append_newline {s₁ : String} (h : Closed s₁) (s₂ : String) :
    pieces (s₁ ++ "\n" ++ s₂).toList =
      pieces s₁.toList ++ .gap '\n' :: pieces s₂.toList := by
  have hscanned := (scanned_pieces s₁.toList).append_newline h (scanned_pieces s₂.toList)
  have hpieces := pieces_of_scanned hscanned
  rw [List.flatMap_append, List.flatMap_cons, flatMap_source_pieces, flatMap_source_pieces]
    at hpieces
  rw [← hpieces, String.toList_append, String.toList_append, List.append_assoc]
  rfl

theorem Position.advance_down (p : Position) (lines : Nat) (cs : List Char) :
    Position.advance ⟨p.line + lines, p.column⟩ cs =
      ⟨(p.advance cs).line + lines, (p.advance cs).column⟩ := by
  induction cs generalizing p with
  | nil => rfl
  | cons c rest ih =>
    have hstep : Position.step ⟨p.line + lines, p.column⟩ c =
        ⟨(p.step c).line + lines, (p.step c).column⟩ := by
      unfold step
      split <;> simp [Nat.add_right_comm]
    have hrest := ih (p.step c)
    rw [← hstep] at hrest
    exact hrest

theorem tokensAt_down (p : Position) (lines : Nat) (ps : List Piece) :
    tokensAt ⟨p.line + lines, p.column⟩ ps = (tokensAt p ps).map (Token.down lines) := by
  induction ps generalizing p with
  | nil => rfl
  | cons piece ps ih =>
    cases piece with
    | gap c =>
      have hrest := ih (p.step c)
      have hstep := Position.advance_down p lines [c]
      rw [tokensAt, tokensAt, ← hrest]
      exact congrArg (tokensAt · ps) hstep
    | lexeme category text source =>
      have hrest := ih (p.advance source)
      rw [tokensAt, tokensAt, List.map_cons, ← hrest, Position.advance_down]
      rfl

/-- The tokens of a source that leaves nothing open and of one that begins on a new line. -/
theorem tokenize_append_newline {s₁ : String} (h : Closed s₁) (s₂ : String) :
    tokenize (s₁ ++ "\n" ++ s₂) =
      tokenize s₁ ++ (tokenize s₂).map (Token.down (s₁.toList.count '\n' + 1)) := by
  have hline : (Position.advance {} s₁.toList).step '\n' =
      ⟨1 + (s₁.toList.count '\n' + 1), 1⟩ := by
    rw [Position.step, if_pos rfl, Position.line_advance, Nat.add_assoc]
  rw [tokenize, pieces_append_newline h, tokensAt_append, flatMap_source_pieces, tokensAt, hline]
  exact congrArg (tokenize s₁ ++ ·) (tokensAt_down {} _ _)

/-- Line feeds in a literal, and a line that ends in a comment with an opening in it. -/
theorem tokenize_append_newline_comment :
    let first := "a='\n'\n// /*\\"
    let second := "*/b"
    Closed first ∧ tokenize (first ++ "\n" ++ second) =
      tokenize first ++ (tokenize second).map (Token.down 3) := by
  intro first second
  have hclosed : Closed first := by decide +kernel
  have hlines : first.toList.count '\n' + 1 = 3 := by decide
  exact ⟨hclosed, hlines ▸ tokenize_append_newline hclosed second⟩

def Token.piece (t : Token) : Piece :=
  .lexeme t.category t.text.toList (t.category.spell t.text.toList)

def Piece.lexeme? : Piece → Option (Category × String)
  | .gap _ => none
  | .lexeme category text _ => some (category, String.ofList text)

theorem map_lexeme_tokensAt (p : Position) (ps : List Piece) :
    (tokensAt p ps).map Token.lexeme = ps.filterMap Piece.lexeme? := by
  induction ps generalizing p with
  | nil => rfl
  | cons piece ps ih =>
    cases piece with
    | gap c => exact ih (p.step c)
    | lexeme category text source => exact congrArg (List.cons _) (ih (p.advance source))

theorem Spelled.eq_spell {category : Category} {text source : List Char}
    (h : Spelled category text source after) (hclean : category ≠ .error) :
    source = category.spell text := by
  cases h with
  | clean => rfl
  | _ => exact absurd rfl hclean

theorem Stands.found_piece {cs : List Char} {s : Span} {t : Token} (h : Stands cs s t)
    (hclean : t.category ≠ .error) : ¬t.piece.Unterminated ∧ Found t.piece [] := by
  have hclosed : ¬t.piece.Unterminated := fun hopen => hclean hopen.1
  refine ⟨hclosed, ?_⟩
  obtain ⟨before, hfound⟩ := h
  rw [Token.piece, String.toList_ofList, ← hfound.spelled.eq_spell hclean] at hclosed ⊢
  exact hfound.of_lineBegins hclosed (lineBegins_nil _)

theorem scanned_intersperse (h : ∀ p ∈ ps, ¬p.Unterminated ∧ Found p []) :
    Scanned (ps.intersperse (.gap '\n')) := by
  induction ps with
  | nil => exact .nil
  | cons p ps ih =>
    obtain ⟨⟨hclosed, hfound⟩, hrest⟩ := List.forall_mem_cons.mp h
    have hfirst : Scanned [p] := .cons hfound .nil
    cases ps with
    | nil => exact hfirst
    | cons q qs =>
      rw [List.intersperse_cons_cons]
      exact hfirst.append_newline (by simpa using hclosed) (ih hrest)

theorem source_piece (t : Token) : t.piece.source = t.spelling.toList := by
  rw [Token.spelling, String.toList_ofList]
  rfl

theorem flatMap_source_intersperse (tokens : List Token) :
    ((tokens.map Token.piece).intersperse (.gap '\n')).flatMap Piece.source =
      (respell tokens).toList := by
  rw [respell, String.toList_intercalate, List.map_map]
  induction tokens with
  | nil => rfl
  | cons t tokens ih =>
    cases tokens with
    | nil => simp [source_piece]
    | cons u tokens =>
      rw [List.map_cons, List.map_cons] at ih ⊢
      rw [List.map_cons, List.map_cons, List.intersperse_cons_cons,
        List.intercalate_cons_cons, List.flatMap_cons, List.flatMap_cons, ih, source_piece]
      simp [Piece.source]

theorem filterMap_lexeme_intersperse (ps : List Piece) :
    (ps.intersperse (.gap '\n')).filterMap Piece.lexeme? = ps.filterMap Piece.lexeme? := by
  induction ps with
  | nil => rfl
  | cons p ps ih =>
    cases ps with
    | nil => rfl
    | cons q qs =>
      rw [List.intersperse_cons_cons]
      simp [List.filterMap_cons, ih, Piece.lexeme?]

/-- Tokens written on lines of their own are read back. -/
theorem tokenize_respell {source : String} (h : ∀ t ∈ tokenize source, t.category ≠ .error) :
    (tokenize (respell (tokenize source))).map Token.lexeme =
      (tokenize source).map Token.lexeme := by
  have hpieces : ∀ p ∈ (tokenize source).map Token.piece, ¬p.Unterminated ∧ Found p [] := by
    intro p hp
    obtain ⟨t, ht, rfl⟩ := List.mem_map.mp hp
    obtain ⟨s, hs⟩ := exists_stands_of_mem ht
    exact hs.found_piece (h t ht)
  have hscan := pieces_of_scanned (scanned_intersperse hpieces)
  rw [flatMap_source_intersperse] at hscan
  rw [tokenize, hscan, map_lexeme_tokensAt, filterMap_lexeme_intersperse]
  simp [List.filterMap_map, Function.comp_def, Token.piece, Piece.lexeme?, Token.lexeme]

/-- A word cut at an underscore, operators cut by the longest match, escaped quotes, a line feed in
a literal, and comments with stars, quotes and slashes in them. -/
theorem tokenize_respell_escapes :
    let source := "a_b+++'\\''\"\\\"\n\"/***///'"
    (∀ t ∈ tokenize source, t.category ≠ .error) ∧
      (tokenize (respell (tokenize source))).map Token.lexeme =
        (tokenize source).map Token.lexeme := by
  intro source
  have hclean : ∀ t ∈ tokenize source, t.category ≠ .error := by decide +kernel
  exact ⟨hclean, tokenize_respell hclean⟩

end GrammarLab.Lexer
