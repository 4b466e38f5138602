import GrammarLab.Lexer.Lexeme

/-!
# Scanning a source

A source is cut into pieces from left to right: gaps of one character, and lexemes with the text
they carry. Each piece knows the characters it was made from, so the pieces together are the source
(`flatMap_source_pieces`). Unterminated comments and literals take everything that is left.
-/

namespace GrammarLab.Lexer

inductive Piece where
  | gap (c : Char)
  | lexeme (category : Category) (text source : List Char)
  deriving DecidableEq, Repr

def Piece.source : Piece → List Char
  | .gap c => [c]
  | .lexeme _ _ source => source

/-- What stands before the first closing mark of a block comment. -/
def commentText : List Char → Option (List Char)
  | [] => none
  | '*' :: '/' :: _ => some []
  | c :: rest => (commentText rest).map (c :: ·)

def blockComment (body : List Char) : Piece :=
  match commentText body with
  | some text => .lexeme .blockComment text ('/' :: '*' :: text ++ ['*', '/'])
  | none => .lexeme .error ('/' :: '*' :: body) ('/' :: '*' :: body)

def lineComment (body : List Char) : Piece :=
  let text := body.takeWhile (· ≠ '\n')
  .lexeme .comment text ('/' :: '/' :: text)

/-- What stands before the first closing quote; a backslash takes any next character with it. -/
def quotedText (quote : Char) : List Char → Option (List Char)
  | [] => none
  | ['\\'] => none
  | '\\' :: c :: rest => (quotedText quote rest).map fun text => '\\' :: c :: text
  | c :: rest => if c = quote then some [] else (quotedText quote rest).map (c :: ·)

def quoted (quote : Char) (category : List Char → Category) (body : List Char) : Piece :=
  match quotedText quote body with
  | some text => .lexeme (category text) text (quote :: text ++ [quote])
  | none => .lexeme .error body (quote :: body)

def word (c : Char) (rest : List Char) : Piece :=
  let text := c :: rest.takeWhile Char.isAlphanum
  .lexeme (wordCategory text) text text

def number (c : Char) (rest : List Char) : Piece :=
  let text := c :: rest.takeWhile (fun d => IsWordChar d)
  .lexeme (if IsNumber text then .number else .error) text text

/-- Delimiters and operators are the longest of their table; other characters are gaps. -/
def symbolOrGap (c : Char) (rest : List Char) : Piece :=
  match symbolTrie.longestMatch (c :: rest) with
  | some (text, category) => .lexeme category text text
  | none => .gap c

def firstPiece (c : Char) (rest : List Char) : Piece :=
  if c.isAlpha then word c rest
  else if c.isDigit then number c rest
  else
    match c, rest with
    | '/', '*' :: body => blockComment body
    | '/', '/' :: body => lineComment body
    | '"', body => quoted '"' (fun _ => .string) body
    | '\'', body => quoted '\'' charCategory body
    | c, rest => symbolOrGap c rest

/-- The first character always belongs to the first piece. -/
def pieces : List Char → List Piece
  | [] => []
  | c :: rest =>
    firstPiece c rest :: pieces (rest.drop ((firstPiece c rest).source.length - 1))
termination_by cs => cs.length
decreasing_by
  simp only [List.length_drop, List.length_cons]
  omega

/-- A piece taken from the front of a list leaves the rest of that list. -/
def Piece.Begins (p : Piece) (cs : List Char) : Prop :=
  p.source ≠ [] ∧ p.source ++ cs.drop p.source.length = cs

theorem begins_of_split {p : Piece} {cs : List Char} (rest : List Char) (hne : p.source ≠ [])
    (h : cs = p.source ++ rest) : p.Begins cs := by
  subst h
  exact ⟨hne, by simp⟩

theorem commentText_split {body text : List Char} (h : commentText body = some text) :
    ∃ rest, body = text ++ '*' :: '/' :: rest := by
  fun_induction commentText body generalizing text with
  | case1 => simp at h
  | case2 rest =>
    cases h
    exact ⟨rest, rfl⟩
  | case3 c rest _ ih =>
    obtain ⟨tail, htail, rfl⟩ := Option.map_eq_some_iff.mp h
    obtain ⟨after, rfl⟩ := ih htail
    exact ⟨after, rfl⟩

theorem quotedText_split {quote : Char} {body text : List Char}
    (h : quotedText quote body = some text) : ∃ rest, body = text ++ quote :: rest := by
  fun_induction quotedText quote body generalizing text with
  | case1 => simp at h
  | case2 => simp at h
  | case3 c rest ih =>
    obtain ⟨tail, htail, rfl⟩ := Option.map_eq_some_iff.mp h
    obtain ⟨after, rfl⟩ := ih htail
    exact ⟨after, rfl⟩
  | case4 rest =>
    cases h
    exact ⟨rest, rfl⟩
  | case5 c rest _ _ _ ih =>
    obtain ⟨tail, htail, rfl⟩ := Option.map_eq_some_iff.mp h
    obtain ⟨after, rfl⟩ := ih htail
    exact ⟨after, rfl⟩

theorem longestMatch_split {α : Type} {t : Trie α} {cs text : List Char} {a : α}
    (h : t.longestMatch cs = some (text, a)) : text ≠ [] ∧ ∃ rest, cs = text ++ rest := by
  induction cs generalizing t text a with
  | nil => simp [Trie.longestMatch] at h
  | cons c rest ih =>
    unfold Trie.longestMatch at h
    split at h
    · simp at h
    · next kid _ =>
      split at h
      · next w b hw =>
        obtain ⟨_, after, rfl⟩ := ih hw
        cases h
        exact ⟨by simp, after, rfl⟩
      · obtain ⟨b, _, hb⟩ := Option.map_eq_some_iff.mp h
        cases hb
        exact ⟨by simp, rest, rfl⟩

theorem firstPiece_begins (c : Char) (rest : List Char) :
    (firstPiece c rest).Begins (c :: rest) := by
  have taken (p : Char → Bool) : rest = rest.takeWhile p ++ rest.dropWhile p :=
    List.takeWhile_append_dropWhile.symm
  unfold firstPiece
  split
  · exact begins_of_split _ (by simp [word, Piece.source])
      (congrArg (c :: ·) (taken Char.isAlphanum))
  split
  · exact begins_of_split _ (by simp [number, Piece.source])
      (congrArg (c :: ·) (taken fun d => IsWordChar d))
  split
  · next body =>
    unfold blockComment
    split
    · next text h =>
      obtain ⟨after, rfl⟩ := commentText_split h
      exact begins_of_split after (by simp [Piece.source]) (by simp [Piece.source])
    · exact begins_of_split [] (by simp [Piece.source]) (by simp [Piece.source])
  · next body _ _ =>
    exact begins_of_split (body.dropWhile (· ≠ '\n'))
      (by simp [lineComment, Piece.source]) (by simp [lineComment, Piece.source])
  · unfold quoted
    split
    · next text h =>
      obtain ⟨after, rfl⟩ := quotedText_split h
      exact begins_of_split after (by simp [Piece.source]) (by simp [Piece.source])
    · exact begins_of_split [] (by simp [Piece.source]) (by simp [Piece.source])
  · unfold quoted
    split
    · next text h =>
      obtain ⟨after, rfl⟩ := quotedText_split h
      exact begins_of_split after (by simp [Piece.source]) (by simp [Piece.source])
    · exact begins_of_split [] (by simp [Piece.source]) (by simp [Piece.source])
  · unfold symbolOrGap
    split
    · next text category h =>
      obtain ⟨hne, after, hsplit⟩ := longestMatch_split h
      exact begins_of_split after hne hsplit
    · exact begins_of_split rest (by simp [Piece.source]) rfl

theorem flatMap_source_pieces (cs : List Char) : (pieces cs).flatMap Piece.source = cs := by
  fun_induction pieces cs with
  | case1 => rfl
  | case2 c rest ih =>
    obtain ⟨hne, hsplit⟩ := firstPiece_begins c rest
    obtain ⟨n, hn⟩ : ∃ n, (firstPiece c rest).source.length = n + 1 :=
      ⟨(firstPiece c rest).source.length - 1,
        by have := List.length_pos_iff.mpr hne; omega⟩
    rw [List.flatMap_cons, ih, hn, Nat.add_sub_cancel]
    rwa [hn, List.drop_succ_cons] at hsplit

end GrammarLab.Lexer
