import Mathlib
import GrammarLab.Proofs.Scanning

/-!
# Where the tokens stand

Every token is made from a slice of the source and spelled there as its category asks for. The
slices are in order and do not overlap, and the characters between them begin no lexeme. So the
source is made of the slices and of what stands between them, and nothing is lost or read twice.
-/

namespace GrammarLab.Lexer

structure Span where
  start : Nat
  stop : Nat
  deriving DecidableEq, Repr

def Span.Contains (s : Span) (i : Nat) : Prop := s.start ≤ i ∧ i < s.stop

def Span.slice (s : Span) (cs : List Char) : List Char :=
  (cs.drop s.start).take (s.stop - s.start)

theorem Span.slice_append (before source after : List Char) :
    Span.slice ⟨before.length, before.length + source.length⟩ (before ++ (source ++ after)) =
      source := by
  simp [slice]

theorem Span.slice_append_drop {i j : Nat} (h : i ≤ j) (cs : List Char) :
    Span.slice ⟨i, j⟩ cs ++ cs.drop j = cs.drop i := by
  have hdrop : cs.drop j = (cs.drop i).drop (j - i) := by
    rw [List.drop_drop, Nat.add_sub_cancel' h]
  rw [hdrop, slice, List.take_append_drop]

/-- Where the lexemes stand if the first piece begins at the offset. -/
def spansFrom (offset : Nat) : List Piece → List Span
  | [] => []
  | .gap _ :: rest => spansFrom (offset + 1) rest
  | .lexeme _ _ source :: rest =>
    ⟨offset, offset + source.length⟩ :: spansFrom (offset + source.length) rest

def tokenSpans (source : String) : List Span := spansFrom 0 (pieces source.toList)

theorem spansFrom_append (offset : Nat) (ps qs : List Piece) :
    spansFrom offset (ps ++ qs) =
      spansFrom offset ps ++ spansFrom (offset + (ps.flatMap Piece.source).length) qs := by
  induction ps generalizing offset with
  | nil => rfl
  | cons piece ps ih =>
    rw [List.cons_append, List.flatMap_cons, List.length_append, ← Nat.add_assoc]
    cases piece with
    | gap c => exact ih (offset + 1)
    | lexeme category text source => exact congrArg (List.cons _) (ih (offset + source.length))

theorem tokensAt_append (p : Position) (ps qs : List Piece) :
    tokensAt p (ps ++ qs) = tokensAt p ps ++ tokensAt (p.advance (ps.flatMap Piece.source)) qs := by
  induction ps generalizing p with
  | nil => rfl
  | cons piece ps ih =>
    rw [List.cons_append, List.flatMap_cons, Position.advance_append]
    cases piece with
    | gap c => exact ih (p.step c)
    | lexeme category text source => exact congrArg (List.cons _) (ih (p.advance source))

theorem length_spansFrom (offset : Nat) (p : Position) (ps : List Piece) :
    (spansFrom offset ps).length = (tokensAt p ps).length := by
  induction ps generalizing offset p with
  | nil => rfl
  | cons piece ps ih =>
    cases piece with
    | gap c => exact ih (offset + 1) (p.step c)
    | lexeme category text source =>
      exact congrArg Nat.succ (ih (offset + source.length) (p.advance source))

def Category.spell : Category → List Char → List Char
  | .string, text => '"' :: text ++ ['"']
  | .char, text => '\'' :: text ++ ['\'']
  | .comment, text => '/' :: '/' :: text
  | .blockComment, text => '/' :: '*' :: text ++ ['*', '/']
  | _, text => text

/-- Category and text of a token, the slice that it is made from and what follows the slice. There
are four kinds of errors, and the last two take the rest of the source. -/
inductive Spelled : Category → List Char → List Char → List Char → Prop where
  | clean (category : Category) (text after : List Char) : category ≠ .error →
      Spelled category text (category.spell text) after
  | badNumber {c : Char} {run : List Char} (after : List Char) : c.isDigit →
      (∀ d ∈ run, IsWordChar d) → ¬IsNumber (c :: run) →
      Spelled .error (c :: run) (c :: run) after
  | badLiteral {text : List Char} (after : List Char) : ¬IsCharContent text →
      Spelled .error text ('\'' :: text ++ ['\'']) after
  | openComment (body : List Char) : Spelled .error ('/' :: '*' :: body) ('/' :: '*' :: body) []
  | openLiteral {quote : Char} (body : List Char) : IsQuote quote →
      Spelled .error body (quote :: body) []

/-- The character begins no lexeme. Line feeds and blanks are such characters. -/
structure BeginsNothing (c : Char) : Prop where
  not_letter : ¬c.isAlpha
  not_digit : ¬c.isDigit
  not_quote : ¬IsQuote c
  not_symbol : ∀ s ∈ delimiters ++ operators, s.toList.head? ≠ some c

/-- A source cut at both ends of each span: by turns what stands between and what stands in them. -/
def cutFrom (offset : Nat) (cs : List Char) : List Span → List (List Char)
  | [] => [cs.drop offset]
  | s :: rest => Span.slice ⟨offset, s.start⟩ cs :: s.slice cs :: cutFrom s.stop cs rest

/-- The tokens are those of the source at the spans, and there is nothing else in it. -/
structure Covers (cs : List Char) (spans : List Span) (tokens : List Token) : Prop where
  nonempty : ∀ s ∈ spans, s.start < s.stop
  ordered : spans.Pairwise fun s t => s.stop ≤ t.start
  within : ∀ s ∈ spans, s.stop ≤ cs.length
  spelled : List.Forall₂
    (fun s t => Spelled t.category t.text.toList (s.slice cs) (cs.drop s.stop)) spans tokens
  between : ∀ i c, cs[i]? = some c → (∀ s ∈ spans, ¬s.Contains i) → BeginsNothing c
  whole : (cutFrom 0 cs spans).flatten = cs

variable {category : Category} {text source after : List Char} {c : Char} {ps : List Piece}

theorem wordCategory_cons {run : List Char} (hc : c.isAlpha) (hrun : ∀ d ∈ run, d.isAlphanum) :
    wordCategory (c :: run) =
      if String.ofList (c :: run) ∈ keywords then .keyword else .identifier := by
  have hidentifier : IsIdentifier (c :: run) := ⟨.inl hc, fun d hd => .inl (hrun d hd)⟩
  rw [wordCategory, if_pos hidentifier]

theorem Found.spelled (h : Found (.lexeme category text source) after) :
    Spelled category text source after := by
  cases h with
  | word hc hrun _ =>
    rw [wordCategory_cons hc hrun]
    split
    · exact .clean _ _ after (by decide)
    · exact .clean _ _ after (by decide)
  | number hc hrun _ =>
    split
    · exact .clean _ _ after (by decide)
    · next hnumber => exact .badNumber after hc hrun hnumber
  | comment => exact .clean _ _ after (by decide)
  | blockComment => exact .clean _ _ after (by decide)
  | openComment => exact .openComment _
  | literal _ hquote _ =>
    rcases hquote with rfl | rfl
    · exact .clean .string text after (by decide)
    · show Spelled (charCategory text) text _ after
      unfold charCategory
      split
      · exact .clean _ _ after (by decide)
      · next hcontent => exact .badLiteral after hcontent
  | openLiteral hquote _ => exact .openLiteral _ hquote
  | symbol _ hlongest =>
    rcases category_of_find hlongest.stored with rfl | rfl
    · exact .clean _ _ after (by decide)
    · exact .clean _ _ after (by decide)

theorem Found.beginsNothing (h : Found (.gap c) after) : BeginsNothing c := by
  cases h with
  | gap hplain hnone =>
    obtain ⟨hletter, hdigit, hquote⟩ := hplain.head
    exact ⟨hletter, hdigit, hquote, head_of_unmatched hnone hletter⟩

/-- The token is the lexeme that the scan finds at the start of the span. -/
inductive Stands : List Char → Span → Token → Prop where
  | intro (before : List Char) {category : Category} {text source after : List Char} :
      Found (.lexeme category text source) after →
      Stands (before ++ (source ++ after)) ⟨before.length, before.length + source.length⟩
        ⟨category, String.ofList text, (Position.advance {} before).line,
          (Position.advance {} before).column⟩

theorem stands_tokensAt (h : Scanned ps) (before : List Char) :
    List.Forall₂ (Stands (before ++ ps.flatMap Piece.source)) (spansFrom before.length ps)
      (tokensAt (Position.advance {} before) ps) := by
  induction h generalizing before with
  | nil => exact .nil
  | @cons p ps hfound _ ih =>
    cases p with
    | gap c =>
      have hrest := ih (before ++ [c])
      rwa [List.append_assoc, List.length_append, Position.advance_append] at hrest
    | lexeme category text source =>
      refine .cons (.intro before hfound) ?_
      have hrest := ih (before ++ source)
      rwa [List.append_assoc, List.length_append, Position.advance_append] at hrest

theorem stands_tokenize (source : String) :
    List.Forall₂ (Stands source.toList) (tokenSpans source) (tokenize source) := by
  have h := stands_tokensAt (scanned_pieces source.toList) []
  rwa [flatMap_source_pieces] at h

theorem exists_stands_of_mem {source : String} {t : Token} (h : t ∈ tokenize source) :
    ∃ s, Stands source.toList s t := by
  have hflip : List.Forall₂ (flip (Stands source.toList)) (tokenize source) (tokenSpans source) :=
    (stands_tokenize source).flip
  obtain ⟨hall, -⟩ := (List.forall₂_and_left _ _).mp
    (hflip.imp fun t s hs => ⟨Exists.intro s hs, hs⟩)
  exact hall t h

variable {cs : List Char} {s : Span} {t : Token} {spans : List Span} {offset : Nat}

theorem Stands.start_lt_stop (h : Stands cs s t) : s.start < s.stop := by
  obtain ⟨before, hfound⟩ := h
  have hpos := List.length_pos_iff.mpr hfound.source_ne_nil
  exact Nat.lt_add_of_pos_right hpos

theorem Stands.stop_le_length (h : Stands cs s t) : s.stop ≤ cs.length := by
  obtain ⟨before, hfound⟩ := h
  simp

theorem Stands.spelled (h : Stands cs s t) :
    Spelled t.category t.text.toList (s.slice cs) (cs.drop s.stop) := by
  obtain ⟨before, hfound⟩ := h
  rw [Span.slice_append, String.toList_ofList, ← List.append_assoc, ← List.length_append,
    List.drop_left]
  exact hfound.spelled

theorem le_start_of_mem_spansFrom (h : s ∈ spansFrom offset ps) : offset ≤ s.start := by
  fun_induction spansFrom offset ps with
  | case1 => cases h
  | case2 offset c rest ih => exact (Nat.le_succ offset).trans (ih h)
  | case3 offset category text source rest ih =>
    rcases List.mem_cons.mp h with rfl | h
    · exact le_refl offset
    · exact (Nat.le_add_right offset source.length).trans (ih h)

theorem pairwise_spansFrom (offset : Nat) (ps : List Piece) :
    (spansFrom offset ps).Pairwise fun s t => s.stop ≤ t.start := by
  fun_induction spansFrom offset ps with
  | case1 => exact .nil
  | case2 offset c rest ih => exact ih
  | case3 offset category text source rest ih =>
    exact .cons (fun t ht => le_start_of_mem_spansFrom ht) ih

theorem beginsNothing_of_not_contains (h : Scanned ps) (offset i : Nat) {c : Char}
    (hc : (ps.flatMap Piece.source)[i]? = some c)
    (hspans : ∀ s ∈ spansFrom offset ps, ¬s.Contains (offset + i)) : BeginsNothing c := by
  induction h generalizing offset i with
  | nil => cases hc
  | @cons p ps hfound _ ih =>
    rw [List.flatMap_cons] at hc
    cases p with
    | gap d =>
      cases i with
      | zero =>
        cases hc
        exact hfound.beginsNothing
      | succ i =>
        refine ih (offset + 1) i hc fun s hs hin => hspans s hs ?_
        rwa [Nat.add_right_comm] at hin
    | lexeme category text source =>
      have hlater : source.length ≤ i := by
        by_contra hi
        exact hspans _ List.mem_cons_self ⟨Nat.le_add_right _ _, by simpa using hi⟩
      rw [Piece.source, List.getElem?_append_right hlater] at hc
      refine ih (offset + source.length) _ hc fun s hs hin => ?_
      rw [Nat.add_assoc, Nat.add_sub_cancel' hlater] at hin
      exact hspans s (List.mem_cons_of_mem _ hs) hin

theorem flatten_cutFrom (hfrom : ∀ s ∈ spans, offset ≤ s.start)
    (hspans : ∀ s ∈ spans, s.start ≤ s.stop)
    (hordered : spans.Pairwise fun s t => s.stop ≤ t.start) :
    (cutFrom offset cs spans).flatten = cs.drop offset := by
  induction spans generalizing offset with
  | nil => simp [cutFrom]
  | cons s rest ih =>
    obtain ⟨hlater, hrest⟩ := List.pairwise_cons.mp hordered
    rw [cutFrom, List.flatten_cons, List.flatten_cons,
      ih hlater (fun t ht => hspans t (List.mem_cons_of_mem _ ht)) hrest,
      Span.slice_append_drop (hspans s List.mem_cons_self),
      Span.slice_append_drop (hfrom s List.mem_cons_self)]

/-- Nothing of a source is lost and nothing is read twice. -/
theorem covers_tokenize (source : String) :
    Covers source.toList (tokenSpans source) (tokenize source) := by
  have hstands := stands_tokenize source
  have hordered := pairwise_spansFrom 0 (pieces source.toList)
  obtain ⟨hplaces, -⟩ := (List.forall₂_and_left _ _).mp
    (hstands.imp fun s t h => ⟨And.intro h.start_lt_stop h.stop_le_length, h⟩)
  refine ⟨fun s hs => (hplaces s hs).1, hordered, fun s hs => (hplaces s hs).2,
    hstands.imp fun s t h => h.spelled, ?_, ?_⟩
  · intro i c hc hspans
    refine beginsNothing_of_not_contains (scanned_pieces source.toList) 0 i
      (by rwa [flatMap_source_pieces]) ?_
    rwa [Nat.zero_add]
  · exact flatten_cutFrom (fun s _ => Nat.zero_le _) (fun s hs => (hplaces s hs).1.le) hordered

example : tokenSpans "a /* b" = [⟨0, 1⟩, ⟨2, 6⟩] := by cbv

end GrammarLab.Lexer
