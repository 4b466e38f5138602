import Mathlib
import GrammarLab.Proofs.Spans

/-!
# Offsets that the scan reaches

The scan reaches an offset if a piece begins there. It can be cut at such an offset: the piece is
found in front of the characters behind it, and the scan goes on with these alone.
-/

namespace GrammarLab.Lexer

def startsFrom (offset : Nat) : List Piece → List Nat
  | [] => []
  | p :: rest => offset :: startsFrom (offset + p.source.length) rest

/-- The offsets that the scan of a source reaches. -/
def reached (source : String) : List Nat := startsFrom 0 (pieces source.toList)

def placedTokens (source : String) : List (Span × Token) :=
  (tokenSpans source).zip (tokenize source)

/-- The scan makes the token from the span and goes on behind it, with a scan of the rest. -/
structure Takes (source : String) (s : Span) (t : Token) : Prop where
  placed : (s, t) ∈ placedTokens source
  resumes : ∃ earlier, reached source =
    earlier ++ s.start :: startsFrom s.stop (pieces (source.toList.drop s.stop))

variable {ps us vs : List Piece} {p : Piece} {offset i : Nat} {text : List Char}

theorem startsFrom_append (offset : Nat) (us vs : List Piece) :
    startsFrom offset (us ++ vs) =
      startsFrom offset us ++ startsFrom (offset + (us.flatMap Piece.source).length) vs := by
  induction us generalizing offset with
  | nil => rfl
  | cons p us ih =>
    rw [List.cons_append, startsFrom, startsFrom, ih, List.flatMap_cons, List.length_append,
      Nat.add_assoc, List.cons_append]

theorem exists_split_of_mem_startsFrom (h : i ∈ startsFrom offset ps) :
    ∃ us p vs, ps = us ++ p :: vs ∧ i = offset + (us.flatMap Piece.source).length := by
  fun_induction startsFrom offset ps with
  | case1 => cases h
  | case2 offset p rest ih =>
    rcases List.mem_cons.mp h with rfl | h
    · exact ⟨[], p, rest, rfl, rfl⟩
    · obtain ⟨us, q, vs, rfl, rfl⟩ := ih h
      exact ⟨p :: us, q, vs, rfl, by simp [Nat.add_assoc]⟩

theorem Scanned.of_append (h : Scanned (us ++ vs)) : Scanned vs := by
  induction us with
  | nil => exact h
  | cons p us ih =>
    cases h with
    | cons _ h => exact ih h

/-- The scan of a source, cut at the piece that begins at the offset. -/
structure Cut (source : String) (i : Nat) (us : List Piece) (p : Piece) (vs : List Piece) :
    Prop where
  pieces_eq : pieces source.toList = us ++ p :: vs
  length_eq : (us.flatMap Piece.source).length = i

variable {source : String}

theorem exists_cut (h : i ∈ reached source) : ∃ us p vs, Cut source i us p vs := by
  obtain ⟨us, p, vs, hpieces, hi⟩ := exists_split_of_mem_startsFrom h
  exact ⟨us, p, vs, hpieces, by rw [hi, Nat.zero_add]⟩

namespace Cut

theorem toList_eq (h : Cut source i us p vs) :
    source.toList = us.flatMap Piece.source ++ (p.source ++ vs.flatMap Piece.source) := by
  have hpieces := flatMap_source_pieces source.toList
  rw [h.pieces_eq, List.flatMap_append, List.flatMap_cons] at hpieces
  exact hpieces.symm

theorem drop_eq (h : Cut source i us p vs) :
    source.toList.drop i = p.source ++ vs.flatMap Piece.source := by
  rw [h.toList_eq, ← h.length_eq, List.drop_left]

theorem scanned (h : Cut source i us p vs) : Scanned (p :: vs) := by
  have hall := scanned_pieces source.toList
  rw [h.pieces_eq] at hall
  exact hall.of_append

theorem firstPiece_eq (h : Cut source i us p vs) {c : Char} {rest : List Char}
    (hrest : source.toList.drop i = c :: rest) : firstPiece c rest = p := by
  cases h.scanned with
  | cons hfound _ => exact firstPiece_of_leads ⟨_, hrest.symm.trans h.drop_eq, hfound⟩

theorem pieces_drop (h : Cut source i us p vs) :
    pieces (source.toList.drop (i + p.source.length)) = vs := by
  rw [← List.drop_drop, h.drop_eq, List.drop_left]
  cases h.scanned with
  | cons _ hrest => exact pieces_of_scanned hrest

theorem reached_eq (h : Cut source i us p vs) : reached source =
    startsFrom 0 us ++ i :: startsFrom (i + p.source.length)
      (pieces (source.toList.drop (i + p.source.length))) := by
  rw [h.pieces_drop, reached, h.pieces_eq, startsFrom_append, Nat.zero_add, h.length_eq, startsFrom]

theorem exists_placedTokens_eq {category : Category} {taken : List Char}
    (h : Cut source i us (.lexeme category text taken) vs) :
    ∃ earlier t later, placedTokens source = earlier ++ (⟨i, i + taken.length⟩, t) :: later ∧
      t.category = category ∧ t.text = String.ofList text ∧ (vs = [] → later = []) := by
  let here := Position.advance {} (us.flatMap Piece.source)
  let t : Token := ⟨category, String.ofList text, here.line, here.column⟩
  let later := (spansFrom (i + taken.length) vs).zip (tokensAt (here.advance taken) vs)
  refine ⟨(spansFrom 0 us).zip (tokensAt {} us), t, later, ?_, rfl, rfl, ?_⟩
  · rw [placedTokens, tokenSpans, tokenize, h.pieces_eq, spansFrom_append, tokensAt_append,
      List.zip_append (length_spansFrom 0 {} us), Nat.zero_add, h.length_eq]
    rfl
  · rintro rfl
    rfl

end Cut

end GrammarLab.Lexer
