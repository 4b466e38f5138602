import Mathlib
import GrammarLab.Proofs.Spans

/-!
# Lines and columns

The line of a token counts the line feeds in front of it, also those inside earlier comments and
literals, and its column is its distance from the last of them. Later tokens have later positions.
-/

namespace GrammarLab.Lexer

/-- The offset of the last line feed. Without one, the text begins where a line does. -/
def lastLineFeed (cs : List Char) : Int := ((cs.idxsOf '\n').getLast?.map Int.ofNat).getD (-1)

def Token.position (t : Token) : Position := ⟨t.line, t.column⟩

namespace Position

def Before (p q : Position) : Prop := p.line < q.line ∨ p.line = q.line ∧ p.column < q.column

instance (p q : Position) : Decidable (p.Before q) := inferInstanceAs (Decidable (_ ∨ _ ∧ _))

variable {p q r : Position}

theorem Before.trans (h : p.Before q) (k : q.Before r) : p.Before r := by
  unfold Before at *
  omega

theorem before_step (p : Position) (c : Char) : p.Before (p.step c) := by
  unfold step
  split
  · exact .inl (Nat.lt_succ_self p.line)
  · exact .inr ⟨rfl, Nat.lt_succ_self p.column⟩

theorem before_advance (p : Position) {cs : List Char} (h : cs ≠ []) : p.Before (p.advance cs) := by
  induction cs generalizing p with
  | nil => exact absurd rfl h
  | cons c rest ih =>
    have hstep := before_step p c
    by_cases hrest : rest = []
    · subst hrest
      exact hstep
    · exact hstep.trans (ih (p.step c) hrest)

theorem line_advance (p : Position) (cs : List Char) :
    (p.advance cs).line = p.line + cs.count '\n' := by
  induction cs generalizing p with
  | nil => rfl
  | cons c rest ih =>
    have hrest : (p.advance (c :: rest)).line = (p.step c).line + rest.count '\n' := ih (p.step c)
    rw [hrest, step, List.count_cons]
    by_cases hc : c = '\n'
    · simp only [hc, if_true, beq_self_eq_true]
      omega
    · simp [hc]

end Position

theorem lastLineFeed_append_singleton (cs : List Char) (c : Char) :
    lastLineFeed (cs ++ [c]) = if c = '\n' then (cs.length : Int) else lastLineFeed cs := by
  by_cases hc : c = '\n' <;> simp [lastLineFeed, List.idxsOf_append, hc]

theorem Position.column_advance (cs : List Char) :
    ((advance {} cs).column : Int) = cs.length - lastLineFeed cs := by
  induction cs using List.reverseRecOn with
  | nil => rfl
  | append_singleton cs c ih =>
    have hstep : advance {} (cs ++ [c]) = (advance {} cs).step c := advance_append _ _ _
    rw [hstep, lastLineFeed_append_singleton, List.length_append, List.length_singleton, step]
    by_cases hc : c = '\n'
    · simp only [hc, if_true]
      omega
    · simp only [hc, if_false]
      omega

variable {ps : List Piece} {p : Position}

theorem before_of_mem_tokensAt (h : Scanned ps) {t : Token} (ht : t ∈ tokensAt p ps) :
    p = t.position ∨ p.Before t.position := by
  induction h generalizing p with
  | nil => cases ht
  | @cons q ps hfound _ ih =>
    have hlater : ∀ r, p.Before r → t ∈ tokensAt r ps → p.Before t.position := by
      intro r hr ht
      rcases ih ht with rfl | h
      · exact hr
      · exact hr.trans h
    cases q with
    | gap c => exact .inr (hlater _ (p.before_step c) ht)
    | lexeme category text source =>
      rcases List.mem_cons.mp ht with rfl | ht
      · exact .inl rfl
      · exact .inr (hlater _ (p.before_advance hfound.source_ne_nil) ht)

theorem pairwise_tokensAt (h : Scanned ps) (p : Position) :
    (tokensAt p ps).Pairwise fun t u => t.position.Before u.position := by
  induction h generalizing p with
  | nil => exact .nil
  | @cons q ps hfound hps ih =>
    cases q with
    | gap c => exact ih (p.step c)
    | lexeme category text source =>
      refine .cons (fun u hu => ?_) (ih (p.advance source))
      have hsource : p.Before (p.advance source) := p.before_advance hfound.source_ne_nil
      rcases before_of_mem_tokensAt hps hu with h | h
      · exact h ▸ hsource
      · exact hsource.trans h

theorem Stands.line {cs : List Char} {s : Span} {t : Token} (h : Stands cs s t) :
    t.line = 1 + (cs.take s.start).count '\n' := by
  obtain ⟨before, -⟩ := h
  rw [Position.line_advance, List.take_left]

theorem Stands.column {cs : List Char} {s : Span} {t : Token} (h : Stands cs s t) :
    (t.column : Int) = s.start - lastLineFeed (cs.take s.start) := by
  obtain ⟨before, -⟩ := h
  rw [Position.column_advance, List.take_left]

/-- Positions are those of the first characters, and they grow. -/
theorem positions_tokenize (source : String) :
    List.Forall₂ (fun s t => t.line = 1 + (source.toList.take s.start).count '\n' ∧
        (t.column : Int) = s.start - lastLineFeed (source.toList.take s.start))
      (tokenSpans source) (tokenize source) ∧
    (tokenize source).Pairwise fun t u => t.position.Before u.position := by
  constructor
  · exact (stands_tokenize source).imp fun s t h => ⟨h.line, h.column⟩
  · exact pairwise_tokensAt (scanned_pieces source.toList) {}

end GrammarLab.Lexer
