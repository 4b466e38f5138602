import Mathlib
import GrammarLab.Proofs.Reached

/-!
# Quoted literals

A literal ends at the first closing quote that no backslash takes along, and the scan goes on behind
it. Without such a quote the literal is an error that takes the rest of the source.
-/

namespace GrammarLab.Lexer

def Encloses (quote : Char) (body text : List Char) : Prop :=
  Units quote text ∧ text ++ [quote] <+: body

variable {quote : Char} {body text : List Char}

theorem quotedText_eq_some_iff (hquote : quote ≠ '\\') :
    quotedText quote body = some text ↔ Encloses quote body text := by
  constructor
  · intro h
    obtain ⟨after, hafter⟩ := quotedText_split h
    exact ⟨units_of_quotedText h, after, by simp [hafter]⟩
  · rintro ⟨hunits, after, rfl⟩
    rw [List.append_assoc]
    exact hunits.quotedText_append hquote after

variable {us vs : List Piece} {i : Nat} {source : String}

namespace Cut

theorem takes_literal {category : Category}
    (h : Cut source i us (.lexeme category text (quote :: text ++ [quote])) vs) :
    ∃ t, Takes source ⟨i, i + text.length + 2⟩ t ∧ t.category = category ∧
      t.text = String.ofList text := by
  have hlength : (quote :: text ++ [quote]).length = text.length + 2 := by simp
  obtain ⟨earlier, t, later, hplaced, hcategory, ht, -⟩ := h.exists_placedTokens_eq
  have hreached := h.reached_eq
  rw [hlength] at hplaced
  rw [Piece.source, hlength] at hreached
  refine ⟨t, ⟨?_, startsFrom 0 us, hreached⟩, hcategory, ht⟩
  rw [hplaced]
  exact List.mem_append_right _ List.mem_cons_self

theorem last_openLiteral (h : Cut source i us (.lexeme .error body (quote :: body)) vs)
    (hbody : source.toList.drop i = quote :: body) :
    ∃ t, (placedTokens source).getLast? = some (⟨i, source.length⟩, t) ∧
      t.category = .error ∧ t.text = String.ofList body := by
  have hafter : vs.flatMap Piece.source = [] :=
    List.self_eq_append_right.mp (hbody.symm.trans h.drop_eq)
  have hstop : i + (quote :: body).length = source.length := by
    rw [← String.length_toList, h.toList_eq, hafter, List.append_nil, List.length_append,
      h.length_eq, Piece.source]
  have hvs : vs = [] := by
    cases h.scanned with
    | cons _ hrest => rw [← pieces_of_scanned hrest, hafter, pieces]
  obtain ⟨earlier, t, later, hplaced, hcategory, ht, hlater⟩ := h.exists_placedTokens_eq
  refine ⟨t, ?_, hcategory, ht⟩
  rw [hplaced, hlater hvs, hstop, List.getLast?_concat]

end Cut

/-- Where the scan reaches a quote, the literal ends at the first closing quote behind whole units,
and if there is none it is an error and the last token. -/
theorem literal_of_mem_reached {source : String} {i : Nat} (hi : i ∈ reached source)
    (hquote : IsQuote quote) (hbody : source.toList.drop i = quote :: body) :
    (∀ text, Encloses quote body text →
      (∀ other, Encloses quote body other → other = text) ∧
      ∃ t, Takes source ⟨i, i + text.length + 2⟩ t ∧
        t.category = literalCategory quote text ∧ t.text = String.ofList text) ∧
    ((∀ text, ¬Encloses quote body text) →
      ∃ t, (placedTokens source).getLast? = some (⟨i, source.length⟩, t) ∧
        t.category = .error ∧ t.text = String.ofList body) := by
  obtain ⟨us, p, vs, hcut⟩ := exists_cut hi
  have hpiece : quoted quote (literalCategory quote) body = p := by
    rw [← firstPiece_quote hquote]
    exact hcut.firstPiece_eq hbody
  have hsome : ∀ text, quotedText quote body = some text ↔ Encloses quote body text :=
    fun text => quotedText_eq_some_iff hquote.ne_backslash
  constructor
  · intro text h
    have htext := (hsome text).mpr h
    refine ⟨fun other k => Option.some.inj (((hsome other).mpr k).symm.trans htext), ?_⟩
    rw [quoted, htext] at hpiece
    subst hpiece
    exact hcut.takes_literal
  · intro h
    have hnone : quotedText quote body = none :=
      Option.eq_none_iff_forall_ne_some.mpr fun text htext => h text ((hsome text).mp htext)
    rw [quoted, hnone] at hpiece
    subst hpiece
    exact hcut.last_openLiteral hbody

/-- An escaped quote, an escaped backslash, a line feed and the other quote in one literal, and
behind it a literal whose only other quote is escaped. -/
theorem literal_of_mem_reached_escapes :
    let source := "s=\"\\\"\\\\\n'\"'\\'"
    let text := ['\\', '"', '\\', '\\', '\n', '\'']
    let rest := ['\\', '\'']
    (2 ∈ reached source ∧ Encloses '"' (source.toList.drop 3) text ∧
      ∃ t, Takes source ⟨2, 10⟩ t ∧ t.category = .string ∧ t.text = String.ofList text) ∧
    (10 ∈ reached source ∧ (∀ text, ¬Encloses '\'' rest text) ∧
      ∃ t, (placedTokens source).getLast? = some (⟨10, source.length⟩, t) ∧
        t.category = .error ∧ t.text = String.ofList rest) := by
  intro source text rest
  have hfirst : 2 ∈ reached source := by decide +kernel
  have hsecond : 10 ∈ reached source := by decide +kernel
  have hunits : Units '"' text := .escaped '"' (.escaped '\\'
    (.plain (by decide) (by decide) (.plain (by decide) (by decide) .nil)))
  have hcloses : Encloses '"' (source.toList.drop 3) text := ⟨hunits, by decide⟩
  have hrest : source.toList.drop 10 = '\'' :: rest := by decide
  have hopen : ∀ text, ¬Encloses '\'' rest text := by
    intro text h
    have hnone : quotedText '\'' rest = none := by decide
    rw [(quotedText_eq_some_iff (by decide)).mpr h] at hnone
    cases hnone
  refine ⟨⟨hfirst, hcloses, ?_⟩, hsecond, hopen, ?_⟩
  · exact ((literal_of_mem_reached hfirst (.inl rfl) (by decide)).1 text hcloses).2
  · exact (literal_of_mem_reached hsecond (.inr rfl) hrest).2 hopen

end GrammarLab.Lexer
