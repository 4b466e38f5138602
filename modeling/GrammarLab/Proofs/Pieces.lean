import Mathlib
import GrammarLab.Text.Blank

/-!
# Cutting and joining texts

Pieces that a text is cut into hold no separator and, joined again, are the text. Trimming leaves a
text alone that ends with a character to be kept, and leaves no other character at the end.
-/

namespace GrammarLab.Text

section Pieces

variable {sep c : Char} {cs piece : List Char}

theorem mem_intercalate {between : List Char} {pieces : List (List Char)}
    (hpiece : piece ∈ pieces) (hc : c ∈ piece) : c ∈ between.intercalate pieces := by
  induction pieces with
  | nil => exact absurd hpiece List.not_mem_nil
  | cons first rest ih =>
    cases rest with
    | nil =>
      obtain rfl := List.mem_singleton.mp hpiece
      simpa using hc
    | cons second rest =>
      rw [List.intercalate_cons_cons, List.mem_append, List.mem_append]
      rcases List.mem_cons.mp hpiece with rfl | hpiece
      · exact Or.inl (Or.inl hc)
      · exact Or.inr (ih hpiece)

theorem mem_of_mem_intercalate {between : List Char} {pieces : List (List Char)}
    (hc : c ∈ between.intercalate pieces) : c ∈ between ∨ ∃ piece ∈ pieces, c ∈ piece := by
  induction pieces with
  | nil => simp at hc
  | cons first rest ih =>
    cases rest with
    | nil => exact Or.inr ⟨first, List.mem_cons_self, by simpa using hc⟩
    | cons second rest =>
      rw [List.intercalate_cons_cons, List.mem_append, List.mem_append] at hc
      rcases hc with (hc | hc) | hc
      · exact Or.inr ⟨first, List.mem_cons_self, hc⟩
      · exact Or.inl hc
      · rcases ih hc with hc | ⟨piece, hpiece, hc⟩
        · exact Or.inl hc
        · exact Or.inr ⟨piece, List.mem_cons_of_mem _ hpiece, hc⟩

theorem mem_of_mem_splitOn (hpiece : piece ∈ cs.splitOn sep) (hc : c ∈ piece) : c ∈ cs := by
  have hjoined : c ∈ [sep].intercalate (cs.splitOn sep) := mem_intercalate hpiece hc
  rwa [List.intercalate_splitOn] at hjoined

theorem not_mem_of_mem_splitOn (hpiece : piece ∈ cs.splitOn sep) : sep ∉ piece := by
  induction cs generalizing piece with
  | nil =>
    obtain rfl := List.mem_singleton.mp hpiece
    exact List.not_mem_nil
  | cons c cs ih =>
    obtain ⟨first, rest, hsplit⟩ := List.exists_cons_of_ne_nil (List.splitOn_ne_nil sep cs)
    rw [List.splitOn_cons_eq_if_modifyHead, hsplit] at hpiece
    rw [hsplit] at ih
    by_cases hc : c = sep
    · have hcases : piece = [] ∨ piece ∈ first :: rest := by simpa [hc] using hpiece
      rcases hcases with rfl | hpiece
      · exact List.not_mem_nil
      · exact ih hpiece
    · have hcases : piece = c :: first ∨ piece ∈ rest := by simpa [hc] using hpiece
      rcases hcases with rfl | hpiece
      · exact List.not_mem_cons_of_ne_of_not_mem (Ne.symm hc) (ih List.mem_cons_self)
      · exact ih (List.mem_cons_of_mem _ hpiece)

theorem exists_intercalate_concat (between : List Char) (pieces : List (List Char))
    (last : List Char) :
    ∃ front, between.intercalate (pieces ++ [last]) = front ++ last := by
  induction pieces with
  | nil => exact ⟨[], by simp⟩
  | cons first rest ih =>
    obtain ⟨front, hfront⟩ := ih
    obtain ⟨second, more, hmore⟩ : ∃ second more, rest ++ [last] = second :: more :=
      List.exists_cons_of_ne_nil (by simp)
    refine ⟨first ++ between ++ front, ?_⟩
    rw [List.cons_append, hmore, List.intercalate_cons_cons, ← hmore, hfront]
    simp only [List.append_assoc]

end Pieces

section Trimming

variable {p : Char → Bool} {cs : List Char} {c : Char}

theorem trimEnd_concat (hc : ¬p c) : trimEnd p (cs ++ [c]) = cs ++ [c] := by
  induction cs with
  | nil => simp [trimEnd, hc]
  | cons d cs ih =>
    obtain ⟨first, rest, hrest⟩ := List.exists_cons_of_ne_nil (show cs ++ [c] ≠ [] by simp)
    rw [List.cons_append, trimEnd, ih, hrest]

theorem not_of_trimEnd_eq_concat {kept : List Char} (h : trimEnd p cs = kept ++ [c]) : ¬p c := by
  induction cs generalizing kept with
  | nil => simp [trimEnd] at h
  | cons d cs ih =>
    rw [trimEnd] at h
    split at h
    · split at h
      · simp at h
      · next hd =>
        obtain ⟨-, rfl⟩ : kept = [] ∧ c = d := by simpa [List.singleton_eq_append_iff] using h
        exact hd
    · next e rest hrest =>
      cases kept with
      | nil => simp at h
      | cons k kept =>
        rw [List.cons_append] at h
        exact ih (hrest.trans (List.cons.inj h).2)

end Trimming

end GrammarLab.Text
