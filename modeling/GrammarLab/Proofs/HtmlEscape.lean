import Mathlib
import GrammarLab.Assoc
import GrammarLab.Service

/-!
# Escaped texts can be read back

The five replacements write ampersands, and the first of them looks for ampersands; the others find
in the entities nothing to replace. So each character is replaced by itself, whatever stands beside
it. Nothing with a meaning in markup is left but ampersands that begin an entity, and entities read
from left to right give back the text.
-/

namespace GrammarLab.Text

def entities : List (Char × String) :=
  [('&', "&amp;"), ('<', "&lt;"), ('>', "&gt;"), ('"', "&quot;"), ('\'', "&#039;")]

def entityOf (c : Char) : List Char := ((entities.lookup c).map String.toList).getD [c]

/-- Reads entities from left to right. A character with which none begins stands for itself. -/
def unescapeHtmlChars : List Char → List Char
  | [] => []
  | c :: rest =>
    match entities.find? fun e => e.2.toList <+: c :: rest with
    | some e => e.1 :: unescapeHtmlChars (rest.drop (e.2.toList.length - 1))
    | none => c :: unescapeHtmlChars rest
termination_by cs => cs.length
decreasing_by
  · simp only [List.length_drop, List.length_cons]
    omega
  · simp

def unescapeHtml (s : String) : String := String.ofList (unescapeHtmlChars s.toList)

theorem entityOf_cases (c : Char) :
    (∃ e ∈ entities, e.1 = c ∧ entityOf c = e.2.toList) ∨
      (c ∉ entities.map Prod.fst ∧ entityOf c = [c]) := by
  cases h : entities.lookup c with
  | none => exact .inr ⟨Assoc.lookup_eq_none.mp h, by simp [entityOf, h]⟩
  | some text => exact .inl ⟨(c, text), Assoc.mem_of_lookup h, rfl, by simp [entityOf, h]⟩

theorem replaceChar_singleton {c d : Char} (h : d ≠ c) (entity : String) :
    replaceChar c entity [d] = [d] := by
  simp [replaceChar, h]

theorem escapeHtmlChars_singleton (c : Char) : escapeHtmlChars [c] = entityOf c := by
  rcases entityOf_cases c with ⟨e, he, rfl, heq⟩ | ⟨hc, heq⟩
  · have hall : ∀ e ∈ entities, escapeHtmlChars [e.1] = e.2.toList := by decide
    rw [heq, hall e he]
  · simp only [entities, List.map_cons, List.map_nil, List.mem_cons, not_or] at hc
    obtain ⟨hamp, hlt, hgt, hquot, hapos, -⟩ := hc
    rw [heq, escapeHtmlChars, replaceChar_singleton hamp, replaceChar_singleton hlt,
      replaceChar_singleton hgt, replaceChar_singleton hquot, replaceChar_singleton hapos]

theorem escapeHtmlChars_eq_flatMap (cs : List Char) : escapeHtmlChars cs = cs.flatMap entityOf := by
  induction cs with
  | nil => rfl
  | cons c cs ih =>
    rw [← List.singleton_append, escapeHtmlChars_append, ih, escapeHtmlChars_singleton]
    rfl

theorem exists_entity_eq_cons {e : Char × String} (he : e ∈ entities) :
    ∃ tail, e.2.toList = '&' :: tail ∧ '&' ∉ tail := by
  have hall : ∀ e ∈ entities, e.2.toList.head? = some '&' ∧ '&' ∉ e.2.toList.tail := by decide
  obtain ⟨hhead, htail⟩ := hall e he
  exact ⟨_, (List.cons_head?_tail hhead).symm, htail⟩

theorem not_mem_entityOf {e : Char × String} (he : e ∈ entities) (hne : e.1 ≠ '&') (c : Char) :
    e.1 ∉ entityOf c := by
  rcases entityOf_cases c with ⟨f, hf, rfl, heq⟩ | ⟨hc, heq⟩
  · have hall : ∀ f ∈ entities, ∀ e ∈ entities, e.1 ∈ f.2.toList → e.1 = '&' := by decide
    rw [heq]
    exact fun hmem => hne (hall f hf e he hmem)
  · rw [heq, List.mem_singleton]
    intro h
    exact hc (h ▸ List.mem_map_of_mem he)

theorem exists_entity_of_ampersand {cs before after : List Char}
    (h : cs.flatMap entityOf = before ++ '&' :: after) :
    ∃ e ∈ entities, e.2.toList <+: '&' :: after := by
  induction cs generalizing before with
  | nil => simp at h
  | cons c cs ih =>
    rw [List.flatMap_cons] at h
    rcases entityOf_cases c with ⟨e, he, rfl, heq⟩ | ⟨hc, heq⟩
    · rw [heq] at h
      cases before with
      | nil => exact ⟨e, he, _, h⟩
      | cons b before =>
        obtain ⟨tail, htail, hnone⟩ := exists_entity_eq_cons he
        rw [htail, List.cons_append, List.cons_append, List.cons.injEq] at h
        rcases List.append_eq_append_iff.mp h.2 with ⟨skipped, -, hrest⟩ | ⟨skipped, hskipped, hrest⟩
        · exact ih hrest
        · cases skipped with
          | nil => exact ih (show cs.flatMap entityOf = [] ++ '&' :: after from hrest.symm)
          | cons d skipped =>
            obtain rfl : '&' = d := (List.cons.inj hrest).1
            exact absurd (hskipped ▸ by simp) hnone
    · rw [heq] at h
      cases before with
      | nil =>
        obtain rfl : c = '&' := (List.cons.inj h).1
        exact absurd (by decide) hc
      | cons b before => exact ih (List.cons.inj h).2

/-- No entity begins another one, so there is one at most that begins the text. -/
theorem find?_entities {e : Char × String} (he : e ∈ entities) (rest : List Char) :
    (entities.find? fun f => f.2.toList <+: e.2.toList ++ rest) = some e := by
  have hall : ∀ e ∈ entities, ∀ f ∈ entities,
      f.2.toList <+: e.2.toList ∨ e.2.toList <+: f.2.toList → f = e := by decide
  cases hfind : entities.find? fun f => f.2.toList <+: e.2.toList ++ rest with
  | none => simpa using List.find?_eq_none.mp hfind e he
  | some f =>
    have hbegins : f.2.toList <+: e.2.toList ++ rest := by simpa using List.find?_some hfind
    have hone := List.prefix_or_prefix_of_prefix hbegins (List.prefix_append e.2.toList rest)
    rw [hall e he f (List.mem_of_find?_eq_some hfind) hone]

theorem unescapeHtmlChars_entity {e : Char × String} (he : e ∈ entities) (rest : List Char) :
    unescapeHtmlChars (e.2.toList ++ rest) = e.1 :: unescapeHtmlChars rest := by
  have hfind := find?_entities he rest
  obtain ⟨tail, htail, -⟩ := exists_entity_eq_cons he
  rw [htail, List.cons_append] at hfind ⊢
  rw [unescapeHtmlChars, hfind]
  simp [htail]

theorem unescapeHtmlChars_cons {c : Char} (h : c ≠ '&') (rest : List Char) :
    unescapeHtmlChars (c :: rest) = c :: unescapeHtmlChars rest := by
  have hnone : (entities.find? fun e => e.2.toList <+: c :: rest) = none := by
    refine List.find?_eq_none.mpr fun e he => ?_
    obtain ⟨tail, htail, -⟩ := exists_entity_eq_cons he
    simp [htail, Ne.symm h]
  rw [unescapeHtmlChars, hnone]

theorem unescapeHtmlChars_flatMap (cs : List Char) :
    unescapeHtmlChars (cs.flatMap entityOf) = cs := by
  induction cs with
  | nil => rw [List.flatMap_nil, unescapeHtmlChars]
  | cons c cs ih =>
    rw [List.flatMap_cons]
    rcases entityOf_cases c with ⟨e, he, rfl, heq⟩ | ⟨hc, heq⟩
    · rw [heq, unescapeHtmlChars_entity he, ih]
    · have hne : c ≠ '&' := by
        rintro rfl
        exact hc (by decide)
      rw [heq, List.singleton_append, unescapeHtmlChars_cons hne, ih]

theorem toList_escapeHtml (s : String) : (escapeHtml s).toList = s.toList.flatMap entityOf := by
  rw [escapeHtml, String.toList_ofList, escapeHtmlChars_eq_flatMap]

theorem unescapeHtml_escapeHtml (s : String) : unescapeHtml (escapeHtml s) = s := by
  rw [unescapeHtml, toList_escapeHtml, unescapeHtmlChars_flatMap, String.ofList_toList]

theorem not_mem_escapeHtml (s : String) {c : Char} (hc : c ∈ ['<', '>', '"', '\'']) :
    c ∉ (escapeHtml s).toList := by
  intro hmem
  rw [toList_escapeHtml] at hmem
  obtain ⟨d, -, hd⟩ := List.mem_flatMap.mp hmem
  have hmarks : ∀ c, c ∈ ['<', '>', '"', '\''] → ∃ e ∈ entities, e.1 = c ∧ e.1 ≠ '&' := by
    simp [entities]
  obtain ⟨e, he, rfl, hne⟩ := hmarks c hc
  exact not_mem_entityOf he hne d hd

/-- Also where the text holds entities or parts of them before it is escaped. -/
theorem escapeHtml_lossless :
    (∀ s, (escapeHtml s).toList = s.toList.flatMap entityOf) ∧
    (∀ s t, escapeHtml (s ++ t) = escapeHtml s ++ escapeHtml t) ∧
    (∀ s, ∀ c ∈ ['<', '>', '"', '\''], c ∉ (escapeHtml s).toList) ∧
    (∀ s before after, (escapeHtml s).toList = before ++ '&' :: after →
      ∃ e ∈ entities, e.2.toList <+: '&' :: after) ∧
    (∀ s, unescapeHtml (escapeHtml s) = s) ∧
    Function.Injective escapeHtml := by
  refine ⟨toList_escapeHtml, fun s t => ?_, fun s c hc => not_mem_escapeHtml s hc,
    fun s before after h => ?_, unescapeHtml_escapeHtml,
    Function.LeftInverse.injective unescapeHtml_escapeHtml⟩
  · rw [← String.toList_inj, String.toList_append, toList_escapeHtml, toList_escapeHtml,
      toList_escapeHtml, String.toList_append, List.flatMap_append]
  · rw [toList_escapeHtml] at h
    exact exists_entity_of_ampersand h

example : escapeHtml "&lt;'" = "&amp;lt;&#039;" := by decide

end GrammarLab.Text

namespace GrammarLab.Service

theorem not_mem_escapeHtml (v : Json) {c : Char} (hc : c ∈ ['<', '>', '"', '\'']) :
    c ∉ (escapeHtml v).toList := by
  cases v with
  | null => exact List.not_mem_nil
  | _ => exact Text.not_mem_escapeHtml _ hc

end GrammarLab.Service
