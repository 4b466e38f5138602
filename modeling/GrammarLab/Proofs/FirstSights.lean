import Mathlib
import GrammarLab.Proofs.Rules

/-!
# First sights

A table that interns texts one after the other, starting from nothing, holds each of them once, in
the order of first sights, numbered from zero and with the kind of its first sight.
-/

namespace GrammarLab

section Firsts

variable {α κ : Type} [DecidableEq κ]

/-- The members whose key no earlier member has. -/
def firsts (key : α → κ) : List α → List α
  | [] => []
  | a :: rest => a :: (firsts key rest).filter fun b => key b ≠ key a

theorem firsts_append_singleton (key : α → κ) (l : List α) (a : α) :
    firsts key (l ++ [a]) = firsts key l ++ if key a ∈ l.map key then [] else [a] := by
  induction l with
  | nil => rfl
  | cons b l ih =>
    rw [List.cons_append, firsts, firsts, ih, List.filter_append, List.map_cons, List.cons_append]
    by_cases hab : key a = key b
    · simp [hab]
    · by_cases ha : key a ∈ l.map key <;> simp [hab, ha]

theorem mem_map_firsts {key : α → κ} {l : List α} {k : κ} :
    k ∈ (firsts key l).map key ↔ k ∈ l.map key := by
  induction l using List.reverseRecOn with
  | nil => rfl
  | append_singleton l a ih =>
    rw [firsts_append_singleton, List.map_append, List.map_append, List.mem_append,
      List.mem_append, ih]
    by_cases ha : key a ∈ l.map key
    · have hk : k = key a → k ∈ l.map key := fun h => h ▸ ha
      simpa [ha] using hk
    · simp [ha]

theorem mem_of_mem_firsts {key : α → κ} {l : List α} {a : α} (h : a ∈ firsts key l) : a ∈ l := by
  induction l with
  | nil => exact h
  | cons b l ih =>
    rcases List.mem_cons.mp h with rfl | h
    · exact List.mem_cons_self
    · exact List.mem_cons_of_mem _ (ih (List.mem_of_mem_filter h))

theorem exists_mem_firsts (key : α → κ) {l : List α} {a : α} (h : a ∈ l) :
    ∃ b ∈ firsts key l, key b = key a :=
  List.mem_map.mp (mem_map_firsts.mpr (List.mem_map_of_mem h))

theorem nodup_map_firsts (key : α → κ) (l : List α) : ((firsts key l).map key).Nodup := by
  induction l with
  | nil => exact List.nodup_nil
  | cons a l ih =>
    rw [firsts, List.map_cons, List.nodup_cons]
    refine ⟨?_, ih.sublist (List.filter_sublist.map key)⟩
    rintro hmem
    obtain ⟨b, hb, hkey⟩ := List.mem_map.mp hmem
    exact of_decide_eq_true (List.mem_filter.mp hb).2 hkey

theorem firsts_of_nodup {key : α → κ} {l : List α} (h : (l.map key).Nodup) : firsts key l = l := by
  induction l with
  | nil => rfl
  | cons a l ih =>
    obtain ⟨hnew, hrest⟩ := List.nodup_cons.mp h
    rw [firsts, ih hrest, List.filter_eq_self.mpr]
    intro b hb
    have hne : key b ≠ key a := fun heq => hnew (heq ▸ List.mem_map_of_mem hb)
    exact decide_eq_true hne

theorem filter_key_eq_singleton {key : α → κ} {l : List α} (h : (l.map key).Nodup) {a : α}
    (ha : a ∈ l) : (l.filter fun b => key b = key a) = [a] := by
  induction l with
  | nil => exact absurd ha List.not_mem_nil
  | cons b l ih =>
    obtain ⟨hnew, hrest⟩ := List.nodup_cons.mp h
    rcases List.mem_cons.mp ha with rfl | ha
    · have hnone : (l.filter fun b => key b = key a) = [] := by
        rw [List.filter_eq_nil_iff]
        intro b hb heq
        exact hnew (of_decide_eq_true heq ▸ List.mem_map_of_mem hb)
      simp [hnone]
    · have hne : key b ≠ key a := fun heq => hnew (heq ▸ List.mem_map_of_mem ha)
      simp [hne, ih hrest ha]

end Firsts

namespace SymbolTable

def ofSights (sights : List (String × Kind)) : SymbolTable :=
  ⟨(firsts Prod.fst sights).mapIdx fun i s => ⟨i, s.1, s.2⟩⟩

theorem texts_ofSights (sights : List (String × Kind)) :
    (ofSights sights).symbols.map Symbol.text = (firsts Prod.fst sights).map Prod.fst := by
  apply List.ext_getElem?
  intro i
  rw [List.getElem?_map, List.getElem?_map, ofSights, List.getElem?_mapIdx, Option.map_map]
  rfl

theorem size_ofSights (sights : List (String × Kind)) :
    (ofSights sights).size = (firsts Prod.fst sights).length := List.length_mapIdx

theorem intern_ofSights (sights : List (String × Kind)) (text : String) (kind : Kind) :
    ((ofSights sights).intern text kind).2 = ofSights (sights ++ [(text, kind)]) := by
  have hknown : (ofSights sights).lookup text = none ↔ text ∉ sights.map Prod.fst := by
    rw [lookup_eq_none_iff, texts_ofSights, mem_map_firsts]
  have hlonger : ofSights (sights ++ [(text, kind)]) = ⟨(firsts Prod.fst sights ++
      if text ∈ sights.map Prod.fst then [] else [(text, kind)]).mapIdx
        fun i s => ⟨i, s.1, s.2⟩⟩ := by
    rw [ofSights, firsts_append_singleton]
  rw [hlonger, intern]
  split
  · next s hs =>
    have hmem : text ∈ sights.map Prod.fst := by
      by_contra hnew
      cases hs.symm.trans (hknown.mpr hnew)
    rw [if_pos hmem, List.append_nil]
    rfl
  · next hnone =>
    rw [if_neg (hknown.mp hnone), List.mapIdx_append, fresh, size_ofSights]
    simp [ofSights]

theorem internSights_ofSights (us vs : List (String × Kind)) :
    (ofSights us).internSights vs = ofSights (us ++ vs) := by
  induction vs using List.reverseRecOn with
  | nil => simp [internSights]
  | append_singleton vs s ih =>
    rw [internSights_append, ih, ← List.append_assoc, ← intern_ofSights]
    rfl

end SymbolTable

end GrammarLab
