import Mathlib
import GrammarLab.Solver

/-!
# Families of sets and the FIRST recurrence

Families over fixed keys are ordered by inclusion of their sets. Along this order the total size
grows, stands still only if no set changes, and is bounded by the number of keys times the number
of possible members. FIRST of a string of symbols is a recurrence on a family, monotone in it.
-/

namespace GrammarLab

namespace SymbolSet

variable {s t : SymbolSet}

theorem size_le_of_subset (h : ∀ y ∈ s, y ∈ t) : s.size ≤ t.size :=
  (s.nodup.subperm h).length_le

theorem mem_of_size_le (h : ∀ y ∈ s, y ∈ t) (hsize : t.size ≤ s.size) {y : Symbol} (hy : y ∈ t) :
    y ∈ s := by
  have hperm := (s.nodup.subperm h).perm_of_length_le hsize
  exact hperm.mem_iff.mpr hy

end SymbolSet

namespace Family

variable {f h : Family} {xs : List Symbol}

def Over (xs : List Symbol) (f : Family) : Prop := f.entries.map Prod.fst = xs

def Le (f h : Family) : Prop := ∀ x y, y ∈ f.get x → y ∈ h.get x

theorem Le.refl (f : Family) : f.Le f := fun _ _ hy => hy

theorem Le.trans {f h k : Family} (a : f.Le h) (b : h.Le k) : f.Le k :=
  fun x y hy => b x y (a x y hy)

theorem le_add (f : Family) (x : Symbol) (s : SymbolSet) : f.Le (f.add x s) :=
  fun _ _ hy => mem_get_add.mpr (Or.inl hy)

theorem over_blank (xs : List Symbol) : (blank xs).Over xs := by
  simp [Over, blank, Function.comp_def]

theorem get?_isSome_iff {x : Symbol} : (f.get? x).isSome ↔ x ∈ f.entries.map Prod.fst := by
  rw [← not_iff_not, Bool.not_eq_true, Option.isSome_eq_false_iff, Option.isNone_iff_eq_none]
  exact Assoc.lookup_eq_none

theorem Over.get?_eq (hf : f.Over xs) {x : Symbol} (hx : x ∈ xs) :
    f.get? x = some (f.get x) := by
  have hsome := get?_isSome_iff.mpr (hf.symm ▸ hx : x ∈ f.entries.map Prod.fst)
  obtain ⟨found, hfound⟩ := Option.isSome_iff_exists.mp hsome
  rw [get, hfound, Option.getD_some]

theorem not_mem_get {x : Symbol} (h : f.get? x = none) (y : Symbol) : y ∉ f.get x := by
  rw [get, h]
  exact SymbolSet.not_mem_empty y

theorem not_mem_get_nothing (x y : Symbol) : y ∉ get {} x := not_mem_get rfl y

theorem nothing_le (f : Family) : Le {} f :=
  fun x y hy => absurd hy (not_mem_get_nothing x y)

theorem Over.get?_eq_none (hf : f.Over xs) {x : Symbol} (hx : x ∉ xs) : f.get? x = none := by
  rw [← Option.not_isSome_iff_eq_none, get?_isSome_iff, show f.entries.map Prod.fst = xs from hf]
  exact hx

theorem Over.mem_of_mem_get (hf : f.Over xs) {x y : Symbol} (hy : y ∈ f.get x) : x ∈ xs := by
  by_contra hx
  exact not_mem_get (hf.get?_eq_none hx) y hy

theorem Over.add (hf : f.Over xs) {x : Symbol} (hx : x ∈ xs) (s : SymbolSet) :
    (f.add x s).Over xs := by
  have hkey : x ∈ f.entries.map Prod.fst := hf.symm ▸ hx
  show (Assoc.put x _ f.entries).map Prod.fst = xs
  rw [Assoc.keys_put, if_pos hkey]
  exact hf

theorem not_mem_get_blank (x y : Symbol) : y ∉ (blank xs).get x := by
  unfold get get? blank
  induction xs with
  | nil => exact SymbolSet.not_mem_empty y
  | cons z rest ih =>
    rw [List.map_cons, List.lookup_cons]
    split
    · exact SymbolSet.not_mem_empty y
    · exact ih

theorem Over.totalSize_eq (hf : f.Over xs) (hn : xs.Nodup) :
    f.totalSize = (xs.map fun x => (f.get x).size).sum := by
  subst hf
  obtain ⟨es⟩ := f
  induction es with
  | nil => rfl
  | cons e rest ih =>
    obtain ⟨z, s⟩ := e
    obtain ⟨hfirst, hrest⟩ := List.nodup_cons.mp hn
    have hhead : (Family.get ⟨(z, s) :: rest⟩ z).size = s.size := by simp [get, get?]
    have htail : ∀ x ∈ rest.map Prod.fst,
        (Family.get ⟨(z, s) :: rest⟩ x).size = (Family.get ⟨rest⟩ x).size := by
      intro x hx
      have hne : (x == z) = false := beq_false_of_ne fun heq => hfirst (heq ▸ hx)
      simp [get, get?, List.lookup_cons, hne]
    rw [List.map_cons, List.map_cons, List.sum_cons, hhead, List.map_congr_left htail, ← ih hrest]
    rfl

theorem totalSize_le (hf : f.Over xs) (hh : h.Over xs) (hn : xs.Nodup) (hle : f.Le h) :
    f.totalSize ≤ h.totalSize := by
  rw [hf.totalSize_eq hn, hh.totalSize_eq hn]
  exact List.sum_le_sum fun x _ => SymbolSet.size_le_of_subset (hle x)

/-- Where the total size stands still, no set has changed. -/
theorem le_of_totalSize_eq (hf : f.Over xs) (hh : h.Over xs) (hn : xs.Nodup) (hle : f.Le h)
    (hsize : h.totalSize = f.totalSize) : h.Le f := by
  intro x y hy
  by_contra hnot
  have hgrows : ∀ z ∈ xs, (f.get z).size ≤ (h.get z).size :=
    fun z _ => SymbolSet.size_le_of_subset (hle z)
  have hstrict : (f.get x).size < (h.get x).size := by
    by_contra hlt
    exact hnot (SymbolSet.mem_of_size_le (hle x) (by omega) hy)
  have hsum := List.sum_lt_sum _ _ hgrows ⟨x, hh.mem_of_mem_get hy, hstrict⟩
  rw [← hf.totalSize_eq hn, ← hh.totalSize_eq hn] at hsum
  omega

theorem totalSize_bound (hf : f.Over xs) (hn : xs.Nodup) {members : List Symbol}
    (hm : ∀ x y, y ∈ f.get x → y ∈ members) : f.totalSize ≤ xs.length * members.length := by
  rw [hf.totalSize_eq hn]
  have heach : ∀ n ∈ xs.map fun x => (f.get x).size, n ≤ members.length := by
    intro n hmem
    obtain ⟨x, -, rfl⟩ := List.mem_map.mp hmem
    exact ((f.get x).nodup.subperm fun y hy => hm x y hy).length_le
  have hsum := List.sum_le_card_nsmul _ _ heach
  rwa [List.length_map, smul_eq_mul] at hsum

/-- FIRST of a string: the members of each FIRST set as long as all symbols before can be empty,
and the empty symbol if all can. -/
def firstOf (f : Family) (empty : Symbol) : List Symbol → SymbolSet
  | [] => .singleton empty
  | x :: rest =>
    if empty ∈ f.get x then ((f.get x).erase empty).union (f.firstOf empty rest) else f.get x

variable {empty : Symbol}

@[simp] theorem mem_firstOf_nil {y : Symbol} : y ∈ f.firstOf empty [] ↔ y = empty :=
  SymbolSet.mem_singleton

theorem mem_firstOf_cons {x y : Symbol} {rest : List Symbol} :
    y ∈ f.firstOf empty (x :: rest) ↔
      (y ∈ f.get x ∧ y ≠ empty) ∨ (empty ∈ f.get x ∧ y ∈ f.firstOf empty rest) := by
  rw [firstOf]
  split
  · next he => simp [he]
  · next he =>
    have hne : y ∈ f.get x → y ≠ empty := fun hy e => he (e ▸ hy)
    constructor
    · exact fun hy => Or.inl ⟨hy, hne hy⟩
    · rintro (⟨hy, -⟩ | ⟨hx, -⟩)
      · exact hy
      · exact absurd hx he

@[simp] theorem mem_firstOf_singleton {x y : Symbol} :
    y ∈ f.firstOf empty [x] ↔ y ∈ f.get x := by
  rw [mem_firstOf_cons, mem_firstOf_nil]
  constructor
  · rintro (⟨hy, -⟩ | ⟨hx, rfl⟩)
    · exact hy
    · exact hx
  · intro hy
    by_cases he : y = empty
    · exact Or.inr ⟨he ▸ hy, he⟩
    · exact Or.inl ⟨hy, he⟩

theorem mem_firstOf_append {y : Symbol} {us vs : List Symbol} :
    y ∈ f.firstOf empty (us ++ vs) ↔
      (y ∈ f.firstOf empty us ∧ y ≠ empty) ∨
        (empty ∈ f.firstOf empty us ∧ y ∈ f.firstOf empty vs) := by
  induction us with
  | nil => simp
  | cons x rest ih =>
    rw [List.cons_append, mem_firstOf_cons, mem_firstOf_cons, mem_firstOf_cons, ih]
    tauto

theorem firstOf_mono (hle : f.Le h) {y : Symbol} {us : List Symbol}
    (hy : y ∈ f.firstOf empty us) : y ∈ h.firstOf empty us := by
  induction us with
  | nil => exact hy
  | cons x rest ih =>
    rw [mem_firstOf_cons] at hy ⊢
    rcases hy with ⟨hx, hne⟩ | ⟨hx, hrest⟩
    · exact Or.inl ⟨hle x y hx, hne⟩
    · exact Or.inr ⟨hle x empty hx, ih hrest⟩

end Family

end GrammarLab
