import GrammarLab.Symbol

/-!
# Finite sets of symbols

A set is a list without repetitions. The order of the list is an accident of how the set was
built; views use `inOrder`. Membership after each operation is stated beside the operation.
-/

namespace GrammarLab

structure SymbolSet where
  members : List Symbol
  nodup : members.Nodup
  deriving DecidableEq, Repr

namespace SymbolSet

instance : Membership Symbol SymbolSet := ⟨fun s x => x ∈ s.members⟩
instance (x : Symbol) (s : SymbolSet) : Decidable (x ∈ s) :=
  inferInstanceAs (Decidable (x ∈ s.members))

theorem mem_members {x : Symbol} {s : SymbolSet} : x ∈ s.members ↔ x ∈ s := Iff.rfl

def empty : SymbolSet := ⟨[], List.nodup_nil⟩
instance : EmptyCollection SymbolSet := ⟨empty⟩

@[simp] theorem not_mem_empty (x : Symbol) : x ∉ (∅ : SymbolSet) := List.not_mem_nil

def size (s : SymbolSet) : Nat := s.members.length

def insert (x : Symbol) (s : SymbolSet) : SymbolSet :=
  if h : x ∈ s.members then s else ⟨x :: s.members, List.nodup_cons.mpr ⟨h, s.nodup⟩⟩

@[simp] theorem mem_insert {x y : Symbol} {s : SymbolSet} : y ∈ s.insert x ↔ y = x ∨ y ∈ s := by
  unfold insert
  split
  · next h => exact ⟨Or.inr, fun hy => hy.elim (fun e => e ▸ h) id⟩
  · exact List.mem_cons

def singleton (x : Symbol) : SymbolSet := insert x ∅

@[simp] theorem mem_singleton {x y : Symbol} : y ∈ singleton x ↔ y = x := by
  simp [singleton]

def union (s t : SymbolSet) : SymbolSet := t.members.foldr insert s

@[simp] theorem mem_union {x : Symbol} {s t : SymbolSet} : x ∈ s.union t ↔ x ∈ s ∨ x ∈ t := by
  obtain ⟨ts, ht⟩ := t
  show x ∈ ts.foldr insert s ↔ x ∈ s ∨ x ∈ ts
  clear ht
  induction ts with
  | nil => simp
  | cons y rest ih => simp [ih, or_left_comm]

def erase (s : SymbolSet) (x : Symbol) : SymbolSet :=
  ⟨s.members.filter (fun y => decide (y ≠ x)), s.nodup.sublist List.filter_sublist⟩

@[simp] theorem mem_erase {x y : Symbol} {s : SymbolSet} : y ∈ s.erase x ↔ y ∈ s ∧ y ≠ x := by
  show y ∈ s.members.filter _ ↔ _
  rw [List.mem_filter, mem_members]
  simp

def inOrder (s : SymbolSet) : List Symbol := Symbol.inOrder s.members

@[simp] theorem mem_inOrder {x : Symbol} {s : SymbolSet} : x ∈ s.inOrder ↔ x ∈ s :=
  Symbol.mem_inOrder

end SymbolSet

end GrammarLab
