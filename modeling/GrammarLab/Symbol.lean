/-!
# Grammar symbols

A symbol is a text that a symbol table has numbered, together with the kind it was given at its
first sight. Within one table the index alone identifies a symbol. The display order lists symbols
by index, those of the empty kind last.
-/

namespace GrammarLab

inductive Kind where
  | empty
  | variable
  | terminal
  deriving DecidableEq, Repr

structure Symbol where
  index : Nat
  text : String
  kind : Kind
  deriving DecidableEq, Repr

def Symbol.IsEmpty (s : Symbol) : Prop := s.kind = .empty
instance (s : Symbol) : Decidable s.IsEmpty := inferInstanceAs (Decidable (_ = _))

def Symbol.IsVariable (s : Symbol) : Prop := s.kind = .variable
instance (s : Symbol) : Decidable s.IsVariable := inferInstanceAs (Decidable (_ = _))

def Symbol.IsTerminal (s : Symbol) : Prop := s.kind = .terminal
instance (s : Symbol) : Decidable s.IsTerminal := inferInstanceAs (Decidable (_ = _))

/-- Identity by index, which is how symbols of different tables are compared. -/
def Symbol.SameIndex (a b : Symbol) : Prop := a.index = b.index
instance (a b : Symbol) : Decidable (a.SameIndex b) := inferInstanceAs (Decidable (_ = _))

/-- Display order: indices ascend, and symbols of the empty kind come last. -/
def Symbol.Before (a b : Symbol) : Prop :=
  (¬a.IsEmpty ∧ b.IsEmpty) ∨ ((a.IsEmpty ↔ b.IsEmpty) ∧ a.index ≤ b.index)
instance (a b : Symbol) : Decidable (a.Before b) := inferInstanceAs (Decidable (_ ∨ _))

theorem Symbol.before_total (a b : Symbol) : a.Before b ∨ b.Before a := by
  unfold Symbol.Before
  by_cases ha : a.IsEmpty <;> by_cases hb : b.IsEmpty <;> simp [ha, hb] <;> omega

theorem Symbol.Before.trans {a b c : Symbol} (h : a.Before b) (k : b.Before c) : a.Before c := by
  unfold Symbol.Before at *
  by_cases ha : a.IsEmpty <;> by_cases hb : b.IsEmpty <;> by_cases hc : c.IsEmpty <;>
    simp_all <;> omega

/-- Places a symbol into a list kept in display order. -/
def Symbol.place (x : Symbol) : List Symbol → List Symbol
  | [] => [x]
  | y :: rest => if x.Before y then x :: y :: rest else y :: x.place rest

def Symbol.inOrder (xs : List Symbol) : List Symbol := xs.foldr Symbol.place []

@[simp] theorem Symbol.mem_place {x y : Symbol} {xs : List Symbol} :
    y ∈ x.place xs ↔ y = x ∨ y ∈ xs := by
  induction xs with
  | nil => simp [Symbol.place]
  | cons z rest ih =>
    unfold Symbol.place
    split
    · simp
    · simp [ih, or_left_comm]

@[simp] theorem Symbol.mem_inOrder {y : Symbol} {xs : List Symbol} :
    y ∈ Symbol.inOrder xs ↔ y ∈ xs := by
  induction xs with
  | nil => simp [Symbol.inOrder]
  | cons z rest ih =>
    have step : Symbol.inOrder (z :: rest) = z.place (Symbol.inOrder rest) := rfl
    rw [step, Symbol.mem_place, ih, List.mem_cons]

theorem Symbol.pairwise_place {x : Symbol} {xs : List Symbol}
    (h : xs.Pairwise Symbol.Before) : (x.place xs).Pairwise Symbol.Before := by
  induction xs with
  | nil => simp [Symbol.place]
  | cons y rest ih =>
    obtain ⟨hy, hrest⟩ := List.pairwise_cons.mp h
    unfold Symbol.place
    split
    · next hxy =>
      refine List.pairwise_cons.mpr ⟨fun z hz => ?_, h⟩
      rcases List.mem_cons.mp hz with rfl | hz
      · exact hxy
      · exact hxy.trans (hy z hz)
    · next hxy =>
      refine List.pairwise_cons.mpr ⟨fun z hz => ?_, ih hrest⟩
      rcases Symbol.mem_place.mp hz with rfl | hz
      · exact (Symbol.before_total z y).resolve_left hxy
      · exact hy z hz

theorem Symbol.pairwise_inOrder (xs : List Symbol) :
    (Symbol.inOrder xs).Pairwise Symbol.Before := by
  induction xs with
  | nil => exact List.Pairwise.nil
  | cons x rest ih => exact Symbol.pairwise_place ih

end GrammarLab
