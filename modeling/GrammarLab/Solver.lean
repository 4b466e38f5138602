import GrammarLab.Assoc
import GrammarLab.Grammar

/-!
# State of the FIRST and FOLLOW solver

The solver keeps the marks of the current pass, a FIRST family, a FOLLOW family and the FIRST sets
of symbol strings already answered. A family knows only the symbols that were entered, so a marked
symbol may lack an entry; reading it then is a fault. A faulty computation keeps what it had done.
-/

namespace GrammarLab

/-- Sets by symbol, in the order the symbols were entered. -/
structure Family where
  entries : List (Symbol × SymbolSet) := []
  deriving DecidableEq, Repr

namespace Family

def get? (f : Family) (x : Symbol) : Option SymbolSet := f.entries.lookup x

/-- A symbol without an entry has the empty set. -/
def get (f : Family) (x : Symbol) : SymbolSet := (f.get? x).getD ∅

/-- Enlarges the set of a symbol, entering the symbol first if need be. -/
def add (f : Family) (x : Symbol) (s : SymbolSet) : Family :=
  ⟨Assoc.put x ((f.get x).union s) f.entries⟩

def blank (xs : List Symbol) : Family := ⟨xs.map fun x => (x, ∅)⟩

def totalSize (f : Family) : Nat := f.entries.foldr (fun e n => e.2.size + n) 0

theorem get?_add (f : Family) (x y : Symbol) (s : SymbolSet) :
    (f.add x s).get? y = if y = x then some ((f.get x).union s) else f.get? y :=
  Assoc.lookup_put x y _ f.entries

theorem mem_get_add {f : Family} {x y z : Symbol} {s : SymbolSet} :
    z ∈ (f.add x s).get y ↔ z ∈ f.get y ∨ (y = x ∧ z ∈ s) := by
  unfold get
  rw [get?_add]
  by_cases h : y = x
  · subst h
    simp [get]
  · simp [h]

end Family

namespace Solver

structure State where
  marked : List Symbol := []
  first : Family := {}
  follow : Family := {}
  known : List (Candidate × SymbolSet) := []
  deriving DecidableEq, Repr

/-- A symbol whose FIRST set was read although it has none. -/
structure Fault where
  symbol : Symbol
  deriving DecidableEq, Repr

def Fault.message (f : Fault) : String := "No FIRST set for '" ++ f.symbol.text ++ "'"

abbrev Compute := EStateM Fault State

/-- Only unmarked symbols are marked, so the marks list the expansions of a pass, latest first. -/
def mark (x : Symbol) : Compute Unit := modify fun s => { s with marked := x :: s.marked }

def addFirst (x : Symbol) (found : SymbolSet) : Compute Unit :=
  modify fun s => { s with first := s.first.add x found }

def addFollow (x : Symbol) (found : SymbolSet) : Compute Unit :=
  modify fun s => { s with follow := s.follow.add x found }

def recordedFirst (x : Symbol) : Compute SymbolSet := do
  match (← get).first.get? x with
  | some found => pure found
  | none => throw ⟨x⟩

/-- Marks are forgotten at the start of a pass. -/
def clearMarks : Compute Unit := modify fun s => { s with marked := [] }

/-- Repeats a pass until the measured size stands still, at most the given number of times. -/
def untilStable (size : State → Nat) (pass : Compute Unit) : Nat → Compute Unit
  | 0 => pure ()
  | limit + 1 => do
    let before := size (← get)
    pass
    let after := size (← get)
    if after = before then pure () else untilStable size pass limit

/-- Every growing pass adds a symbol to one of at most `n` sets of at most `n` symbols, and one
more pass sees that nothing grows. -/
def passLimit (g : Grammar) : Nat := g.symbols.size * g.symbols.size + 1

/-- Every nested expansion marks one more left symbol. -/
def depthLimit (g : Grammar) : Nat := g.productions.length + 1

theorem length_nonTerminals_lt_depthLimit (g : Grammar) : g.nonTerminals.length < depthLimit g := by
  rw [Grammar.nonTerminals, List.length_map]
  exact Nat.lt_succ_self _

end Solver

end GrammarLab
