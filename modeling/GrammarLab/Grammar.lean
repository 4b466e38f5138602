import GrammarLab.Symbol.Set
import GrammarLab.Symbol.Table

/-!
# Grammars

A production gathers all alternatives of one left symbol, in the order written. A grammar is a list
of productions with distinct left symbols, the symbol table that numbered their characters, the
terminals seen in alternatives and the three marker symbols. The start symbol may be missing.
Raw text writes each symbol as its own text; rendered text writes symbols of the empty kind as a
display text.
-/

namespace GrammarLab

abbrev Candidate := List Symbol

namespace Candidate

def raw (c : Candidate) : String := String.join (c.map Symbol.text)

def render (display : String) (c : Candidate) : String :=
  String.join (c.map fun s => if s.IsEmpty then display else s.text)

/-- The symbols that a candidate puts on a stack: those of the empty kind vanish. -/
def body (c : Candidate) : List Symbol := c.filter fun s => ¬s.IsEmpty

theorem mem_body {c : Candidate} {s : Symbol} : s ∈ body c ↔ s ∈ c ∧ ¬s.IsEmpty := by
  simp [body]

end Candidate

structure Production where
  left : Symbol
  candidates : List Candidate
  deriving DecidableEq, Repr

namespace Production

/-- One candidate written as a rule. -/
def rule (left : Symbol) (candidate : String) : String := left.text ++ "->" ++ candidate

def raw (p : Production) : String := rule p.left ("|".intercalate (p.candidates.map Candidate.raw))

def render (display : String) (p : Production) : String :=
  rule p.left ("|".intercalate (p.candidates.map (Candidate.render display)))

end Production

structure Grammar where
  productions : List Production
  terminals : SymbolSet
  symbols : SymbolTable
  empty : Symbol
  endMarker : Symbol
  start : Option Symbol
  deriving DecidableEq, Repr

namespace Grammar

def productionFor (g : Grammar) (x : Symbol) : Option Production :=
  g.productions.find? fun p => p.left = x

def nonTerminals (g : Grammar) : List Symbol := g.productions.map Production.left

theorem productionFor_eq_none_iff {g : Grammar} {x : Symbol} :
    g.productionFor x = none ↔ x ∉ g.nonTerminals := by
  simp only [productionFor, nonTerminals, List.find?_eq_none, decide_eq_true_eq, List.mem_map]
  exact ⟨fun h ⟨p, hp, e⟩ => h p hp e, fun h p hp e => h ⟨p, hp, e⟩⟩

theorem mem_of_productionFor {g : Grammar} {x : Symbol} {p : Production}
    (h : g.productionFor x = some p) : p ∈ g.productions ∧ p.left = x :=
  ⟨List.mem_of_find?_eq_some h, by simpa using List.find?_some h⟩

end Grammar

end GrammarLab
