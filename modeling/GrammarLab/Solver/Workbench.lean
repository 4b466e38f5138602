import GrammarLab.Table

/-!
# A solver worked by single commands

A workbench holds a grammar, the solver's state with whatever has been computed so far, and the
last table built. Its commands call the solver's operations one at a time and in any order. A
command that meets a fault answers so and keeps what was done before it. Questions name symbols by
their texts, all of which must be known to the grammar's table.
-/

namespace GrammarLab.Solver

structure Workbench where
  grammar : Grammar
  fixpoint : Bool
  state : State := {}
  table : Option ParsingTable := none
  deriving DecidableEq, Repr

inductive Question where
  | firstOfString
  | first
  | follow
  | production
  | cell
  | row
  deriving DecidableEq, Repr

inductive Command where
  | intern (text : String) (kind : Kind)
  | computeFirst
  | computeFollow
  | buildTable
  | ask (q : Question) (texts : List String)
  deriving DecidableEq, Repr

inductive Answer where
  | symbol (s : Symbol)
  | sets (entries : List (Symbol × SymbolSet))
  | table (t : ParsingTable)
  | set (s : SymbolSet)
  | production (p : Option Production)
  | candidate (c : Option Candidate)
  | lookaheads (found : Option (List Symbol))
  | unknownSymbol
  | fault (f : Fault)
  deriving DecidableEq, Repr

namespace Workbench

def intern (w : Workbench) (text : String) (kind : Kind) : Symbol × Workbench :=
  let (s, symbols) := w.grammar.symbols.intern text kind
  (s, { w with grammar := { w.grammar with symbols } })

/-- Runs a computation on the state; a fault keeps the state reached. -/
def perform {α : Type} (w : Workbench) (act : Compute α) (answer : α → State → Answer) :
    Answer × Workbench :=
  match act.run w.state with
  | .ok a s => (answer a s, { w with state := s })
  | .error f s => (.fault f, { w with state := s })

def buildTable (w : Workbench) : Answer × Workbench :=
  match (Solver.buildTable w.grammar).run w.state with
  | .ok t s => (.table t, { w with state := s, table := some t })
  | .error f s => (.fault f, { w with state := s })

/-- Answers a question about known symbols. All but strings take the first of them, a cell the
first two. -/
def answer (w : Workbench) : Question → List Symbol → Answer × Workbench
  | .firstOfString, xs => w.perform (Solver.firstOfString w.grammar xs) fun found _ => .set found
  | .first, x :: _ => w.perform (getFirst w.grammar x) fun found _ => .set found
  | .follow, x :: _ => w.perform (getFollow x) fun found _ => .set found
  | .production, x :: _ => (.production (w.grammar.productionFor x), w)
  | .cell, x :: a :: _ => (.candidate (w.table.bind (·.lookup x a)), w)
  | .row, x :: _ => (.lookaheads ((w.table.bind (·.row x)).map TableRow.lookaheads), w)
  | _, _ => (.unknownSymbol, w)

def run (w : Workbench) : Command → Answer × Workbench
  | .intern text kind =>
    let (s, w) := w.intern text kind
    (.symbol s, w)
  | .computeFirst =>
    w.perform (Solver.computeFirst w.grammar w.fixpoint) fun _ s => .sets s.first.entries
  | .computeFollow =>
    w.perform (Solver.computeFollow w.grammar w.fixpoint) fun _ s => .sets s.follow.entries
  | .buildTable => w.buildTable
  | .ask q texts =>
    match texts.mapM w.grammar.symbols.lookup with
    | some xs => w.answer q xs
    | none => (.unknownSymbol, w)

def runAll (w : Workbench) : List Command → List Answer
  | [] => []
  | c :: rest =>
    let (a, w) := w.run c
    a :: w.runAll rest

end Workbench

end GrammarLab.Solver
