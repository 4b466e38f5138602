import GrammarLab.Grammar

/-!
# Traces of predictive parsing

A step shows the stack, top first and end marker last, the input that remains, and what was done:
a terminal is matched, a symbol is replaced by a candidate, the input is accepted, or the parser is
stuck. Rows number the steps of a trace from one.
-/

namespace GrammarLab

inductive Action where
  | consume (s : Symbol)
  | derive (s : Symbol) (c : Candidate)
  | accept
  | stuck (s lookahead : Symbol)
  deriving DecidableEq, Repr

def Action.kind : Action → String
  | .consume _ => "match"
  | .derive _ _ => "derive"
  | .accept => "success"
  | .stuck _ _ => "stuck"

def Action.text (display : String) : Action → String
  | .consume s => "match '" ++ s.text ++ "'"
  | .derive s c => Production.rule s (Candidate.render display c)
  | .accept => "accept"
  | .stuck s a => "error: no entry for [" ++ s.text ++ ", " ++ a.text ++ "]"

structure Step where
  stack : List Symbol
  remaining : List Symbol
  action : Action
  deriving DecidableEq, Repr

abbrev Trace := List Step

/-- A step as it is shown. -/
structure Row where
  number : Nat
  kind : String
  stack : String
  remaining : String
  action : String
  deriving DecidableEq, Repr

def Step.row (display : String) (number : Nat) (s : Step) : Row :=
  { number
    kind := s.action.kind
    stack := Candidate.render display s.stack
    remaining := Candidate.render display s.remaining
    action := s.action.text display }

def Trace.rows (display : String) (t : Trace) : List Row :=
  (t.zipIdx 1).map fun (s, n) => s.row display n

theorem Trace.length_rows (display : String) (t : Trace) : (rows display t).length = t.length := by
  simp [rows]

end GrammarLab
