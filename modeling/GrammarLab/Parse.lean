import GrammarLab.Config
import GrammarLab.Parse.Machine

/-!
# Parsing an input text

Input must end with the end marker. Its characters are numbered in a copy of the grammar's symbol
table, new ones as terminals; a start symbol the grammar lacks is numbered after them. A parser
remembers the trace of its last failed run; a missing end marker leaves that memory alone.
-/

namespace GrammarLab

inductive ParseError where
  | missingEndMarker (marker : String)
  | undefinedNonterminal (s lookahead : Symbol) (trace : Trace)
  | noProduction (s lookahead : Symbol) (trace : Trace)
  deriving DecidableEq, Repr

namespace ParseError

def message : ParseError → String
  | .missingEndMarker marker => "Input string must end with '" ++ marker ++ "'"
  | .undefinedNonterminal s _ _ => "Undefined nonterminal '" ++ s.text ++ "'"
  | .noProduction s a _ => "Cannot derive '" ++ a.text ++ "' from '" ++ s.text ++ "'"

def trace : ParseError → Trace
  | .missingEndMarker _ => []
  | .undefinedNonterminal _ _ t => t
  | .noProduction _ _ t => t

end ParseError

def Run.result (r : Run) : Except ParseError Trace :=
  match r.verdict with
  | .accepted => .ok r.trace
  | .rejected (.undefined s a) => .error (.undefinedNonterminal s a r.trace)
  | .rejected (.noEntry s a) => .error (.noProduction s a r.trace)

structure Parser where
  grammar : Grammar
  table : ParsingTable
  startText : String
  deriving DecidableEq, Repr

namespace Parser

/-- The symbols of an input and the start symbol it is parsed from. -/
def prepare (p : Parser) (input : List Char) : List Symbol × Symbol :=
  let (xs, table) := p.grammar.symbols.internAll .terminal (input.map String.singleton)
  (xs, p.grammar.start.getD (table.intern p.startText .variable).1)

def initial (p : Parser) (input : List Char) : Configuration :=
  ⟨[(p.prepare input).2], (p.prepare input).1⟩

def EndsWithMarker (p : Parser) (input : List Char) : Prop :=
  p.grammar.endMarker.text.toList <:+ input

instance (p : Parser) (input : List Char) : Decidable (p.EndsWithMarker input) :=
  inferInstanceAs (Decidable (_ <:+ _))

/-- The outcome of parsing, if it is reached within the given number of moves. -/
def parse (p : Parser) (limit : Nat) (input : String) : Option (Except ParseError Trace) :=
  if p.EndsWithMarker input.toList then
    (p.table.run p.grammar.endMarker limit (p.initial input.toList)).map Run.result
  else
    some (.error (.missingEndMarker p.grammar.endMarker.text))

theorem parse_mono (p : Parser) {limit more : Nat} (h : limit ≤ more) {input : String}
    {r : Except ParseError Trace} (hr : p.parse limit input = some r) :
    p.parse more input = some r := by
  unfold parse at hr ⊢
  split
  · next he =>
    rw [if_pos he, Option.map_eq_some_iff] at hr
    obtain ⟨run, hrun, rfl⟩ := hr
    rw [p.table.run_mono _ h hrun]
    rfl
  · next he => rwa [if_neg he] at hr

/-- The remembered trace after a parse with the given result. -/
def remember (last : Trace) : Except ParseError Trace → Trace
  | .ok _ => []
  | .error (.missingEndMarker _) => last
  | .error e => e.trace

end Parser

end GrammarLab
