import GrammarLab.Analysis

/-!
# Sessions

A session keeps the analysis of the grammar loaded last and the trace of the last failed parse
since then. A load that fails changes nothing. A parse changes the remembered trace only, never
the analysis.
-/

namespace GrammarLab

structure Session where
  analysis : Analysis
  lastPartial : Trace := []
  deriving DecidableEq, Repr

namespace Session

def start (config : GrammarConfig) (text : String) : Except LoadError Session :=
  (Analysis.load config text).map fun a => { analysis := a }

def load (s : Session) (text : String) : Except LoadError Grammar × Session :=
  match Analysis.load s.analysis.config text with
  | .ok a => (.ok a.grammar, { analysis := a })
  | .error e => (.error e, s)

def parse (limit : Nat) (s : Session) (input : String) :
    Option (Except ParseError Trace × Session) :=
  (s.analysis.parser.parse limit input).map fun r =>
    (r, { s with lastPartial := Parser.remember s.lastPartial r })

inductive Command where
  | load (text : String)
  | parse (input : String)
  deriving DecidableEq, Repr

inductive Answer where
  | loaded (result : Except LoadError Grammar)
  | parsed (result : Except ParseError Trace)
  deriving Repr

def run (limit : Nat) (s : Session) : Command → Option (Answer × Session)
  | .load text =>
    let (r, s) := s.load text
    some (.loaded r, s)
  | .parse input => (s.parse limit input).map fun (r, s) => (.parsed r, s)

/-- Answers of a list of commands and the session reached, if every parse ends in time. -/
def runAll (limit : Nat) (s : Session) : List Command → Option (List Answer × Session)
  | [] => some ([], s)
  | c :: rest => do
    let (a, s) ← s.run limit c
    let (as, s) ← s.runAll limit rest
    pure (a :: as, s)

end Session

end GrammarLab
