import GrammarLab.Grammar.Reader
import GrammarLab.Parse

/-!
# Analysis of a grammar text

An analysis holds a grammar with its solved FIRST and FOLLOW sets and its parsing table. Loading
fails on a malformed line; a fault of the solver would be reported as such. The summary lists all
artefacts as text, with the empty string under its display text.
-/

namespace GrammarLab

/-- Computes FIRST, FOLLOW and the table, in this order. -/
def Solver.solve (g : Grammar) (fixpoint : Bool) : Solver.Compute ParsingTable := do
  computeFirst g fixpoint
  computeFollow g fixpoint
  buildTable g

structure Analysis where
  config : GrammarConfig
  grammar : Grammar
  sets : Solver.State
  table : ParsingTable
  deriving DecidableEq, Repr

inductive LoadError where
  | malformed (m : Malformed)
  | fault (f : Solver.Fault)
  deriving DecidableEq, Repr

def LoadError.message : LoadError → String
  | .malformed m => m.message
  | .fault f => f.message

structure ConflictText where
  left : String
  lookahead : String
  replaced : String
  replacement : String
  message : String
  deriving DecidableEq, Repr

structure Summary where
  startSymbol : String
  productions : List String
  terminals : List String
  first : List (String × List String)
  follow : List (String × List String)
  table : List (String × List (String × String))
  conflicts : List ConflictText
  deriving DecidableEq, Repr

namespace Analysis

def ofGrammar (config : GrammarConfig) (g : Grammar) (fixpoint : Bool) :
    Except Solver.Fault Analysis :=
  match (Solver.solve g fixpoint).run {} with
  | .ok table sets => .ok { config, grammar := g, sets, table }
  | .error f _ => .error f

def load (config : GrammarConfig) (text : String) : Except LoadError Analysis :=
  match Grammar.read config text with
  | .error m => .error (.malformed m)
  | .ok g => (ofGrammar config g config.fixpoint).mapError .fault

def first (a : Analysis) (x : Symbol) : SymbolSet := a.sets.first.get x

def follow (a : Analysis) (x : Symbol) : SymbolSet := a.sets.follow.get x

def parser (a : Analysis) : Parser := ⟨a.grammar, a.table, a.config.startSymbol⟩

def display (a : Analysis) : String := a.config.emptyDisplay

def rendered (a : Analysis) (left : Symbol) (c : Candidate) : String :=
  Production.rule left (c.render a.display)

def setText (a : Analysis) (s : SymbolSet) : List String :=
  s.inOrder.map fun x => if x.IsEmpty then a.display else x.text

/-- Terminals in display order, the end marker always last and only there. -/
def terminalTexts (a : Analysis) : List String :=
  (a.grammar.terminals.inOrder.filter fun x => x ≠ a.grammar.endMarker).map Symbol.text ++
    [a.grammar.endMarker.text]

def tableText (a : Analysis) : List (String × List (String × String)) :=
  a.table.rows.map fun r =>
    (r.left.text, r.listing.map fun (x, c) => (x.text, a.rendered r.left c))

def conflictTexts (a : Analysis) : List ConflictText :=
  a.table.conflicts.map fun c =>
    { left := c.left.text
      lookahead := c.lookahead.text
      replaced := a.rendered c.left c.replaced
      replacement := a.rendered c.left c.replacement
      message := c.message }

def summary (a : Analysis) : Summary :=
  { startSymbol := a.config.startSymbol
    productions := a.grammar.productions.map (Production.render a.display)
    terminals := a.terminalTexts
    first := a.grammar.nonTerminals.map fun x => (x.text, a.setText (a.first x))
    follow := a.grammar.nonTerminals.map fun x => (x.text, a.setText (a.follow x))
    table := a.tableText
    conflicts := a.conflictTexts }

end Analysis

end GrammarLab
