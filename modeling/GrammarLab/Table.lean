import GrammarLab.Solver.Follow

/-!
# Predictive parsing tables

A candidate of `X` is entered under every lookahead in its FIRST set and, where it can be empty,
under every lookahead in FOLLOW of `X`. Entries are written in order, a later one replacing an
earlier one of the same cell; each replacement by a different candidate is kept as a conflict.
Every left symbol has a row, even an empty one.
-/

namespace GrammarLab

structure Conflict where
  left : Symbol
  lookahead : Symbol
  replaced : Candidate
  replacement : Candidate
  deriving DecidableEq, Repr

def Conflict.message (c : Conflict) : String :=
  "LL(1) conflict at [" ++ c.left.text ++ ", " ++ c.lookahead.text ++ "]: '" ++
    Production.rule c.left c.replaced.raw ++ "' replaced by '" ++
    Production.rule c.left c.replacement.raw ++ "'"

structure Entry where
  left : Symbol
  lookahead : Symbol
  candidate : Candidate
  deriving DecidableEq, Repr

structure TableRow where
  left : Symbol
  cells : List (Symbol × Candidate) := []
  deriving DecidableEq, Repr

namespace TableRow

def cell (r : TableRow) (a : Symbol) : Option Candidate := r.cells.lookup a

def set (r : TableRow) (a : Symbol) (c : Candidate) : TableRow :=
  { r with cells := Assoc.put a c r.cells }

def lookaheads (r : TableRow) : List Symbol := Symbol.inOrder (r.cells.map Prod.fst)

/-- Lookaheads in display order, each with its candidate. -/
def listing (r : TableRow) : List (Symbol × Candidate) :=
  r.lookaheads.filterMap fun a => (r.cell a).map fun c => (a, c)

@[simp] theorem left_set (r : TableRow) (a : Symbol) (c : Candidate) : (r.set a c).left = r.left :=
  rfl

theorem cell_set (r : TableRow) (a b : Symbol) (c : Candidate) :
    (r.set a c).cell b = if b = a then some c else r.cell b :=
  Assoc.lookup_put a b c r.cells

end TableRow

structure ParsingTable where
  rows : List TableRow
  conflicts : List Conflict := []
  deriving DecidableEq, Repr

namespace ParsingTable

def row (t : ParsingTable) (x : Symbol) : Option TableRow := t.rows.find? fun r => r.left = x

def lookup (t : ParsingTable) (x a : Symbol) : Option Candidate := (t.row x).bind (·.cell a)

def blank (lefts : List Symbol) : ParsingTable := { rows := lefts.map fun x => { left := x } }

def setCell (e : Entry) (r : TableRow) : TableRow :=
  if r.left = e.left then r.set e.lookahead e.candidate else r

def write (t : ParsingTable) (e : Entry) : ParsingTable :=
  { rows := t.rows.map (setCell e)
    conflicts := match t.lookup e.left e.lookahead with
      | none => t.conflicts
      | some old =>
        if old = e.candidate then t.conflicts
        else t.conflicts ++ [⟨e.left, e.lookahead, old, e.candidate⟩] }

def ofEntries (lefts : List Symbol) (es : List Entry) : ParsingTable := es.foldl write (blank lefts)

/-- The listing of the table as text, one cell on a line. -/
def text (t : ParsingTable) : String :=
  "\n".intercalate ("Parsing Table:" :: t.rows.flatMap fun r => r.listing.map fun (a, c) =>
    "  M[" ++ r.left.text ++ ", " ++ a.text ++ "] = " ++ Production.rule r.left c.raw)

end ParsingTable

namespace Solver

/-- Lookaheads under which a candidate of `left` is entered, in the order of writing. -/
def lookaheads (g : Grammar) (left : Symbol) (c : Candidate) : Compute (List Symbol) := do
  let found ← firstOfString g c
  let direct := found.inOrder.filter fun a => ¬a.IsEmpty
  if g.empty ∈ found then
    let follow ← getFollow left
    pure (direct ++ follow.inOrder)
  else
    pure direct

def candidateEntries (g : Grammar) (left : Symbol) : List Candidate → Compute (List Entry)
  | [] => pure []
  | c :: rest => do
    let here ← lookaheads g left c
    let later ← candidateEntries g left rest
    pure (here.map (fun a => ⟨left, a, c⟩) ++ later)

def productionEntries (g : Grammar) : List Production → Compute (List Entry)
  | [] => pure []
  | p :: rest => do
    let here ← candidateEntries g p.left p.candidates
    let later ← productionEntries g rest
    pure (here ++ later)

def buildTable (g : Grammar) : Compute ParsingTable := do
  let es ← productionEntries g g.productions
  pure (.ofEntries g.nonTerminals es)

end Solver

end GrammarLab
