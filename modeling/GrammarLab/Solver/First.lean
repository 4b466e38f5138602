import GrammarLab.Solver

/-!
# FIRST sets by guarded expansion

A symbol is marked before its candidates are read, so a cyclic grammar meets the partial set of a
symbol still being expanded. One pass expands every symbol of the grammar once; repeated passes
reach the least solution. FIRST of a string of symbols looks past symbols that can be empty, and
its answers are remembered until the sets are computed anew.
-/

namespace GrammarLab.Solver

/-- Adds to the set of `x` what a candidate can begin with. -/
def absorbFirst (g : Grammar) (expand : Symbol → Compute Unit) (x : Symbol) :
    Candidate → Compute Unit
  | [] => addFirst x (.singleton g.empty)
  | item :: rest => do
    expand item
    let found ← recordedFirst item
    if g.empty ∈ found then
      addFirst x (found.erase g.empty)
      absorbFirst g expand x rest
    else
      addFirst x found

/-- Expands a symbol unless it is marked; the number bounds the nesting. -/
def expandFirst (g : Grammar) : Nat → Symbol → Compute Unit
  | 0, _ => pure ()
  | depth + 1, x => do
    if x ∈ (← get).marked then pure () else
    mark x
    addFirst x ∅
    if ¬x.IsVariable then addFirst x (.singleton x) else
    match g.productionFor x with
    | none => pure ()
    | some p => p.candidates.forM (absorbFirst g (expandFirst g depth) x)

/-- The recorded FIRST set, after one expansion if there is none. -/
def getFirst (g : Grammar) (x : Symbol) : Compute SymbolSet := do
  match (← get).first.get? x with
  | some found => pure found
  | none =>
    expandFirst g (depthLimit g) x
    recordedFirst x

/-- FIRST of a string by its recurrence, without remembered answers for the string itself. -/
def collectFirst (g : Grammar) : List Symbol → Compute SymbolSet
  | [] => pure (.singleton g.empty)
  | x :: rest => do
    let found ← getFirst g x
    if g.empty ∈ found then
      let tail ← collectFirst g rest
      pure ((found.erase g.empty).union tail)
    else
      pure found

def firstOfString (g : Grammar) (xs : List Symbol) : Compute SymbolSet := do
  match (← get).known.lookup xs with
  | some found => pure found
  | none =>
    let found ← collectFirst g xs
    modify fun s => { s with known := (xs, found) :: s.known }
    pure found

def firstPass (g : Grammar) : Compute Unit := do
  clearMarks
  g.productions.forM fun p => expandFirst g (depthLimit g) p.left
  g.symbols.symbols.forM (expandFirst g (depthLimit g))

def resetFirst (g : Grammar) : Compute Unit :=
  modify fun s => { s with first := .blank g.symbols.symbols, known := [] }

/-- Computes all FIRST sets anew and remembers those of all candidates. -/
def computeFirst (g : Grammar) (fixpoint : Bool) : Compute Unit := do
  resetFirst g
  if fixpoint then untilStable (·.first.totalSize) (firstPass g) (passLimit g) else firstPass g
  g.productions.forM fun p => p.candidates.forM fun c => discard (firstOfString g c)

end GrammarLab.Solver
