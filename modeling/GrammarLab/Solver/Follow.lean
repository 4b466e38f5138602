import GrammarLab.Solver.First

/-!
# FOLLOW sets by guarded expansion

Every occurrence of a left symbol in a candidate contributes what may come after it: the FIRST set
of the rest of the candidate, and the FOLLOW set of the candidate's left symbol where that rest can
be empty. With one pass only, the rest is judged by its next symbol alone. Marks are shared with
the FIRST expansion.
-/

namespace GrammarLab.Solver

/-- Expands `left` and adds its FOLLOW set to that of `x`. -/
def inheritFollow (expand : Symbol → Compute Unit) (x left : Symbol) : Compute Unit := do
  expand left
  addFollow x ((← get).follow.get left)

/-- Contribution of an occurrence of `x` with the rest of its candidate. -/
def absorbRest (g : Grammar) (fixpoint : Bool) (expand : Symbol → Compute Unit) (x left : Symbol)
    (rest : List Symbol) : Compute Unit :=
  match rest with
  | [] => inheritFollow expand x left
  | next :: _ =>
    if next.IsTerminal then addFollow x (.singleton next) else do
      let found ← if fixpoint then firstOfString g rest else getFirst g next
      addFollow x (found.erase g.empty)
      if g.empty ∈ found then inheritFollow expand x left else pure ()

/-- Contributions of all occurrences of `x` in a candidate of `left`. -/
def absorbFollow (g : Grammar) (fixpoint : Bool) (expand : Symbol → Compute Unit)
    (x left : Symbol) : Candidate → Compute Unit
  | [] => pure ()
  | item :: rest => do
    if item = x then absorbRest g fixpoint expand x left rest else pure ()
    absorbFollow g fixpoint expand x left rest

/-- Expands a symbol unless it is marked; the number bounds the nesting. -/
def expandFollow (g : Grammar) (fixpoint : Bool) : Nat → Symbol → Compute Unit
  | 0, _ => pure ()
  | depth + 1, x => do
    if x ∈ (← get).marked then pure () else
    mark x
    addFollow x (if g.start = some x then .singleton g.endMarker else ∅)
    g.productions.forM fun p => p.candidates.forM fun c =>
      absorbFollow g fixpoint (expandFollow g fixpoint depth) x p.left c

def followPass (g : Grammar) (fixpoint : Bool) : Compute Unit := do
  clearMarks
  g.productions.forM fun p => expandFollow g fixpoint (depthLimit g) p.left

def resetFollow (g : Grammar) : Compute Unit :=
  modify fun s => { s with follow := .blank g.nonTerminals }

/-- Computes the FOLLOW sets of all left symbols anew. -/
def computeFollow (g : Grammar) (fixpoint : Bool) : Compute Unit := do
  resetFollow g
  if fixpoint then untilStable (·.follow.totalSize) (followPass g fixpoint) (passLimit g)
  else followPass g fixpoint

/-- A symbol that is no left symbol has the empty set. -/
def getFollow (x : Symbol) : Compute SymbolSet := do
  return (← get).follow.get x

end GrammarLab.Solver
