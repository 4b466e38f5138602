import GrammarLab.Symbol.Table

/-!
# Named symbol tables

A registry holds symbol tables by name; a name never stored stands for an empty table. Commands
work on one table at a time and give an answer. Copying stores the present value of a table under
another name, so later changes of either are not seen by the other.
-/

namespace GrammarLab

structure Registry where
  tables : List (String × SymbolTable) := []
  deriving DecidableEq, Repr

namespace Registry

def table (r : Registry) (name : String) : SymbolTable := (r.tables.lookup name).getD {}

/-- The newest value of a name stands first, and only that one is looked up. -/
def store (r : Registry) (name : String) (t : SymbolTable) : Registry := ⟨(name, t) :: r.tables⟩

@[simp] theorem table_store (r : Registry) (name other : String) (t : SymbolTable) :
    (r.store name t).table other = if other = name then t else r.table other := by
  unfold table store
  rw [List.lookup_cons]
  by_cases h : other = name
  · simp [h]
  · simp [h, beq_false_of_ne h]

inductive Command where
  | intern (text : String) (kind : Kind)
  | lookup (text : String)
  | contains (text : String)
  | kindOf (text : String)
  | reset
  | copy (target : String)
  | same (text other otherText : String)
  deriving DecidableEq, Repr

inductive Answer where
  | symbol (found : Option Symbol)
  | truth (value : Bool)
  | kind (found : Option Kind)
  | done
  deriving DecidableEq, Repr

/-- Two look-ups agree when both find symbols of one index or both find nothing. -/
def SameResult : Option Symbol → Option Symbol → Prop
  | some a, some b => a.SameIndex b
  | none, none => True
  | _, _ => False

instance : (a b : Option Symbol) → Decidable (SameResult a b)
  | some a, some b => inferInstanceAs (Decidable (a.SameIndex b))
  | none, none => inferInstanceAs (Decidable True)
  | some _, none => inferInstanceAs (Decidable False)
  | none, some _ => inferInstanceAs (Decidable False)

def run (r : Registry) (name : String) : Command → Answer × Registry
  | .intern text kind =>
    let (s, t) := (r.table name).intern text kind
    (.symbol (some s), r.store name t)
  | .lookup text => (.symbol ((r.table name).lookup text), r)
  | .contains text => (.truth ((r.table name).lookup text).isSome, r)
  | .kindOf text => (.kind (((r.table name).lookup text).map Symbol.kind), r)
  | .reset => (.done, r.store name {})
  | .copy target => (.done, r.store target (r.table name))
  | .same text other otherText =>
    let here := (r.table name).lookup text
    let there := (r.table other).lookup otherText
    (.truth (decide (SameResult here there)), r)

/-- Runs commands in order, each on the table it names, keeping each answer with the registry
reached. -/
def runAll (r : Registry) : List (String × Command) → List (Answer × Registry)
  | [] => []
  | (name, c) :: rest =>
    let (a, r) := r.run name c
    (a, r) :: r.runAll rest

end Registry

end GrammarLab
