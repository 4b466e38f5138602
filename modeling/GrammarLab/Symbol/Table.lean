import GrammarLab.Symbol

/-!
# Symbol tables

A table holds one symbol for each text it has seen. A new text takes the next free index; a known
text keeps its symbol whatever kind is asked for. In a well-formed table the indices are
`0, 1, …` in order and no text occurs twice, so that a symbol is fixed by its index and by its text.
-/

namespace GrammarLab

structure SymbolTable where
  symbols : List Symbol := []
  deriving DecidableEq, Repr

namespace SymbolTable

def size (t : SymbolTable) : Nat := t.symbols.length

def lookup (t : SymbolTable) (text : String) : Option Symbol :=
  t.symbols.find? (fun s => s.text = text)

/-- The symbol that a new text would get. -/
def fresh (t : SymbolTable) (text : String) (kind : Kind) : Symbol := ⟨t.size, text, kind⟩

def intern (t : SymbolTable) (text : String) (kind : Kind) : Symbol × SymbolTable :=
  match t.lookup text with
  | some s => (s, t)
  | none => (t.fresh text kind, ⟨t.symbols ++ [t.fresh text kind]⟩)

/-- Interns texts in order, all with one kind, and lists their symbols. -/
def internAll (t : SymbolTable) (kind : Kind) : List String → List Symbol × SymbolTable
  | [] => ([], t)
  | text :: rest =>
    let (s, t) := t.intern text kind
    let (ss, t) := t.internAll kind rest
    (s :: ss, t)

structure WellFormed (t : SymbolTable) : Prop where
  indices : t.symbols.map Symbol.index = List.range t.size
  texts : (t.symbols.map Symbol.text).Nodup

theorem wellFormed_empty : WellFormed {} := ⟨rfl, List.nodup_nil⟩

theorem lookup_eq_none_iff {t : SymbolTable} {text : String} :
    t.lookup text = none ↔ text ∉ t.symbols.map Symbol.text := by
  simp [lookup]

theorem text_of_lookup {t : SymbolTable} {text : String} {s : Symbol}
    (h : t.lookup text = some s) : s ∈ t.symbols ∧ s.text = text :=
  ⟨List.mem_of_find?_eq_some h, by simpa using List.find?_some h⟩

theorem WellFormed.intern {t : SymbolTable} (h : t.WellFormed) (text : String) (kind : Kind) :
    (t.intern text kind).2.WellFormed := by
  unfold SymbolTable.intern
  split
  · exact h
  · next hn =>
    have new := lookup_eq_none_iff.mp hn
    refine ⟨?_, ?_⟩
    · simp [size, fresh, h.indices, List.range_succ]
    · simp only [List.map_append, List.map_cons, List.map_nil]
      refine List.nodup_append.mpr ⟨h.texts, by simp, ?_⟩
      intro a ha b hb
      simp only [List.mem_singleton] at hb
      subst hb
      intro e
      exact new (e ▸ ha)

end SymbolTable

end GrammarLab
