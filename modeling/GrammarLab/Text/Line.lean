import GrammarLab.Text.Blank

/-!
# Numbered lines

A text is cut at line feeds, carriage returns are dropped from the end of each line, and lines are
numbered from one. Blank lines keep their numbers but carry no content.
-/

namespace GrammarLab.Text

structure Line where
  number : Nat
  text : List Char
  deriving DecidableEq, Repr

def Line.Blank (l : Line) : Prop := ∀ c ∈ l.text, IsBlank c
instance (l : Line) : Decidable l.Blank := List.decidableBAll _ l.text

def lines (text : List Char) : List Line :=
  ((text.splitOn '\n').zipIdx 1).map fun (cs, n) => ⟨n, trimEnd (· = '\r') cs⟩

def contentLines (text : List Char) : List Line := (lines text).filter fun l => ¬l.Blank

theorem mem_contentLines {text : List Char} {l : Line} :
    l ∈ contentLines text ↔ l ∈ lines text ∧ ¬l.Blank := by
  simp [contentLines, List.mem_filter]

end GrammarLab.Text
