/-!
# Marker configuration

The texts that mark the start symbol, the end of input and the empty string in a grammar, the
text that stands for the empty string in views, and the choice between iterating the FIRST and
FOLLOW passes until nothing grows and making one pass only. Markers may have any length.
-/

namespace GrammarLab

structure GrammarConfig where
  startSymbol : String := "S"
  endMarker : String := "#"
  emptyMarker : String := "$"
  emptyDisplay : String := "ε"
  fixpoint : Bool := true
  deriving DecidableEq, Repr

end GrammarLab
