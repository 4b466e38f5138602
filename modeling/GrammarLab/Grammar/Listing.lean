import GrammarLab.Grammar
import GrammarLab.Text.Quoted

/-!
# Grammars as text

A listing names the start symbol, the terminals in display order and the left symbols, and gives
each production on a line of its own.
-/

namespace GrammarLab

def Grammar.listing (g : Grammar) : String :=
  "\n".intercalate
    (("Start Symbol: " ++ (g.start.map Symbol.text).getD "None") ::
      ("Terminals: " ++ Text.quotedList (g.terminals.inOrder.map Symbol.text)) ::
      ("Non-terminals: " ++ Text.quotedList (g.nonTerminals.map Symbol.text)) ::
      "Productions:" :: g.productions.map fun p => "  " ++ p.raw)

end GrammarLab
