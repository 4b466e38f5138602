import GrammarLab.Analysis
import GrammarLab.Json
import GrammarLab.Lexer.Recognized

/-!
# Analyses, traces and tokens as JSON

The bodies of answers: each artefact as a value, with the field names clients rely on.
-/

namespace GrammarLab.Service

def texts (items : List String) : Json := .arr (items.map Json.str)

def setView (e : String × List String) : Json :=
  .obj [("variable", .str e.1), ("set", texts e.2)]

def tableRowView (r : String × List (String × String)) : Json :=
  .obj [("variable", .str r.1), ("terminals", .obj (r.2.map fun c => (c.1, .str c.2)))]

def conflictView (c : ConflictText) : Json :=
  .obj [("variable", .str c.left), ("lookahead", .str c.lookahead), ("replaced", .str c.replaced),
    ("replacement", .str c.replacement), ("message", .str c.message)]

def summaryFields (s : Summary) : List (String × Json) :=
  [("start_symbol", .str s.startSymbol), ("productions", texts s.productions),
    ("terminals", texts s.terminals), ("first", .arr (s.first.map setView)),
    ("follow", .arr (s.follow.map setView)), ("table", .arr (s.table.map tableRowView)),
    ("conflicts", .arr (s.conflicts.map conflictView))]

def rowView (r : Row) : Json :=
  .obj [("step", .int r.number), ("kind", .str r.kind), ("stack", .str r.stack),
    ("remaining", .str r.remaining), ("action", .str r.action)]

def traceView (display : String) (t : Trace) : Json := .arr ((Trace.rows display t).map rowView)

open Lexer (Category Token Recognized)

def categoryView (c : Category) : Json := .str c.displayName

def tokenView (t : Token) : Json :=
  .obj [("category", categoryView t.category), ("text", .str t.text), ("line", .int t.line),
    ("column", .int t.column)]

def tokensView (ts : List Token) : Json := .arr (ts.map tokenView)

end GrammarLab.Service
