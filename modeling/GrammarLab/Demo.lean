import GrammarLab.Analysis
import GrammarLab.Grammar.Listing
import GrammarLab.Lexer.Recognized
import GrammarLab.Service.Settings

/-!
# Demonstrations

Three texts for the command line: an expression grammar with its sets, its table and a trace; the
tokens of a small program; and the banner of the service.
-/

namespace GrammarLab.Demo

def lines (items : List String) : String := String.join (items.map (· ++ "\n"))

def padLeft (width : Nat) (s : String) : String :=
  String.ofList (List.replicate (width - s.length) ' ') ++ s

def padRight (width : Nat) (s : String) : String :=
  s ++ String.ofList (List.replicate (width - s.length) ' ')

def grammarText : String := "S->TA\nA->+TA|$\nT->FB\nB->*FB|$\nF->(S)|i"

def inputText : String := "(i+i)*(i+i)#"

def setLines (name : String) (sets : List (String × List String)) : List String :=
  sets.map fun s => name ++ "(" ++ s.1 ++ ") = " ++ Text.quotedList s.2

def rowLine (r : Row) : String :=
  padLeft 3 (toString r.number) ++ "  " ++ padRight 14 r.stack ++ " " ++ padLeft 14 r.remaining ++
    "  " ++ r.action

/-- The demonstration grammar is analysed and its input parsed; both succeed. -/
def analysis (limit : Nat) : Option String := do
  let .ok a := Analysis.load {} grammarText | none
  let .ok t ← a.parser.parse limit inputText | none
  return lines ([a.grammar.listing, ""] ++ setLines "FIRST" a.summary.first ++
    setLines "FOLLOW" a.summary.follow ++ ["", a.table.text, ""] ++
    (Trace.rows a.display t).map rowLine)

def sourceText : String :=
  "int main() \x7b\n    int ans = 0; // result\n    char c = '\\141';\n    return ans;\n\x7d"

def tokens : String := lines ((Lexer.tokenize sourceText).map Lexer.Token.display)

def banner (s : Service.Settings) : String :=
  lines ["--- LL(1) Grammar Workbench Server ---", "LL(1) analysis and C-like lexical analysis",
    "Running on http://" ++ s.host ++ ":" ++ toString s.port, "".pushn '-' 38]

end GrammarLab.Demo
