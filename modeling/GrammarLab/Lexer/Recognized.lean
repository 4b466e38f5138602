import GrammarLab.Lexer.Token

/-!
# Recognised lexemes

Over its whole life an analyser records every token text it has produced, in the order of first
recognition, each with the category of the latest token of that text.
-/

namespace GrammarLab.Lexer

structure Recognized where
  entries : List (String × Category) := []
  deriving DecidableEq, Repr

namespace Recognized

def record (r : Recognized) (t : Token) : Recognized := ⟨Assoc.put t.text t.category r.entries⟩

def recordAll (r : Recognized) (ts : List Token) : Recognized := ts.foldl record r

/-- Tokenizes one more source. -/
def tokenize (r : Recognized) (source : String) : List Token × Recognized :=
  (Lexer.tokenize source, r.recordAll (Lexer.tokenize source))

/-- Tokenizes sources in order, keeping the tokens of each with the record reached. -/
def tokenizeAll (r : Recognized) : List String → List (List Token × Recognized)
  | [] => []
  | source :: rest =>
    let (ts, r) := r.tokenize source
    (ts, r) :: r.tokenizeAll rest

end Recognized

end GrammarLab.Lexer
