import GrammarLab.Lexer.Scan

/-!
# Tokens and their positions

A token is a lexeme with the position of its first character. Lines and columns count from one; a
line feed ends a line wherever it stands, also inside a comment or a literal.
-/

namespace GrammarLab.Lexer

structure Position where
  line : Nat := 1
  column : Nat := 1
  deriving DecidableEq, Repr

namespace Position

def step (p : Position) (c : Char) : Position :=
  if c = '\n' then ⟨p.line + 1, 1⟩ else ⟨p.line, p.column + 1⟩

def advance (p : Position) (cs : List Char) : Position := cs.foldl step p

@[simp] theorem advance_nil (p : Position) : p.advance [] = p := rfl

@[simp] theorem advance_append (p : Position) (cs ds : List Char) :
    p.advance (cs ++ ds) = (p.advance cs).advance ds := List.foldl_append

end Position

structure Token where
  category : Category
  text : String
  line : Nat
  column : Nat
  deriving DecidableEq, Repr

def Token.display (t : Token) : String :=
  "Token(" ++ t.category.displayName ++ ", '" ++ t.text ++ "', line=" ++ toString t.line ++
    ", col=" ++ toString t.column ++ ")"

/-- Only lexemes give tokens; every piece moves the position past its source. -/
def tokensAt (p : Position) : List Piece → List Token
  | [] => []
  | .gap c :: rest => tokensAt (p.step c) rest
  | .lexeme category text source :: rest =>
    ⟨category, String.ofList text, p.line, p.column⟩ :: tokensAt (p.advance source) rest

def tokenize (source : String) : List Token := tokensAt {} (pieces source.toList)

/-- How many tokens each category has, in declaration order. -/
def summary (ts : List Token) : List (Category × Nat) :=
  Category.all.map fun c => (c, ts.countP fun t => t.category = c)

end GrammarLab.Lexer
