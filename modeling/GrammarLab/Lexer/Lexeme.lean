import GrammarLab.Lexer.Category
import GrammarLab.Lexer.Trie
import GrammarLab.Text.Digit

/-!
# Lexemes of the C-like language

Words, numbers, delimiters and operators, and the rule for character literals. Letters and digits
are those of ASCII. A character literal holds one character, a backslash with one character, or a
backslash with a decimal code below 377; zeros in front of a code do not count.
-/

namespace GrammarLab.Lexer

def keywords : List String :=
  ["auto", "double", "int", "struct", "break", "else", "long", "switch", "case", "enum",
    "register", "typedef", "char", "extern", "return", "union", "const", "float", "short",
    "unsigned", "continue", "for", "signed", "void", "default", "goto", "sizeof", "volatile", "do",
    "if", "while", "static"]

def delimiters : List String := [",", ";", "(", ")", "[", "]", "\x7b", "\x7d"]

def operators : List String :=
  ["+", "-", "*", "/", "%", "++", "--", "<<", ">>", "&", "|", "^", "~", ">", "<", ">=", "<=", "!=",
    "==", "=", "||", "&&", "!", "+=", "-=", "*=", "/=", "&=", "|=", "^=", "<<=", ">>=", "->", ".",
    "sizeof", "?", ":"]

def symbolEntries : List (List Char × Category) :=
  delimiters.map (fun s => (s.toList, .delimiter)) ++ operators.map (fun s => (s.toList, .operator))

def symbolTrie : Trie Category := .ofEntries symbolEntries

def IsWordChar (c : Char) : Prop := c.isAlphanum ∨ c = '_'
instance (c : Char) : Decidable (IsWordChar c) := inferInstanceAs (Decidable (_ ∨ _))

def IsNumber (cs : List Char) : Prop := cs ≠ [] ∧ ∀ c ∈ cs, c.isDigit
-- Only the characters of the list are tried: `∀ c : Char` is also decidable, far more slowly.
instance (cs : List Char) : Decidable (IsNumber cs) :=
  @instDecidableAnd _ _ inferInstance (List.decidableBAll _ cs)

def IsIdentifier : List Char → Prop
  | [] => False
  | c :: rest => (c.isAlpha ∨ c = '_') ∧ ∀ d ∈ rest, IsWordChar d

instance : (cs : List Char) → Decidable (IsIdentifier cs)
  | [] => inferInstanceAs (Decidable False)
  | _ :: rest => @instDecidableAnd _ _ inferInstance (List.decidableBAll _ rest)

/-- Codes of character literals are decimal and stay below this bound. -/
def codeLimit : Nat := 377

/-- A code is judged without its leading zeros, and never when more than three digits are left. -/
def IsCharCode (digits : List Char) : Prop :=
  IsNumber digits ∧ (digits.dropWhile (· = '0')).length ≤ 3 ∧
    Text.decimalValue (digits.dropWhile (· = '0')) < codeLimit
instance (digits : List Char) : Decidable (IsCharCode digits) :=
  inferInstanceAs (Decidable (_ ∧ _ ∧ _))

def IsCharContent : List Char → Prop
  | [] => False
  | [_] => True
  | ['\\', _] => True
  | c :: code => c = '\\' ∧ IsCharCode code

instance : (cs : List Char) → Decidable (IsCharContent cs)
  | [] => inferInstanceAs (Decidable False)
  | [_] => inferInstanceAs (Decidable True)
  | [c, d] =>
    if h : c = '\\' then .isTrue (by subst h; trivial)
    else .isFalse (by intro k; simp [IsCharContent, h] at k)
  | c :: d :: e :: rest =>
    decidable_of_iff (c = '\\' ∧ IsCharCode (d :: e :: rest)) (by simp [IsCharContent])

def charCategory (content : List Char) : Category :=
  if IsCharContent content then .char else .error

def wordCategory (word : List Char) : Category :=
  if String.ofList word ∈ keywords then .keyword
  else if IsIdentifier word then .identifier
  else .error

end GrammarLab.Lexer
