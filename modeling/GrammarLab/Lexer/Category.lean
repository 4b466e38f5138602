/-!
# Token categories

The categories of tokens in declaration order, with the names under which they are shown.
-/

namespace GrammarLab.Lexer

inductive Category where
  | error
  | keyword
  | delimiter
  | operator
  | number
  | identifier
  | char
  | string
  | comment
  | blockComment
  deriving DecidableEq, Repr

namespace Category

def all : List Category :=
  [error, keyword, delimiter, operator, number, identifier, char, string, comment, blockComment]

def displayName : Category → String
  | error => "ERROR"
  | keyword => "KEY_WORD"
  | delimiter => "DELIMITER"
  | operator => "OPERATOR"
  | number => "NUMBER"
  | identifier => "IDENTIFIER"
  | char => "CHAR"
  | string => "STRING"
  | comment => "COMMENT"
  | blockComment => "MULTIPLE_LINE_COMMENT"

end Category

end GrammarLab.Lexer
