import GrammarLab.Json

/-!
# Writing JSON

Values are written without spaces. In strings, quotes, backslashes and control characters are
escaped and every other character stands for itself.
-/

namespace GrammarLab.Json

def escapedChar (c : Char) : List Char :=
  if c = '"' ∨ c = '\\' then ['\\', c]
  else if c = '\n' then ['\\', 'n']
  else if c.toNat < 0x20 then '\\' :: 'u' :: Text.hex 4 c.toNat
  else [c]

def writeString (s : String) : String :=
  String.ofList ('"' :: s.toList.flatMap escapedChar ++ ['"'])

def writeReal (x : Float) : String :=
  if x.isNaN then "NaN"
  else if x.isInf then (if 0 < x then "Infinity" else "-Infinity")
  else Text.floatText x

mutual

def write : Json → String
  | null => "null"
  | bool b => if b then "true" else "false"
  | int n => toString n
  | real x => writeReal x
  | str s => writeString s
  | arr items => "[" ++ ",".intercalate (writeItems items) ++ "]"
  | obj fields => braced (",".intercalate (writeFields fields))

def writeItems : List Json → List String
  | [] => []
  | v :: rest => write v :: writeItems rest

def writeFields : List (String × Json) → List String
  | [] => []
  | (name, v) :: rest => (writeString name ++ ":" ++ write v) :: writeFields rest

end

end GrammarLab.Json
