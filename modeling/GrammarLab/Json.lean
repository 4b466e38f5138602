import GrammarLab.Assoc
import GrammarLab.Text.Quoted
import GrammarLab.Text.Shortest

/-!
# JSON values

Whole numbers and floating-point numbers are kept apart, and the fields of an object keep the order
in which they were entered. A value has a type name, a truth value that decides whether a request
field counts as given, and a display text for log lines.
-/

namespace GrammarLab

inductive Json where
  | null
  | bool (value : Bool)
  | int (value : Int)
  | real (value : Float)
  | str (value : String)
  | arr (items : List Json)
  | obj (fields : List (String × Json))

namespace Json

def typeName : Json → String
  | null => "NoneType"
  | bool _ => "bool"
  | int _ => "int"
  | real _ => "float"
  | str _ => "str"
  | arr _ => "list"
  | obj _ => "dict"

/-- Null, false, zero and whatever is empty are not true. -/
def truthy : Json → Bool
  | null => false
  | bool b => b
  | int n => n ≠ 0
  | real x => x != 0
  | str s => s ≠ ""
  | arr items => !items.isEmpty
  | obj fields => !fields.isEmpty

def boolText (b : Bool) : String := if b then "True" else "False"

def braced (body : String) : String := "\x7b" ++ body ++ "\x7d"

mutual

/-- The text of a value inside a list or an object, where strings are quoted. -/
def literal : Json → String
  | null => "None"
  | bool b => boolText b
  | int n => toString n
  | real x => Text.floatText x
  | str s => Text.quoted s
  | arr items => Text.bracketed (literals items)
  | obj fields => braced (", ".intercalate (fieldLiterals fields))

def literals : List Json → List String
  | [] => []
  | v :: rest => literal v :: literals rest

def fieldLiterals : List (String × Json) → List String
  | [] => []
  | (name, v) :: rest => (Text.quoted name ++ ": " ++ literal v) :: fieldLiterals rest

end

/-- A text is displayed as it is, any other value by its literal. -/
def display : Json → String
  | str s => s
  | v => literal v

def insertField (name : String) (v : Json) : List (String × Json) → List (String × Json)
  | [] => [(name, v)]
  | (other, w) :: rest =>
    if name < other then (name, v) :: (other, w) :: rest
    else (other, w) :: insertField name v rest

mutual

/-- Puts the fields of every object into the order of their names. -/
def sorted : Json → Json
  | arr items => .arr (sortedItems items)
  | obj fields => .obj (sortedFields fields)
  | v => v

def sortedItems : List Json → List Json
  | [] => []
  | v :: rest => sorted v :: sortedItems rest

def sortedFields : List (String × Json) → List (String × Json)
  | [] => []
  | (name, v) :: rest => insertField name (sorted v) (sortedFields rest)

end

/-- A field of an object. -/
def field? (v : Json) (name : String) : Option Json :=
  match v with
  | obj fields => fields.lookup name
  | _ => none

end Json

end GrammarLab
