import GrammarLab.Json
import GrammarLab.Json.Encoding
import GrammarLab.Text.Numeral

/-!
# Reading JSON

A text is one value between white space. Besides the standard forms the numbers `NaN`, `Infinity`
and `-Infinity` are read. A name repeated in an object keeps its first place and takes its last
value. Whole numbers have at most 4300 digits; a number with a fraction or an exponent is a
floating-point number.
-/

namespace GrammarLab.Json

def IsSpace (c : Char) : Prop := c = ' ' ∨ c = '\t' ∨ c = '\n' ∨ c = '\r'
instance (c : Char) : Decidable (IsSpace c) := inferInstanceAs (Decidable (_ ∨ _))

def skipSpace (cs : List Char) : List Char := cs.dropWhile fun c => IsSpace c

def hexValue? (c : Char) : Option Nat :=
  if c.isDigit then some (c.toNat - '0'.toNat)
  else if 'a' ≤ c ∧ c ≤ 'f' then some (c.toNat - 'a'.toNat + 10)
  else if 'A' ≤ c ∧ c ≤ 'F' then some (c.toNat - 'A'.toNat + 10)
  else none

def hexUnit? (a b c d : Char) : Option Nat := do
  return (((← hexValue? a) * 16 + (← hexValue? b)) * 16 + (← hexValue? c)) * 16 + (← hexValue? d)

def shortEscape? (c : Char) : Option Char :=
  [('"', '"'), ('\\', '\\'), ('/', '/'), ('b', '\x08'), ('f', '\x0c'), ('n', '\n'), ('r', '\r'),
    ('t', '\t')].lookup c

/-- Code units of a string up to its closing quote, and what follows the quote. -/
def readUnits : List Char → Option (List Nat × List Char)
  | '"' :: rest => some ([], rest)
  | '\\' :: 'u' :: a :: b :: c :: d :: rest => do
    let unit ← hexUnit? a b c d
    let (units, rest) ← readUnits rest
    return (unit :: units, rest)
  | '\\' :: c :: rest => do
    let d ← shortEscape? c
    let (units, rest) ← readUnits rest
    return (d.toNat :: units, rest)
  | c :: rest =>
    if c = '\\' ∨ c.toNat < 0x20 then none else do
      let (units, rest) ← readUnits rest
      return (c.toNat :: units, rest)
  | [] => none

def readString (cs : List Char) : Option (String × List Char) :=
  (readUnits cs).map fun (units, rest) => (String.ofList (joinUnits units), rest)

/-- The number `digits · 10 ^ exponent`, rounded; far out of range it is infinite or zero. -/
def realOfDecimal (negative : Bool) (digits : List Char) (exponent : Int) : Float :=
  let significant := digits.dropWhile (· = '0')
  let magnitude := (significant.length : Int) + exponent
  let x :=
    if significant = [] ∨ magnitude < -400 then 0.0
    else if 400 < magnitude then 1.0 / 0.0
    else Float.ofScientific (Text.decimalValue significant) (exponent < 0) exponent.natAbs
  if negative then -x else x

def wholeDigits : List Char → Option (List Char × List Char)
  | '0' :: rest => some (['0'], rest)
  | cs =>
    match cs.takeWhile Char.isDigit with
    | [] => none
    | ds => some (ds, cs.dropWhile Char.isDigit)

/-- Digits after a point; without any, the point does not belong to the number. -/
def fractionDigits : List Char → List Char × List Char
  | '.' :: rest =>
    match rest.takeWhile Char.isDigit with
    | [] => ([], '.' :: rest)
    | ds => (ds, rest.dropWhile Char.isDigit)
  | cs => ([], cs)

/-- An exponent; without digits, its letter does not belong to the number. -/
def exponentPart (cs : List Char) : Option Int × List Char :=
  match cs with
  | c :: rest =>
    if c = 'e' ∨ c = 'E' then
      let (negative, body) := Text.splitSign rest
      match body.takeWhile Char.isDigit with
      | [] => (none, cs)
      | ds =>
        let n : Int := Text.decimalValue ds
        (some (if negative then -n else n), body.dropWhile Char.isDigit)
    else (none, cs)
  | [] => (none, [])

def readNumber (negative : Bool) (cs : List Char) : Option (Json × List Char) := do
  let (whole, rest) ← wholeDigits cs
  let (fraction, rest) := fractionDigits rest
  match fraction, exponentPart rest with
  | [], (none, rest) =>
    if Text.digitLimit < whole.length then none else
    let n : Int := Text.decimalValue whole
    return (.int (if negative then -n else n), rest)
  | _, (exponent, rest) =>
    return (.real (realOfDecimal negative (whole ++ fraction)
      (exponent.getD 0 - fraction.length)), rest)

def readWord (word : String) (v : Json) (cs : List Char) : Option (Json × List Char) :=
  if word.toList <+: cs then some (v, cs.drop word.length) else none

def readAtom (cs : List Char) : Option (Json × List Char) :=
  match cs with
  | 'n' :: _ => readWord "null" .null cs
  | 't' :: _ => readWord "true" (.bool true) cs
  | 'f' :: _ => readWord "false" (.bool false) cs
  | 'N' :: _ => readWord "NaN" (.real (0.0 / 0.0)) cs
  | 'I' :: _ => readWord "Infinity" (.real (1.0 / 0.0)) cs
  | '-' :: 'I' :: _ => readWord "-Infinity" (.real (-1.0 / 0.0)) cs
  | '-' :: rest => readNumber true rest
  | _ => readNumber false cs

mutual

/-- Reads a value. Of any two nested calls at least one leaves a character behind, so twice the
length of the text bounds their number. -/
def readValue : Nat → List Char → Option (Json × List Char)
  | 0, _ => none
  | calls + 1, cs =>
    match cs with
    | '"' :: rest => (readString rest).map fun (s, rest) => (.str s, rest)
    | '[' :: rest =>
      match skipSpace rest with
      | ']' :: rest => some (.arr [], rest)
      | rest => (readItems calls rest).map fun (items, rest) => (.arr items, rest)
    | '\x7b' :: rest =>
      match skipSpace rest with
      | '\x7d' :: rest => some (.obj [], rest)
      | rest => (readFields calls [] rest).map fun (fields, rest) => (.obj fields, rest)
    | cs => readAtom cs

/-- Reads the items of a list up to its closing bracket. -/
def readItems : Nat → List Char → Option (List Json × List Char)
  | 0, _ => none
  | calls + 1, cs => do
    let (v, rest) ← readValue calls cs
    match skipSpace rest with
    | ']' :: rest => return ([v], rest)
    | ',' :: rest =>
      let (items, rest) ← readItems calls (skipSpace rest)
      return (v :: items, rest)
    | _ => none

/-- Reads the fields of an object up to its closing brace, after those read before. -/
def readFields : Nat → List (String × Json) → List Char → Option (List (String × Json) × List Char)
  | 0, _, _ => none
  | calls + 1, before, cs => do
    let '"' :: rest := cs | none
    let (name, rest) ← readString rest
    let ':' :: rest := skipSpace rest | none
    let (v, rest) ← readValue calls (skipSpace rest)
    let fields := Assoc.put name v before
    match skipSpace rest with
    | '\x7d' :: rest => return (fields, rest)
    | ',' :: rest => readFields calls fields (skipSpace rest)
    | _ => none

end

def readChars (text : List Char) : Option Json := do
  let cs := skipSpace text
  let (v, rest) ← readValue (2 * cs.length + 1) cs
  if skipSpace rest = [] then some v else none

def read (text : String) : Option Json := (Encoding.decoded text).bind readChars

end GrammarLab.Json
