import GrammarLab.Text.Blank
import GrammarLab.Text.Digit
import GrammarLab.Text.Quoted

/-!
# Reading integers

An integer may stand between white space and begin with one sign. Its digits are decimal digits of
any script, with single underscores between them. Numerals of more than 4300 digits are refused
before anything after them is looked at. The four separators are no white space here.
-/

namespace GrammarLab.Text

inductive NumeralError where
  | invalid
  | tooLong (digits : Nat)
  deriving DecidableEq, Repr

/-- A refused numeral is quoted in the message, which shows no more than 200 characters of it. -/
def NumeralError.message (value : String) : NumeralError → String
  | .invalid =>
    "invalid literal for int() with base 10: " ++
      String.ofList ((quotedChars value.toList).take 200)
  | .tooLong digits =>
    "Exceeds the limit (" ++ toString digitLimit ++
      " digits) for integer string conversion: value has " ++ toString digits ++
      " digits; use sys.set_int_max_str_digits() to increase the limit"

def IsPadding (c : Char) : Prop := IsBlank c ∧ ¬(0x1C ≤ c.toNat ∧ c.toNat ≤ 0x1F)
instance (c : Char) : Decidable (IsPadding c) := inferInstanceAs (Decidable (_ ∧ _))

def splitSign : List Char → Bool × List Char
  | '-' :: rest => (true, rest)
  | '+' :: rest => (false, rest)
  | cs => (false, cs)

def inNumeral (c : Char) : Bool := c = '_' || (digitValue? c).isSome

def digitsValue (ds : List Char) : Nat :=
  ds.foldl (fun n c => 10 * n + (digitValue? c).getD 0) 0

def readInteger (cs : List Char) : Except NumeralError Int :=
  let (negative, body) := splitSign (cs.dropWhile fun c => IsPadding c)
  let run := body.takeWhile inNumeral
  let groups := run.splitOn '_'
  let digits := groups.flatten
  if [] ∈ groups then .error .invalid
  else if digitLimit < digits.length then .error (.tooLong digits.length)
  else if (body.dropWhile inNumeral).all (fun c => IsPadding c) then
    .ok (if negative then -(digitsValue digits : Int) else digitsValue digits)
  else .error .invalid

end GrammarLab.Text
