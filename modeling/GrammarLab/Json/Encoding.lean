/-!
# Encodings of JSON text

A JSON text begins with two characters of ASCII, so zero octets among its first four tell in which
encoding it was written. A text without them is in UTF-8 and may begin with a byte order mark,
which is skipped. The octets of any other text are decoded in pairs or in fours.
-/

namespace GrammarLab.Json

inductive Encoding where
  | utf8
  | utf16 (bigEndian : Bool)
  | utf32 (bigEndian : Bool)
  deriving DecidableEq, Repr

def unitChar (n : Nat) : Char := if n.isValidChar then Char.ofNat n else '\uFFFD'

/-- Joins a high and a low surrogate into one character; a single one is replaced. -/
def joinUnits : List Nat → List Char
  | [] => []
  | [n] => [unitChar n]
  | high :: low :: rest =>
    if 0xD800 ≤ high ∧ high < 0xDC00 ∧ 0xDC00 ≤ low ∧ low < 0xE000 then
      unitChar (0x10000 + (high - 0xD800) * 0x400 + (low - 0xDC00)) :: joinUnits rest
    else unitChar high :: joinUnits (low :: rest)

namespace Encoding

def detect : List Nat → Encoding
  | 0 :: b :: _ :: _ :: _ => if b = 0 then .utf32 true else .utf16 true
  | _ :: 0 :: c :: d :: _ => if c = 0 ∧ d = 0 then .utf32 false else .utf16 false
  | [0, _] => .utf16 true
  | [_, 0] => .utf16 false
  | _ => .utf8

def joinOctets (bigEndian : Bool) (octets : List Nat) : Nat :=
  (if bigEndian then octets else octets.reverse).foldl (fun n b => 256 * n + b) 0

/-- Code units of two octets; a single octet at the end is an error. -/
def pairs (bigEndian : Bool) : List Nat → Option (List Nat)
  | [] => some []
  | a :: b :: rest => (pairs bigEndian rest).map (joinOctets bigEndian [a, b] :: ·)
  | [_] => none

/-- Characters of four octets; numbers past the last character are errors. -/
def fours (bigEndian : Bool) : List Nat → Option (List Char)
  | [] => some []
  | a :: b :: c :: d :: rest =>
    let n := joinOctets bigEndian [a, b, c, d]
    if n < 0x110000 then (fours bigEndian rest).map (unitChar n :: ·) else none
  | _ => none

def dropMark : List Char → List Char
  | '\uFEFF' :: rest => rest
  | cs => cs

/-- The characters that the octets of a text stand for. -/
def decoded (text : String) : Option (List Char) :=
  let octets := text.toUTF8.toList.map UInt8.toNat
  match detect octets with
  | .utf8 => some (dropMark text.toList)
  | .utf16 bigEndian => (pairs bigEndian octets).map joinUnits
  | .utf32 bigEndian => fours bigEndian octets

end Encoding

end GrammarLab.Json
