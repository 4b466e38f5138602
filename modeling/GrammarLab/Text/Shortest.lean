/-!
# Shortest decimals of binary floating-point numbers

A finite number is `mantissa · 2 ^ exponent`. Its text has the fewest digits that read back as the
same number, the nearest such decimal being taken. A decimal reads back when it lies between the
midpoints to the neighbouring numbers, midpoints included for an even mantissa. All comparisons
are made on natural numbers. Exponents from -4 to 15 are written positionally.
-/

namespace GrammarLab.Text

def powerOfTwo (n : Nat) : Nat := Nat.pow 2 n

def powerOfTen (n : Nat) : Nat := Nat.pow 10 n

/-- A positive number with the midpoints to its neighbours, over one denominator. -/
structure Rounding where
  value : Nat
  low : Nat
  high : Nat
  scale : Nat
  closed : Bool
  deriving DecidableEq, Repr

/-- Below a power of two the neighbours are twice as dense, unless the number is subnormal. -/
def Rounding.ofBinary (mantissa : Nat) (exponent : Int) : Rounding :=
  let dense := mantissa = powerOfTwo 52 ∧ -1074 < exponent
  let up := powerOfTwo (exponent - 2).toNat
  { value := 4 * mantissa * up
    low := (4 * mantissa - if dense then 1 else 2) * up
    high := (4 * mantissa + 2) * up
    scale := powerOfTwo (2 - exponent).toNat
    closed := mantissa % 2 = 0 }

/-- The decimal `digits · 10 ^ power` reads back. -/
def Rounding.Accepts (r : Rounding) (digits : Nat) (power : Int) : Prop :=
  let d := digits * powerOfTen power.toNat * r.scale
  let unit := powerOfTen (-power).toNat
  if r.closed then r.low * unit ≤ d ∧ d ≤ r.high * unit else r.low * unit < d ∧ d < r.high * unit

instance (r : Rounding) (digits : Nat) (power : Int) : Decidable (r.Accepts digits power) := by
  unfold Rounding.Accepts
  infer_instance

/-- The number of decimal places before the point of the value; not positive below one tenth. -/
def Rounding.magnitude (r : Rounding) : Int :=
  ((Nat.toDigits 10 (r.value * powerOfTen 400 / r.scale)).length : Int) - 400

/-- The accepted neighbour of the value on the grid of a power of ten, the nearer one of two, the
even one of a tie. -/
def Rounding.onGrid (r : Rounding) (power : Int) : Option Nat :=
  let unit := powerOfTen power.toNat * r.scale
  let target := r.value * powerOfTen (-power).toNat
  let below := target / unit
  match decide (r.Accepts below power), decide (r.Accepts (below + 1) power) with
  | true, false => some below
  | false, true => some (below + 1)
  | true, true =>
    let twice := 2 * (target % unit)
    some (if twice < unit ∨ (twice = unit ∧ below % 2 = 0) then below else below + 1)
  | false, false => none

/-- The coarsest grid with an accepted neighbour; seventeen digits are always enough. -/
def Rounding.shortest (r : Rounding) : Nat × Int :=
  let grids := (List.range 17).map fun n => r.magnitude - (n + 1 : Nat)
  ((grids.findSome? fun power => (r.onGrid power).map fun d => (d, power))).getD (r.value, 0)

def trimZeros (ds : List Char) : List Char := (ds.reverse.dropWhile (· = '0')).reverse

/-- Writes `0.d₁d₂… · 10 ^ point`. -/
def writeDecimal (ds : List Char) (point : Int) : String :=
  if -4 < point ∧ point ≤ 16 then
    if point ≤ 0 then
      "0." ++ String.ofList (List.replicate (-point).toNat '0' ++ ds)
    else
      let whole := ds.take point.toNat
      let fraction := ds.drop point.toNat
      String.ofList (whole ++ List.replicate (point.toNat - whole.length) '0') ++ "." ++
        (if fraction = [] then "0" else String.ofList fraction)
  else
    let exponent := point - 1
    let size := toString exponent.natAbs
    String.ofList (ds.take 1) ++
      (if ds.length ≤ 1 then "" else "." ++ String.ofList (ds.drop 1)) ++
      (if exponent < 0 then "e-" else "e+") ++ (if size.length < 2 then "0" ++ size else size)

def magnitudeText (mantissa : Nat) (exponent : Int) : String :=
  if mantissa = 0 then "0.0" else
  let (digits, power) := (Rounding.ofBinary mantissa exponent).shortest
  let ds := Nat.toDigits 10 digits
  writeDecimal (trimZeros ds) (ds.length + power)

/-- The text of a number given by its binary interchange format of 64 bits. -/
def bitsText (bits : Nat) : String :=
  let sign := if bits / powerOfTwo 63 = 0 then "" else "-"
  let field : Nat := bits / powerOfTwo 52 % powerOfTwo 11
  let fraction : Nat := bits % powerOfTwo 52
  if field = powerOfTwo 11 - 1 then
    if fraction = 0 then sign ++ "inf" else "nan"
  else if field = 0 then sign ++ magnitudeText fraction (-1074)
  else sign ++ magnitudeText (fraction + powerOfTwo 52) ((field : Int) - 1075)

def floatText (x : Float) : String := bitsText x.toBits.toNat

end GrammarLab.Text
