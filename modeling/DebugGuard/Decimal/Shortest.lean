/-!
# The shortest decimal of a double

A double stands for all the reals that round to it.  Of the decimals among them `Double.shortest`
takes one with the fewest digits, and of those the one nearest to the double, an even last digit
deciding a tie.

All comparisons are exact: both sides are scaled to natural numbers first.
-/

namespace DebugGuard

/-- The number `digits * 10 ^ exponent`. -/
structure Decimal where
  digits : Nat
  exponent : Int
  deriving DecidableEq, Repr

/-- A finite double without its sign: the number `significand * 2 ^ exponent`. -/
structure Double where
  significand : Nat
  exponent : Int
  /-- The double below is half as far away as the one above. -/
  crowdedBelow : Bool
  deriving DecidableEq, Repr

namespace Double

/-- The double with the given bits, its sign left out. -/
def ofBits (bits : UInt64) : Double :=
  let implied := Nat.pow 2 52
  let biased := bits.toNat / implied % 2048
  let fraction := bits.toNat % implied
  if biased = 0 then ⟨fraction, -1074, false⟩
  else ⟨implied + fraction, (biased : Int) - 1075, fraction = 0 ∧ 1 < biased⟩

/-- Numbers `a` and `b` such that `n` quarters of the last binary place are `n * a / b` units of
`10 ^ place`. -/
def scale (x : Double) (place : Int) : Nat × Nat :=
  (Nat.pow 2 (x.exponent - 2).toNat * Nat.pow 10 (-place).toNat,
    Nat.pow 2 (2 - x.exponent).toNat * Nat.pow 10 place.toNat)

/-- The decimal `c * 10 ^ place` rounds to the double. -/
def roundsTo (x : Double) (place : Int) (c : Nat) : Bool :=
  let (a, b) := x.scale place
  let low := (4 * x.significand - if x.crowdedBelow then 1 else 2) * a
  let high := (4 * x.significand + 2) * a
  if x.significand % 2 = 0 then low ≤ c * b && c * b ≤ high else low < c * b && c * b < high

/-- The multiple of `10 ^ place` that rounds to the double, if one does; of two the nearer one. -/
def onGrid? (x : Double) (place : Int) : Option Decimal :=
  let (a, b) := x.scale place
  let value := 4 * x.significand * a
  let below := value / b
  let twice := 2 * (value % b)
  let nearer := if twice < b ∨ (twice = b ∧ below % 2 = 0) then below else below + 1
  let farther := if nearer = below then below + 1 else below
  if x.roundsTo place nearer then some ⟨nearer, place⟩
  else if x.roundsTo place farther then some ⟨farther, place⟩
  else none

/-- The power of ten of the leading digit of a double that is not zero. -/
def leadingPlace (x : Double) : Int :=
  let above := x.significand * Nat.pow 2 x.exponent.toNat
  let below := Nat.pow 2 (-x.exponent).toNat
  if below ≤ above then (Nat.toDigits 10 (above / below)).length - 1
  else -(((List.range 400).find? fun k => below ≤ above * Nat.pow 10 k).getD 400)

/-- A decimal without zeros at its end. -/
def trim (d : Decimal) : Decimal :=
  let zeros := ((Nat.toDigits 10 d.digits).reverse.takeWhile (· == '0')).length
  if d.digits = 0 then ⟨0, 0⟩ else ⟨d.digits / Nat.pow 10 zeros, d.exponent + zeros⟩

/-- The shortest decimal that rounds to the double.  Seventeen digits always suffice. -/
def shortest (x : Double) : Decimal :=
  if x.significand = 0 then ⟨0, 0⟩
  else
    let first := x.leadingPlace
    match (List.range 17).findSome? fun (k : Nat) => x.onGrid? (first - k) with
    | some d => trim d
    | none => ⟨4 * x.significand * (x.scale (first - 17)).1 / (x.scale (first - 17)).2, first - 17⟩

end Double

end DebugGuard
