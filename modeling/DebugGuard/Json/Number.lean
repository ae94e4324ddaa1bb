import DebugGuard.Json.Basic

/-!
# The value of a numeral

Digits are gathered into a significand of sixty-four bits.  A whole number that fits is an integer;
all else is a double: the significand times a power of ten, in floating-point arithmetic.  Digits
that the significand has no room for are left out, and those before the point still count as powers
of ten.  A double out of range has no value.
-/

namespace DebugGuard

/-- The value of a numeral: an integer if it is written as one and fits, else a double. -/
inductive JsonNumber where
  | integer (value : Int)
  | double (value : Float)

namespace Numeral

/-- The value of decimal digits, most significant first. -/
def ofDigits (digits : List Nat) : Nat :=
  digits.foldl (fun value d => 10 * value + d) 0

/-- Appends digits to a significand as long as it stays below `2 ^ 64`, and says how many found
room. -/
def gather (significand : Nat) : List Nat → Nat × Nat
  | [] => (significand, 0)
  | d :: ds =>
    if 10 * significand + d < UInt64.size then
      let (s, n) := gather (10 * significand + d) ds
      (s, n + 1)
    else (significand, 0)

/-- The largest exponent that is worked with; a larger one leaves nothing but zero or infinity. -/
def maxExponent : Nat := UInt32.size / 2 - 1

/-- The double next to a power of ten. -/
def powerOfTen (n : Nat) : Float :=
  .ofScientific 1 false n

/-- A number divided by `10 ^ n`, in steps of at most `1e308`. -/
def shrink (x : Float) (n : Nat) : Float :=
  if n ≤ 308 then x / powerOfTen n
  else if x == 0 then x
  else shrink (x / powerOfTen 308) (n - 308)
termination_by n
decreasing_by omega

/-- A number times a power of ten, unless it is out of range. -/
def scaled? (x : Float) (exponent : Int) : Option Float :=
  if exponent < 0 then some (shrink x exponent.natAbs)
  else if x == 0 then some x
  else if exponent ≤ 308 then
    let y := x * powerOfTen exponent.toNat
    if y.isInf then none else some y
  else none

/-- The value of a numeral with a fraction or an exponent, or of one that fits no integer. -/
def double? (n : Numeral) : Option Float :=
  let (significand, used) := gather 0 n.whole
  let left := n.whole.length - used
  let (significand, behind) := gather significand n.fraction
  let place : Int := (left : Int) - behind
  let size? : Option Float :=
    let x := (UInt64.ofNat significand).toFloat
    match n.exponent with
    | none => scaled? x place
    | some (negative, digits) =>
      let e := ofDigits digits
      if maxExponent < e then
        if significand ≠ 0 ∧ negative = false then none else some 0
      else scaled? x (if negative then place - e else place + e)
  size?.map fun x => if n.negative then -x else x

/-- The value of a numeral.  Minus zero is a double. -/
def value? (n : Numeral) : Option JsonNumber :=
  let whole := ofDigits n.whole
  let isWhole := n.fraction.isEmpty && n.exponent.isNone
  if isWhole && !n.negative && whole < UInt64.size then some (.integer whole)
  else if isWhole && n.negative && 0 < whole && 2 * whole ≤ UInt64.size then
    some (.integer (-whole))
  else n.double?.map .double

end Numeral

end DebugGuard
