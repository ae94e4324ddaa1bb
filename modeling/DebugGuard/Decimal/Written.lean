import DebugGuard.Decimal.Shortest

/-!
# Doubles as text

A double is written with the fewest digits that identify it.  From `0.00001` up to sixteen digits
before the point it is written plainly, with at least one digit behind the point; beyond that in
scientific form, with a sign and no padding in the exponent.
-/

namespace DebugGuard

namespace Decimal

/-- How decimals are laid out. -/
structure Layout where
  /-- The least power of ten of the leading digit that is written plainly. -/
  plainFrom : Int
  /-- The first power of ten of the leading digit that is too large to be written plainly. -/
  plainBelow : Int

/-- The layout of numbers in settings. -/
def layout : Layout := ⟨-5, 16⟩

/-- A decimal as text. -/
def written (l : Layout) (d : Decimal) : String :=
  let digits := Nat.toDigits 10 d.digits
  let count := digits.length
  let leading : Int := d.exponent + count - 1
  let zeros (n : Nat) : List Char := List.replicate n '0'
  let cs :=
    if d.digits = 0 then ['0', '.', '0']
    else if leading < l.plainFrom ∨ l.plainBelow ≤ leading then
      let tail := digits.drop 1
      let mantissa := digits.take 1 ++ if tail.isEmpty then [] else '.' :: tail
      mantissa ++ ['e', if leading < 0 then '-' else '+'] ++ Nat.toDigits 10 leading.natAbs
    else if 0 ≤ d.exponent then digits ++ zeros d.exponent.toNat ++ ['.', '0']
    else if 0 ≤ leading then
      let whole := leading.toNat + 1
      digits.take whole ++ '.' :: digits.drop whole
    else '0' :: '.' :: zeros (-leading - 1).toNat ++ digits
  String.ofList cs

end Decimal

/-- A finite double as text. -/
def Double.written (x : Float) : String :=
  let bits := x.toBits
  let text := (Double.ofBits bits).shortest.written Decimal.layout
  if UInt64.size ≤ 2 * bits.toNat then "-" ++ text else text

end DebugGuard
