/-!
Double-precision numbers as exact values. A finite double is a sign, a mantissa below `2 ^ 53` and a
power of two; `nearestBits` goes the other way, from a quotient of naturals to the double nearest
to it, a tie to the even mantissa.
-/
namespace Frontend.Decimal

/-- `2 ^ n`. -/
def pow2 (n : Nat) : Nat := Nat.pow 2 n

/-- `10 ^ n`. -/
def pow10 (n : Nat) : Nat := Nat.pow 10 n

/-- The least signed 64-bit integer. -/
def leastWord : Int := -9223372036854775808

/-- The greatest signed 64-bit integer. -/
def greatestWord : Int := 9223372036854775807

inductive Double where
  | nan
  | infinite (negative : Bool)
  /-- `± mantissa · 2 ^ exponent`. -/
  | finite (negative : Bool) (mantissa : Nat) (exponent : Int)
  deriving DecidableEq, Repr

namespace Double

def ofFloat (x : Float) : Double :=
  let bits := x.toBits.toNat
  let negative := decide (pow2 63 ≤ bits)
  let biased : Nat := bits / pow2 52 % pow2 11
  let fraction := bits % pow2 52
  if biased = 2047 then
    if fraction = 0 then infinite negative else nan
  else if biased = 0 then finite negative fraction (-1074)
  else finite negative (pow2 52 + fraction) (biased - 1075)

/-- Toward zero, and to the nearer end where a signed 64-bit integer ends. -/
def toInteger : Double → Int
  | nan => 0
  | infinite negative => if negative then leastWord else greatestWord
  | finite negative m e =>
    let size : Nat := m * pow2 e.toNat / pow2 (-e).toNat
    if negative then max (-(size : Int)) leastWord else min (size : Int) greatestWord

end Double

/-- The quotient rounded to the nearest natural, a half to the even one. -/
def roundDiv (num den : Nat) : Nat :=
  let low := num / den
  let twice := 2 * (num % den)
  if twice < den || (twice = den && low % 2 = 0) then low else low + 1

/-- Bits of the double nearest to `num / den`, which is positive or zero. The mantissa takes 53 bits
unless that needs a power of two below `2 ^ (-1074)`; the bits count up through all doubles, so a
mantissa rounded up to `2 ^ 53` is the next power of two, and past the last one stands infinity. -/
def nearestBits (num den : Nat) : Nat :=
  if num = 0 then 0 else
  let guess : Int := (num.log2 : Int) - den.log2 - 53
  let wide := decide (den * pow2 (guess + 53).toNat ≤ num * pow2 (-(guess + 53)).toNat)
  let e := max (if wide then guess + 1 else guess) (-1074)
  let m := roundDiv (num * pow2 (-e).toNat) (den * pow2 e.toNat)
  min ((e + 1074).toNat * pow2 52 + m) (2047 * pow2 52)

def signBit (negative : Bool) : Nat := if negative then pow2 63 else 0

def ofRatio (negative : Bool) (num den : Nat) : Float :=
  .ofBits (.ofNat (signBit negative + nearestBits num den))

def ofInteger (n : Int) : Float := ofRatio (decide (n < 0)) n.natAbs 1

end Frontend.Decimal
