import Frontend.Decimal.Double

/-!
The fewest decimal digits that read back as the same double. A positive double `m · 2 ^ e` stands
for all reals nearer to it than to its neighbours. On the grid of multiples of a power of ten only
the grid points just below and just above the double can be the nearest; grids are tried from
coarse to fine, and the first that has a point in the interval gives the digits.
-/
namespace Frontend.Decimal

/-- The number `digits · 10 ^ exponent`. -/
structure Scaled where
  digits : Nat
  exponent : Int
  deriving DecidableEq, Repr

/-- A positive double with the gap to its lower neighbour: at the start of a power of two the gap
below is half the gap above. -/
structure Target where
  mantissa : Nat
  exponent : Int
  halfBelow : Bool
  deriving DecidableEq, Repr

namespace Target

/-- `n · 10 ^ e` and `x · 2 ^ (exponent - 2)` compare as `n * tens e` and `x * twos e`. -/
def tens (t : Target) (e : Int) : Nat := pow10 e.toNat * pow2 (2 - t.exponent).toNat

def twos (t : Target) (e : Int) : Nat := pow2 (t.exponent - 2).toNat * pow10 (-e).toNat

/-- Whether `n · 10 ^ e` reads back as the target. The ends of the interval do if the mantissa is
even. -/
def holds (t : Target) (e : Int) (n : Nat) : Bool :=
  let x := n * t.tens e
  let low := (4 * t.mantissa - if t.halfBelow then 1 else 2) * t.twos e
  let high := (4 * t.mantissa + 2) * t.twos e
  if t.mantissa % 2 = 0 then low ≤ x && x ≤ high else low < x && x < high

/-- The nearest point of the grid that reads back as the target; from the middle, the upper one. -/
def onGrid? (t : Target) (e : Int) : Option Nat :=
  let value := 4 * t.mantissa * t.twos e
  let below := value / t.tens e
  let above := below + 1
  match t.holds e below, t.holds e above with
  | true, true => some (if t.tens e ≤ 2 * (value % t.tens e) then above else below)
  | true, false => some below
  | false, true => some above
  | false, false => none

/-- The least power of ten above the target. -/
def magnitude (t : Target) : Int :=
  let num := t.mantissa * pow2 t.exponent.toNat
  let den := pow2 (-t.exponent).toNat
  if den ≤ num then (Nat.toDigits 10 (num / den)).length
  else 1 - (Nat.toDigits 10 ((den - 1) / num)).length

def firstHit (t : Target) : Nat → Int → Scaled
  | 0, e => ⟨4 * t.mantissa * t.twos e / t.tens e, e⟩
  | more + 1, e =>
    match t.onGrid? e with
    | some n => ⟨n, e⟩
    | none => t.firstHit more (e - 1)

/-- Seventeen digits always suffice. -/
def shortest (t : Target) : Scaled :=
  let d := t.firstHit 17 (t.magnitude - 1)
  if d.digits % 10 = 0 then ⟨d.digits / 10, d.exponent + 1⟩ else d

end Target

end Frontend.Decimal
