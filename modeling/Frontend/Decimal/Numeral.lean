import Frontend.Decimal.Shortest

/-!
Numerals: doubles as text and back. Written numerals have the fewest digits that read back and
always a point or an exponent, so that they differ from integers; read numerals follow the usual
decimal grammar with an optional sign, point and exponent.
-/
namespace Frontend.Decimal

/-- Where the point may stand, counted from the first digit, for a numeral without an exponent. -/
structure Layout where
  leastPoint : Int
  mostPoint : Int

/-- No exponent from one ten-thousandth to below `10 ^ 16`. -/
def literal : Layout := ⟨-3, 16⟩

def zeros (n : Nat) : List Char := List.replicate n '0'

/-- Digits with the point after the first `point` of them, and a digit on both sides of it. -/
def positional (digits : List Char) (point : Int) : List Char :=
  if point ≤ 0 then '0' :: '.' :: (zeros (-point).toNat ++ digits)
  else
    let whole := digits.take point.toNat
    let fraction := digits.drop point.toNat
    whole ++ zeros (point.toNat - digits.length) ++
      '.' :: (if fraction.isEmpty then ['0'] else fraction)

/-- One digit before the point, then the power of ten. -/
def scientific (digits : List Char) (point : Int) : List Char :=
  let fraction := digits.drop 1
  digits.take 1 ++ (if fraction.isEmpty then [] else '.' :: fraction) ++
    'e' :: (toString (point - 1)).toList

def Scaled.text (l : Layout) (d : Scaled) : String :=
  let digits := Nat.toDigits 10 d.digits
  let point := digits.length + d.exponent
  String.ofList
    (if l.leastPoint ≤ point ∧ point ≤ l.mostPoint then positional digits point
     else scientific digits point)

def Double.text (l : Layout) : Double → String
  | .nan => "NaN"
  | .infinite negative => if negative then "-inf" else "inf"
  | .finite negative m e =>
    let sign := if negative then "-" else ""
    if m = 0 then sign ++ "0.0"
    else sign ++ (Target.shortest ⟨m, e, m = pow2 52 ∧ -1074 < e⟩).text l

def text (x : Float) : String := (Double.ofFloat x).text literal

/-- The value of a run of decimal digits. -/
def naturalOf (digits : List Char) : Nat :=
  digits.foldl (fun n c => 10 * n + (c.toNat - '0'.toNat)) 0

/-- `digits · 10 ^ exponent` to the nearest double. Beyond the powers of ten that doubles reach, the
size alone decides. -/
def Scaled.toFloat (negative : Bool) (d : Scaled) : Float :=
  let size := (Nat.toDigits 10 d.digits).length + d.exponent
  if d.digits = 0 ∨ size < -400 then ofRatio negative 0 1
  else if 400 < size then ofRatio negative (pow2 1024) 1
  else ofRatio negative (d.digits * pow10 d.exponent.toNat) (pow10 (-d.exponent).toNat)

def readSign : List Char → Bool × List Char
  | '-' :: cs => (true, cs)
  | '+' :: cs => (false, cs)
  | cs => (false, cs)

/-- What may follow the digits: nothing, or `e` and a signed run of digits. -/
def readExponent? : List Char → Option Int
  | [] => some 0
  | c :: cs =>
    let (negative, digits) := readSign cs
    if (c = 'e' ∨ c = 'E') ∧ digits ≠ [] ∧ digits.all Char.isDigit then
      let n : Int := naturalOf digits
      some (if negative then -n else n)
    else none

/-- Digits on at least one side of an optional point, then the exponent. -/
def readDecimal? (cs : List Char) : Option Scaled := do
  let whole := cs.takeWhile Char.isDigit
  let rest := cs.dropWhile Char.isDigit
  let (fraction, rest) := match rest with
    | '.' :: r => (r.takeWhile Char.isDigit, r.dropWhile Char.isDigit)
    | r => ([], r)
  if whole.isEmpty && fraction.isEmpty then none
  else
    let exponent ← readExponent? rest
    return ⟨naturalOf (whole ++ fraction), exponent - fraction.length⟩

def read? (s : String) : Option Float :=
  let (negative, cs) := readSign s.toList
  let word := String.ofList (cs.map Char.toLower)
  if word = "inf" ∨ word = "infinity" then some (ofRatio negative (pow2 1024) 1)
  else if word = "nan" then some (.ofBits (.ofNat (signBit negative + 0x7FF8000000000000)))
  else (readDecimal? cs).map (Scaled.toFloat negative)

end Frontend.Decimal
