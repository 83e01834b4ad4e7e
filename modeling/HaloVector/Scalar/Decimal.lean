import HaloVector.Scalar

/-!
# Scalars in decimal

The text of a scalar has the fewest digits that read back as the same scalar,
and of those the nearest, written positionally at any size.

A finite scalar is `m * 2 ^ q`. The reals that round to it form an interval whose
ends lie halfway to its neighbours and belong to it when `m` is even. For one,
two, ... seventeen digits, only the two points of the decimal grid around the
scalar can be the nearest point inside that interval, so only these are tried.
All comparisons are between natural numbers.
-/

namespace HaloVector.Scalar

/-! ## The interval of a scalar -/

/-- A scalar and the ends of its interval, as fractions over `den`. -/
structure Span where
  low : Nat
  value : Nat
  high : Nat
  den : Nat
  /-- Whether the ends themselves round to the scalar. -/
  closed : Bool
deriving DecidableEq, Repr

/-- The bit of a mantissa that is not part of a pattern. -/
def implicitBit : Nat := 0x10000000000000

/-- The interval of a finite scalar. The neighbour below a power of two is only
half as far away as the one above it. -/
def span (x : Scalar) : Span :=
  let field := x.magnitude / implicitBit
  let fraction := x.magnitude % implicitBit
  let m := if field = 0 then fraction else fraction + implicitBit
  let scale := if field = 0 then 1 else field
  let below := if fraction = 0 ∧ 1 < field then 1 else 2
  -- one unit is a quarter of the last place, two to the power of scale - 1077
  let unit := Nat.pow 2 (scale - 1077)
  { low := (4 * m - below) * unit
    value := 4 * m * unit
    high := (4 * m + 2) * unit
    den := Nat.pow 2 (1077 - scale)
    closed := m % 2 = 0 }

/-! ## Decimal grids -/

/-- The decimal number `digits * 10 ^ exponent`. -/
structure Decimal where
  digits : Nat
  exponent : Int
deriving DecidableEq, Repr

/-- The power `10 ^ e` as a fraction. -/
def tenTo (e : Int) : Nat × Nat := (Nat.pow 10 e.toNat, Nat.pow 10 (-e).toNat)

def Span.contains (s : Span) (d : Decimal) : Bool :=
  let (num, den) := tenTo d.exponent
  let point := d.digits * num * s.den
  if s.closed then s.low * den ≤ point ∧ point ≤ s.high * den
  else s.low * den < point ∧ point < s.high * den

/-- The exponent `k` with `10 ^ (k - 1) ≤ value < 10 ^ k`. -/
def Span.magnitude (s : Span) : Int :=
  let whole := s.value / s.den
  if whole = 0 then
    -(((List.range 324).findIdx fun zeros =>
      s.den ≤ s.value * Nat.pow 10 (zeros + 1) : Nat) : Int)
  else (Nat.toDigits 10 whole).length

/-- The nearest point of the interval on the grid of `count` digits; a point
halfway between two goes to the upper one. -/
def Span.onGrid? (s : Span) (count : Nat) : Option Decimal :=
  let exponent := s.magnitude - count
  let (num, den) := tenTo exponent
  let digits := s.value * den / (s.den * num)
  let lower : Decimal := ⟨digits, exponent⟩
  let upper : Decimal := ⟨digits + 1, exponent⟩
  match s.contains lower, s.contains upper with
  | true, true =>
    if 2 * (s.value * den) < (2 * digits + 1) * (s.den * num) then some lower else some upper
  | true, false => some lower
  | false, true => some upper
  | false, false => none

/-- The decimal with the fewest digits inside the interval. -/
def Span.shortest (s : Span) : Decimal :=
  ((List.range' 1 17).findSome? s.onGrid?).getD ⟨0, 0⟩

/-! ## Text -/

/-- Drops zeros at the end of `places` decimal places. -/
def dropZeros : (places digits : Nat) → Nat × Nat
  | 0, digits => (0, digits)
  | places + 1, digits =>
    if digits % 10 = 0 then dropZeros places (digits / 10) else (places + 1, digits)

def Decimal.text (d : Decimal) : String :=
  let (places, digits) := dropZeros (-d.exponent).toNat d.digits
  let figures := Nat.toDigits 10 (digits * Nat.pow 10 d.exponent.toNat)
  let padded := List.replicate (places + 1 - figures.length) '0' ++ figures
  let whole := padded.take (padded.length - places)
  let rest := padded.drop (padded.length - places)
  String.ofList (if rest.isEmpty then whole else whole ++ '.' :: rest)

/-- The text of a scalar: `NaN`, `inf`, or the shortest decimal that reads back,
after a `-` if the sign is set. -/
def text (x : Scalar) : String :=
  if x.isNaN then "NaN"
  else
    let size :=
      if x.magnitude = infinity.magnitude then "inf"
      else if x.magnitude = 0 then "0"
      else x.span.shortest.text
    if x.isNegative then "-" ++ size else size

end HaloVector.Scalar
