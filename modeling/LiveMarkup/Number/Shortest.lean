import LiveMarkup.Number.Binary

/-!
# Shortest decimals

The text of a number has the fewest digits that still read back as the same double.  A double
`m * 2 ^ q` is what every real between two bounds rounds to, the bounds included when `m` is even.
`shortest` tries the decimal grids of 1, 2, … 17 digits; on each one only the two neighbours of the
value can lie in the interval.  The first grid with a hit wins, of two hits the nearer, and an exact
tie goes up.
-/

namespace LiveMarkup

/-- `digits * 10 ^ exponent`. -/
structure Decimal where
  digits : Nat
  exponent : Int
  deriving Repr, DecidableEq

namespace Decimal

/-- The same decimal with at most `n` trailing zeros moved into the exponent. -/
def strip : Nat → Decimal → Decimal
  | 0, d => d
  | n + 1, d => if d.digits % 10 = 0 then strip n ⟨d.digits / 10, d.exponent + 1⟩ else d

/-- Positional notation without an exponent. -/
def text (d : Decimal) : String :=
  let ds := Nat.toDigits 10 d.digits
  if 0 ≤ d.exponent then String.ofList (ds ++ List.replicate d.exponent.toNat '0')
  else
    let places := (-d.exponent).toNat
    if places < ds.length then
      String.ofList (ds.take (ds.length - places) ++ '.' :: ds.drop (ds.length - places))
    else String.ofList ('0' :: '.' :: (List.replicate (places - ds.length) '0' ++ ds))

end Decimal

/-- A positive double and the bounds of the reals that round to it, all over one denominator. -/
structure Rounding where
  low : Nat
  value : Nat
  high : Nat
  denominator : Nat
  inclusive : Bool

namespace Rounding

/-- The interval around `m * 2 ^ q`.  Below a power of two the neighbour is only half as far. -/
def ofBinary (m : Nat) (q : Int) : Rounding :=
  let step := Nat.pow 2 q.toNat
  let below := if m = Nat.pow 2 52 ∧ -1074 < q then step else 2 * step
  ⟨4 * m * step - below, 4 * m * step, 4 * m * step + 2 * step,
    4 * Nat.pow 2 (-q).toNat, m % 2 == 0⟩

/-- Whether `c / d` lies in the interval. -/
def holds (r : Rounding) (c d : Nat) : Bool :=
  if r.inclusive then r.low * d ≤ c * r.denominator && c * r.denominator ≤ r.high * d
  else r.low * d < c * r.denominator && c * r.denominator < r.high * d

/-- Whether the value is at least `10 ^ k`. -/
def atLeastPower (r : Rounding) (k : Int) : Bool :=
  r.denominator * Nat.pow 10 k.toNat ≤ r.value * Nat.pow 10 (-k).toNat

/-- The number `k` with `10 ^ (k - 1) ≤ value < 10 ^ k`, from an estimate that is off by at most
one. -/
def magnitude (r : Rounding) : Int :=
  let bits : Int := (Nat.log2 r.value : Int) - (Nat.log2 r.denominator : Int)
  let guess := bits * 30103 / 100000
  if r.atLeastPower (guess + 1) then guess + 2
  else if r.atLeastPower guess then guess + 1
  else guess

/-- The better neighbour of the value among the multiples of `10 ^ e`, if one reads back. -/
def onGrid (r : Rounding) (e : Int) : Option Decimal :=
  let up := Nat.pow 10 (-e).toNat
  let down := Nat.pow 10 e.toNat
  let below := r.value * up / (r.denominator * down)
  let lowHit := r.holds (below * down) up
  let highHit := r.holds ((below + 1) * down) up
  let nearer := 2 * (r.value * up) < (2 * below + 1) * (r.denominator * down)
  if lowHit && (!highHit || nearer) then some ⟨below, e⟩
  else if highHit then some ⟨below + 1, e⟩
  else none

/-- The first grid with a hit, from `n` digits on, among `fuel` grids. -/
def search (r : Rounding) (k : Int) : Nat → Nat → Decimal
  | n, 0 => ⟨r.value / r.denominator, k - n⟩
  | n, fuel + 1 =>
    match r.onGrid (k - n) with
    | some d => d
    | none => search r k (n + 1) fuel

end Rounding

/-- The shortest decimal that reads back as the positive double `m * 2 ^ q`. -/
def shortest (m : Nat) (q : Int) : Decimal :=
  let r := Rounding.ofBinary m q
  (r.search r.magnitude 1 17).strip 20

end LiveMarkup
