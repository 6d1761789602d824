/-!
# Binary numbers

A finite number is a sign, a whole mantissa and a power of two.  `Binary.ofFloat` reads these off
the bits of a double and `Binary.toFloat` puts a mantissa and an exponent that a double can hold
back together. `isIntegral`, `natAbs?` and `remainder` are exact computations on the decoded form.
-/

namespace LiveMarkup

/-- A number taken apart: `finite neg m q` stands for `± m * 2 ^ q`. -/
inductive Binary where
  | nan
  | infinite (neg : Bool)
  | finite (neg : Bool) (mantissa : Nat) (exponent : Int)
  deriving Repr, DecidableEq

namespace Binary

/-- The parts of a double. -/
def ofFloat (x : Float) : Binary :=
  let bits : Nat := x.toBits.toNat
  let neg := bits / Nat.pow 2 63 == 1
  let biased : Nat := bits / Nat.pow 2 52 % Nat.pow 2 11
  let fraction : Nat := bits % Nat.pow 2 52
  if biased = 2047 then
    if fraction = 0 then infinite neg else nan
  else if biased = 0 then finite neg fraction (-1074)
  else finite neg (Nat.pow 2 52 + fraction) ((biased : Int) - 1075)

/-- `m * 2 ^ q` cut down to a whole number. -/
def shift (m : Nat) (q : Int) : Nat :=
  if 0 ≤ q then m * Nat.pow 2 q.toNat else m / Nat.pow 2 (-q).toNat

/-- The double `± m * 2 ^ q`, for a value that a double can hold. -/
def toFloat (neg : Bool) (m : Nat) (q : Int) : Float :=
  let top := if neg then Nat.pow 2 63 else 0
  if m = 0 then Float.ofBits (UInt64.ofNat top)
  else
    let up : Int := 52 - (Nat.log2 m : Int)
    let biased := q - up + 1075
    if 0 < biased then
      Float.ofBits (UInt64.ofNat (top + biased.toNat * Nat.pow 2 52 + (shift m up - Nat.pow 2 52)))
    else
      Float.ofBits (UInt64.ofNat (top + shift m (q + 1074)))

/-- Whether a finite number has no fractional part. -/
def isIntegral : Binary → Bool
  | finite _ m q => 0 ≤ q || m % Nat.pow 2 (-q).toNat == 0
  | _ => false

/-- The magnitude of an integral number. -/
def natAbs? : Binary → Option Nat
  | finite neg m q => if (finite neg m q).isIntegral then some (shift m q) else none
  | _ => none

end Binary

/-- The remainder of a truncating division, exact, with the sign of the dividend. -/
def remainder (a b : Float) : Float :=
  match Binary.ofFloat a, Binary.ofFloat b with
  | .finite neg m q, .finite _ n p =>
    if n = 0 then 0.0 / 0.0
    else
      let low := min q p
      Binary.toFloat neg (Binary.shift m (q - low) % Binary.shift n (p - low)) low
  | .finite .., .infinite _ => a
  | _, _ => 0.0 / 0.0

end LiveMarkup
