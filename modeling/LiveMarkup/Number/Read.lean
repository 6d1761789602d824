import LiveMarkup.Number.Binary

/-!
# Reading numbers

`readNumber?` accepts an optional sign and then either one of the words `inf`, `infinity`, `nan` in
any case, or digits with an optional point and an optional exponent, and rounds to the nearest
double. `readIndex?` accepts decimal digits, after an optional plus sign, of a number that fits 64
bits.

A number may have any number of digits.  Those beyond `maxDigits` matter only by being zero or not,
because two neighbouring doubles and the point half way between them have fewer digits than that.
-/

namespace LiveMarkup

/-- The value of a digit. -/
def digitValue (c : Char) : Nat := c.toNat - '0'.toNat

/-- The value of a run of decimal digits. -/
def digitsValue (cs : List Char) : Nat :=
  cs.foldl (fun n c => 10 * n + digitValue c) 0

/-- The digits at the head of a text and what follows them. -/
def spanDigits (cs : List Char) : List Char × List Char :=
  (cs.takeWhile Char.isDigit, cs.dropWhile Char.isDigit)

/-- The double nearest to `m * 10 ^ e`.  Values beyond all doubles become infinite or zero at
once. -/
def ofDecimal (m : Nat) (e : Int) : Float :=
  let size : Int := (Nat.toDigits 10 m).length
  if m = 0 then 0.0
  else if 310 < size + e then 1.0 / 0.0
  else if size + e < -330 then 0.0
  else if 0 ≤ e then Float.ofScientific m false e.toNat
  else Float.ofScientific m true (-e).toNat

/-- The number of significant digits that are kept of a number. -/
def maxDigits : Nat := 800

/-- The double nearest to `m * 10 ^ e`, where `m` is the value of the digits `ds`. -/
def ofDigits (ds : List Char) (e : Int) : Float :=
  let ds := ds.dropWhile (· == '0')
  let head := ds.take maxDigits
  let tail := ds.drop maxDigits
  if tail.all (· == '0') then ofDecimal (digitsValue head) (e + tail.length)
  else ofDecimal (10 * digitsValue head + 1) (e + tail.length - 1)

/-- The value of the digits of an exponent.  From `2 ^ 16` on further digits add nothing. -/
def exponentValue (ds : List Char) : Nat :=
  ds.foldl (fun n c => if n < Nat.pow 2 16 then 10 * n + digitValue c else n) 0

/-- The value of an exponent part, if it is well formed: nothing, or `e`, a sign and digits. -/
def readExponent? : List Char → Option Int
  | [] => some 0
  | c :: cs =>
    if c = 'e' ∨ c = 'E' then
      let (neg, ds) := match cs with
        | '-' :: r => (true, r)
        | '+' :: r => (false, r)
        | r => (false, r)
      if ds ≠ [] ∧ ds.all Char.isDigit then
        some (if neg then -(exponentValue ds : Int) else (exponentValue ds : Int))
      else none
    else none

/-- An unsigned decimal number with optional point and exponent. -/
def readUnsigned? (cs : List Char) : Option Float :=
  let (whole, rest) := spanDigits cs
  let (fraction, rest) := match rest with
    | '.' :: r => spanDigits r
    | r => ([], r)
  if whole = [] ∧ fraction = [] then none
  else
    (readExponent? rest).map fun e =>
      ofDigits (whole ++ fraction) (e - (fraction.length : Int))

/-- A sign at the head of a number, and the rest. -/
def splitSign : List Char → Bool × List Char
  | '-' :: r => (true, r)
  | '+' :: r => (false, r)
  | r => (false, r)

/-- The number that the whole of a text denotes. -/
def readNumber? (s : String) : Option Float :=
  let (neg, body) := splitSign s.toList
  let word := String.ofList (body.map Char.toLower)
  let magnitude :=
    if word = "inf" ∨ word = "infinity" then some (1.0 / 0.0)
    else if word = "nan" then some (0.0 / 0.0)
    else readUnsigned? body
  magnitude.map fun x => if neg then -x else x

/-- The number of digits of the greatest index. -/
def maxIndexDigits : Nat := 20

/-- The index that the whole of a text denotes. -/
def readIndex? (s : String) : Option Nat :=
  let ds := match s.toList with
    | '+' :: r => r
    | r => r
  if ds ≠ [] ∧ ds.all Char.isDigit ∧ (ds.dropWhile (· == '0')).length ≤ maxIndexDigits then
    let n := digitsValue ds
    if n < Nat.pow 2 64 then some n else none
  else none

end LiveMarkup
