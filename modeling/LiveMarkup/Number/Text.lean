import LiveMarkup.Number.Shortest

/-!
# The text of a number

`numberText` is how a number is displayed: integers below `10 ^ 21` with all their digits,
everything else with the shortest digits that read back, always in positional notation, and without
a sign on zero. `shortestText` uses the shortest digits throughout and is the form of stored
fractions.
-/

namespace LiveMarkup

/-- A minus sign where one is wanted. -/
def signText (neg : Bool) : String :=
  if neg then "-" else ""

/-- From this magnitude on integers are shown by their shortest digits. -/
def exactIntegerBound : Nat := Nat.pow 10 21

/-- The displayed text of a number. -/
def numberText (x : Float) : String :=
  match Binary.ofFloat x with
  | .nan => "NaN"
  | .infinite neg => signText neg ++ "Infinity"
  | .finite neg m q =>
    if m = 0 then "0"
    else
      match (Binary.finite neg m q).natAbs? with
      | some n =>
        if n < exactIntegerBound then signText neg ++ toString n
        else signText neg ++ (shortest m q).text
      | none => signText neg ++ (shortest m q).text

/-- The text of a number by its shortest digits alone. -/
def shortestText (x : Float) : String :=
  match Binary.ofFloat x with
  | .nan => "NaN"
  | .infinite neg => signText neg ++ "inf"
  | .finite neg m q => signText neg ++ (if m = 0 then "0" else (shortest m q).text)

end LiveMarkup
