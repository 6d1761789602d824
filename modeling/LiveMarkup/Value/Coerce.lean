import LiveMarkup.Value.Text
import LiveMarkup.Number.Read
import LiveMarkup.Text.Blank

/-!
# Coercions and comparisons

Numbers and texts of values, and the operators that rest on them: `strictEq` (`===`), `looseEq`
(`==`), `compare?` (`<` and its kin) and `add` (`+`).  Containers and functions stand for their text
wherever a primitive value is wanted.
-/

namespace LiveMarkup

/-- The number a text stands for: blank text is zero and text that is no number is not a number. -/
def textNumber (s : String) : Float :=
  let t := trim s
  if t = "" then 0.0 else (readNumber? t).getD (0.0 / 0.0)

namespace Value

/-- The number a value stands for. -/
def toNumber (h : Heap) : Value → Float
  | undefined | function _ => 0.0 / 0.0
  | null => 0.0
  | bool b => if b then 1.0 else 0.0
  | number x => x
  | string s => textNumber s
  | array r => textNumber ((array r).text h)
  | object r => textNumber ((object r).text h)

/-- A value as itself or, for a container or a function, as its text. -/
def toPrimitive (h : Heap) (v : Value) : Value :=
  if v.isPrimitive then v else string (v.text h)

/-- Same kind and same value; containers and functions by name. -/
def strictEq : Value → Value → Bool
  | undefined, undefined => true
  | null, null => true
  | bool a, bool b => a == b
  | number a, number b => a == b
  | string a, string b => a == b
  | array a, array b => a == b
  | object a, object b => a == b
  | function a, function b => a == b
  | _, _ => false

/-- A truth value as a number, any other value as itself. -/
def boolToNumber : Value → Value
  | bool b => number (if b then 1.0 else 0.0)
  | v => v

/-- Equality between a number and a text is numeric, all other equality strict. -/
def mixedEq : Value → Value → Bool
  | number x, string s => x == textNumber s
  | string s, number x => textNumber s == x
  | a, b => strictEq a b

/-- Coercing equality: `null` and `undefined` equal each other and nothing else, truth values count
as numbers, and a container facing a primitive value counts as its text. -/
def looseEq (h : Heap) (a b : Value) : Bool :=
  if a.isNullish || b.isNullish then a.isNullish && b.isNullish
  else
    let a := a.boolToNumber
    let b := b.boolToNumber
    if a.isPrimitive == b.isPrimitive then mixedEq a b
    else mixedEq (a.toPrimitive h) (b.toPrimitive h)

/-- The order of two numbers, absent if one is not a number. -/
def compareNumbers? (x y : Float) : Option Ordering :=
  if x < y then some .lt else if y < x then some .gt else if x == y then some .eq else none

/-- The order of two texts, by code points. -/
def compareTexts (s t : String) : Ordering :=
  if s < t then .lt else if t < s then .gt else .eq

/-- Order of two values: two texts by their characters, all else by number. -/
def compare? (h : Heap) (a b : Value) : Option Ordering :=
  match a.toPrimitive h, b.toPrimitive h with
  | string s, string t => some (compareTexts s t)
  | p, q => compareNumbers? (p.toNumber h) (q.toNumber h)

/-- Addition: joins the texts if either operand is a text or stands for one. -/
def add (h : Heap) (a b : Value) : Value :=
  match a.toPrimitive h, b.toPrimitive h with
  | string s, q => string (s ++ q.text h)
  | p, string t => string (p.text h ++ t)
  | p, q => number (p.toNumber h + q.toNumber h)

end Value

end LiveMarkup
