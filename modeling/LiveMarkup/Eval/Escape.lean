import LiveMarkup.Eval.World
import LiveMarkup.Value.Text

/-!
# Escaping

`escapeHtml` writes a value into markup.  `null` and `undefined` become nothing; a function is
called and its result written; arrays are written item by item with commas between, and an array met
again inside itself becomes nothing.  Results of functions and items of arrays are always escaped,
any other value only on request.  The arrays that are open are those that are locked for the
functions called.
-/

namespace LiveMarkup

/-- The text of a character in markup, the same in element content and in attribute values. -/
def escapeChar : Char → List Char
  | '&' => "&amp;".toList
  | '<' => "&lt;".toList
  | '>' => "&gt;".toList
  | '"' => "&quot;".toList
  | '\'' => "&#039;".toList
  | c => [c]

/-- Text with its markup characters escaped. -/
def escapeText (s : String) : String :=
  String.ofList (s.toList.flatMap escapeChar)

/-- The texts of several values, written one after the other. -/
def writeEach {W : Type} (write : Value → W → Except Stop String × W) :
    List Value → W → Except Stop (List String) × W
  | [], w => (.ok [], w)
  | v :: vs, w =>
    match write v w with
    | (.error why, w') => (.error why, w')
    | (.ok t, w') =>
      match writeEach write vs w' with
      | (.error why, w'') => (.error why, w'')
      | (.ok ts, w'') => (.ok (t :: ts), w'')

/-- A value written while the arrays `opn` are open, at most `n` values deep. -/
def escapeWithin {σ : Type} (rt : Runtime σ) :
    Nat → List ArrayId → Bool → Value → World σ → Except Stop String × World σ
  | 0, _, _, _, w => (.error .bound, w)
  | n + 1, opn, escape, v, w =>
    match v with
    | .undefined | .null => (.ok "", w)
    | .function f =>
      match rt.call opn f [] w with
      | (.error why, w') => (.error why, w')
      | (.ok v', w') => escapeWithin rt n opn true v' w'
    | .array r =>
      if r ∈ opn then (.ok "", w)
      else
        match writeEach (escapeWithin rt n (r :: opn) true) (w.heap.items r).toList w with
        | (.error why, w') => (.error why, w')
        | (.ok ts, w') => (.ok (",".intercalate ts), w')
    | v => (.ok (if escape then escapeText v.plainText else v.plainText), w)

/-- The markup text of a value.  The bound lets every array be open once besides the nested results
of functions, so a value without functions is always written. -/
def escapeHtml {σ : Type} : Escape σ := fun rt v escape w =>
  escapeWithin rt (w.heap.arrays.size + rt.depth + 2) [] escape v w

end LiveMarkup
