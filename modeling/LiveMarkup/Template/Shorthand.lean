import LiveMarkup.Grammar.Rule
import LiveMarkup.Text.WordChar

/-!
# Event shorthand

`@click="save"` is short for the marker attribute `data-event="click,save"`.  `expandShorthand`
writes out every shorthand of a text: an `@`, small letters, `="`, word characters or dollar signs,
and `"`.
-/

namespace LiveMarkup

/-- The attribute that carries an event marker. -/
def eventAttribute : String := "data-event"

namespace Shorthand

open Rule

/-- The event and the method of a shorthand. -/
def shorthand : Rule (List Char × List Char) := do
  token "@"
  let kind ← run1 fun c => c.isLower
  token "=\""
  let method ← run1 fun c => isWord c || c == '$'
  token "\""
  pure (kind, method)

theorem advances_shorthand : shorthand.Advances := (advances_token (by decide)).bind

/-- The marker attribute for an event and a method. -/
def marker (kind method : List Char) : List Char :=
  eventAttribute.toList ++ "=\"".toList ++ kind ++ [','] ++ method ++ ['"']

/-- The text with its shorthands written out. -/
def expand (s : List Char) : List Char :=
  match s with
  | [] => []
  | c :: cs =>
    match _h : shorthand.read (c :: cs) with
    | .ok (kind, method) r => marker kind method ++ expand r
    | _ => c :: expand cs
termination_by s.length
decreasing_by
  · exact advances_shorthand _h
  · simp

end Shorthand

/-- The text with its shorthands written out. -/
def expandShorthand (s : String) : String :=
  String.ofList (Shorthand.expand s.toList)

end LiveMarkup
