import LiveMarkup.Error
import LiveMarkup.Expr.Grammar
import LiveMarkup.Text.WordChar

/-!
# Headers of each-blocks

The header `items as item, index` of an each-block is a collection, the word `as` with blanks on
both sides, and up to three names, which may stand in parentheses.  Where several words `as` stand
in the header the last one that leaves something to bind counts.  The collection is as long as it
can be, the binding text as short as it can be, and neither holds a line feed.

Blanks at the ends of a header belong to neither part.  Only where nothing else is left for a part,
one of them has to stand for it.
-/

namespace LiveMarkup

namespace EachHeader

/-- The last character that is no line feed. -/
def lastInLine? (s : List Char) : Option Char :=
  s.reverse.find? (· != '\n')

/-- The binding text of a text after the word `as`, where `trail` are the blanks after that text. -/
def bindingText? (s trail : List Char) : Option (List Char) :=
  match s with
  | [] => (lastInLine? trail.tail).map fun c => [c]
  | c :: cs =>
    let t := cs.dropWhile isBlank
    if isBlank c ∧ t.all (· != '\n') then some t else none

/-- The binding text of a text that starts with the word `as`. -/
def afterWord? (s trail : List Char) : Option (List Char) :=
  (after? "as".toList s).bind fun r => bindingText? r trail

/-- What stands before the last blank that a word `as` with a binding text follows, and that binding
text. Only the first line and the line feed behind it are searched, since no more can belong to a
collection. -/
def splitLine? (s trail : List Char) : Option (List Char × List Char) :=
  match s with
  | [] => none
  | c :: cs =>
    if c = '\n' then (afterWord? (cs.dropWhile isBlank) trail).map fun b => ([], b)
    else
      match splitLine? cs trail with
      | some (collection, b) => some (c :: collection, b)
      | none => if isBlank c then (afterWord? cs trail).map fun b => ([], b) else none

/-- Collection and binding text of a header. -/
def split? (s : List Char) : Option (List Char × List Char) :=
  let lead := s.takeWhile isBlank
  let body := ((s.dropWhile isBlank).reverse.dropWhile isBlank).reverse
  let trail := ((s.dropWhile isBlank).reverse.takeWhile isBlank).reverse
  match body with
  | [] => none
  | c :: cs =>
    match splitLine? cs trail with
    | some (collection, b) => some (c :: collection, b)
    | none =>
      match lastInLine? lead.dropLast with
      | some l => (afterWord? body trail).map fun b => ([l], b)
      | none => none

def isParen (c : Char) : Bool := c == '(' || c == ')'

/-- The text without parentheses at its ends. -/
def stripParens (s : List Char) : List Char :=
  ((s.dropWhile isParen).reverse.dropWhile isParen).reverse

/-- Whether a name can be bound. -/
def isBindable : List Char → Bool
  | [] => false
  | c :: cs => Grammar.isIdentStart c && cs.all fun d => isWord d || d == '$'

/-- The names of a binding text. -/
def names (s : List Char) : List (List Char) :=
  (splitOn ',' (stripParens s)).map trimChars

/-- At most item, index and collection are bound. -/
def maxNames : Nat := 3

/-- The collection and the names of a header. -/
def parse (header : List Char) : Except TemplateError (Expr × List String) :=
  match split? header with
  | none => .error (.badEachHeader (String.ofList header))
  | some (collection, bindings) =>
    match Expr.parse (String.ofList collection) with
    | .error e => .error e
    | .ok e =>
      let ns := names bindings
      if ns.length ≤ maxNames ∧ ns.all isBindable then .ok (e, ns.map String.ofList)
      else .error (.badEachBindings (String.ofList bindings))

end EachHeader

end LiveMarkup
