import LiveMarkup.Markup.Entity

/-!
# Markup trees

A `Node` is an element with its attributes in order and its children, or a text.  `Node.html` writes
a node as markup: void elements have no closing tag, and the text in raw-text elements is written as
it is.
-/

namespace LiveMarkup

structure Attr where
  name : String
  value : String
  deriving Repr, DecidableEq

inductive Node where
  | element (tag : String) (attrs : List Attr) (children : List Node)
  | text (value : String)
  deriving Repr, Inhabited

/-- The elements that never have children. -/
def voidElements : List String :=
  ["area", "base", "br", "col", "embed", "hr", "img", "input", "link", "meta", "source",
    "track", "wbr"]

def isVoid (tag : String) : Bool := voidElements.contains tag

/-- The elements whose text is written without references. -/
def rawTextElements : List String := ["script", "style"]

def isRawText (tag : String) : Bool := rawTextElements.contains tag

namespace Attr

/-- An attribute as it stands in a tag, with a blank in front. -/
def chars [EntityCodec] (a : Attr) : List Char :=
  ' ' :: (a.name.toList ++ '=' :: '"' :: (EntityCodec.encodeAttribute a.value.toList ++ ['"']))

end Attr

/-- The opening tag of an element. -/
def openTag [EntityCodec] (tag : String) (attrs : List Attr) : List Char :=
  '<' :: (tag.toList ++ (attrs.flatMap Attr.chars ++ ['>']))

/-- The closing tag of an element. -/
def closeTag (tag : String) : List Char := '<' :: '/' :: (tag.toList ++ ['>'])

namespace Node

mutual

/-- Equality of nodes can be decided. -/
def decEq : (n n' : Node) → Decidable (n = n')
  | text t, text t' => decidable_of_iff (t = t') (text.injEq t t').to_iff.symm
  | text _, element .. => isFalse nofun
  | element .., text _ => isFalse nofun
  | element tag attrs children, element tag' attrs' children' =>
    have := decEqAll children children'
    decidable_of_iff (tag = tag' ∧ attrs = attrs' ∧
      children = children') (element.injEq ..).to_iff.symm

/-- Equality of lists of nodes can be decided. -/
def decEqAll : (ns ns' : List Node) → Decidable (ns = ns')
  | [], [] => isTrue rfl
  | [], _ :: _ => isFalse nofun
  | _ :: _, [] => isFalse nofun
  | n :: ns, n' :: ns' =>
    have := decEq n n'
    have := decEqAll ns ns'
    decidable_of_iff (n = n' ∧ ns = ns') (List.cons.injEq ..).to_iff.symm

end

instance : DecidableEq Node := decEq

def isText : Node → Bool
  | text _ => true
  | element .. => false

def asText? : Node → Option String
  | text t => some t
  | element .. => none

def tag? : Node → Option String
  | element tag _ _ => some tag
  | text _ => none

section Markup

variable [EntityCodec]

mutual

/-- A node as markup, inside a raw-text element or elsewhere. -/
def chars (raw : Bool) : Node → List Char
  | text t => if raw then t.toList else EntityCodec.encodeText t.toList
  | element tag attrs children =>
    openTag tag attrs ++
      (if isVoid tag then [] else charsAll (isRawText tag) children ++ closeTag tag)

/-- Several nodes as markup. -/
def charsAll (raw : Bool) : List Node → List Char
  | [] => []
  | n :: ns => chars raw n ++ charsAll raw ns

end

mutual

/-- A node as markup, with a text behind it. -/
def charsBefore (raw : Bool) (rest : List Char) : Node → List Char
  | text t => (if raw then t.toList else EntityCodec.encodeText t.toList) ++ rest
  | element tag attrs children =>
    openTag tag attrs ++
      if isVoid tag then rest else charsAllBefore (isRawText tag) (closeTag tag ++ rest) children

/-- Several nodes as markup, with a text behind them. -/
def charsAllBefore (raw : Bool) (rest : List Char) : List Node → List Char
  | [] => rest
  | n :: ns => n.charsBefore raw (charsAllBefore raw rest ns)

end

mutual

theorem charsBefore_eq (raw : Bool) (rest : List Char) :
    (n : Node) → n.charsBefore raw rest = n.chars raw ++ rest
  | text t => by simp only [charsBefore, chars]
  | element tag attrs children => by
    rw [charsBefore, chars, charsAllBefore_eq (isRawText tag) (closeTag tag ++ rest) children]
    split <;> simp

theorem charsAllBefore_eq (raw : Bool) (rest : List Char) :
    (ns : List Node) → charsAllBefore raw rest ns = charsAll raw ns ++ rest
  | [] => rfl
  | n :: ns => by
    rw [charsAllBefore, charsAll, charsAllBefore_eq raw rest ns, charsBefore_eq raw _ n,
      List.append_assoc]

end

/-- A node as markup. -/
def html (n : Node) : String := String.ofList (n.charsBefore false [])

theorem html_eq (n : Node) : n.html = String.ofList (n.chars false) := by
  rw [html, charsBefore_eq, List.append_nil]

/-- Several nodes as markup, inside a raw-text element or elsewhere. -/
def htmlAll (raw : Bool) (ns : List Node) : String := String.ofList (charsAllBefore raw [] ns)

theorem htmlAll_eq (raw : Bool) (ns : List Node) :
    htmlAll raw ns = String.ofList (charsAll raw ns) := by
  rw [htmlAll, charsAllBefore_eq, List.append_nil]

end Markup

end Node

end LiveMarkup
