/-!
# Character references

Markup writes some characters as references: `&lt;`, `&#60;`, `&#x3C;`.  References are written and
read by a library that is not part of this one.  An `EntityCodec` stands for it: three functions on
texts, and what its documentation says of them.  Which references beyond the ones listed here are
read, and as what, is left open.
-/

namespace LiveMarkup

namespace Entity

/-- A character of element content. -/
def encodeTextChar : Char → List Char
  | '&' => "&amp;".toList
  | '<' => "&lt;".toList
  | '>' => "&gt;".toList
  | c => [c]

/-- A character of a double-quoted attribute value. -/
def encodeAttributeChar : Char → List Char
  | '"' => "&quot;".toList
  | c => encodeTextChar c

/-- Characters with the references that are written for them in markup and by templates. -/
def references : List (Char × List Char) :=
  [('&', "&amp;".toList), ('<', "&lt;".toList), ('>', "&gt;".toList), ('"', "&quot;".toList),
   ('\'', "&#039;".toList)]

end Entity

/-- A library for character references. -/
class EntityCodec where
  /-- Text with its references replaced by the characters that they denote. -/
  decode : List Char → List Char
  /-- Text as it is written in element content. -/
  encodeText : List Char → List Char
  /-- Text as it is written in a double-quoted attribute value. -/
  encodeAttribute : List Char → List Char
  /-- In content only `&`, `<` and `>` are written as references. -/
  encodeText_eq (s : List Char) : encodeText s = s.flatMap Entity.encodeTextChar
  /-- In double-quoted values `"` is written as a reference, too. -/
  encodeAttribute_eq (s : List Char) : encodeAttribute s = s.flatMap Entity.encodeAttributeChar
  decode_nil : decode [] = []
  /-- A character that opens no reference is read as itself. -/
  decode_cons {c : Char} (s : List Char) (h : c ≠ '&') : decode (c :: s) = c :: decode s
  /-- The references that are written are read back, whatever stands behind them. -/
  decode_reference {c : Char} {w : List Char} (s : List Char) (h : (c, w) ∈ Entity.references) :
    decode (w ++ s) = c :: decode s

end LiveMarkup
