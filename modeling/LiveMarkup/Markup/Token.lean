import LiveMarkup.Error
import LiveMarkup.Grammar.Rule
import LiveMarkup.Markup.Node
import LiveMarkup.Text.Units

/-!
# Markup tokens

`Token.next` reads one token off the head of markup text: a run of text, an opening or closing tag,
a whole element that has no inner markup, or a comment or declaration, which is skipped.  A `<` that
cannot start a tag is text.  Names are brought to lower case and references in texts and values are
decoded.  The content of a raw-text element goes up to the first closing tag that starts with its
name.

A comment that has no end is read like a declaration, up to the next `>`.  After it no comment has
an end (`none_of_next_endless`), so there the reader is told not to look for one, and `next_of_none`
says that this changes nothing.  What a token leaves is a proper end of the text (`suffix_of_next`,
`length_lt_of_next`).
-/

namespace LiveMarkup

inductive Token where
  /-- A comment or declaration. -/
  | skipped
  /-- A comment that has no end, read up to the next `>`. -/
  | endless
  | text (t : List Char)
  | opening (tag : String) (attrs : List Attr)
  | closing (tag : String)
  /-- An element that is complete with its tag. -/
  | leaf (node : Node)

namespace Token

open Rule

def isEndless : Token → Bool
  | endless => true
  | _ => false

def lower (cs : List Char) : String := String.ofList (cs.map Char.toLower)

/-- The name of a tag: a letter, then letters, digits and dashes. -/
def tagName : Rule String := do
  let cs ← run1 Char.isAlpha
  let ds ← run fun c => c.isAlphanum || c == '-'
  pure (lower (cs ++ ds))

/-- Characters of attribute names. -/
def isNameChar (c : Char) : Bool :=
  !isBlank c && c != '/' && c != '>' && c != '=' && c != '"' && c != '\''

/-- A value between two equal quotes. -/
def quoted (q : Char) : Rule (List Char) := do
  let _ ← one (· == q)
  let v ← run (· != q)
  let _ ← one (· == q)
  pure v

/-- The value of an attribute, in quotes or up to a blank or the end of the tag. -/
def attributeValue : Rule (List Char) :=
  firstOf (quoted '"') [quoted '\'', run1 fun c => !isBlank c && c != '>']

def attr [EntityCodec] : Rule Attr := do
  spaces1
  let name ← run1 isNameChar
  let value ← optional (after (spaced (token "=")) attributeValue)
  pure ⟨lower name, String.ofList (EntityCodec.decode (value.getD []))⟩

theorem advances_attr [EntityCodec] : attr.Advances := advances_spaces1.bind

/-- What stands between `<` and `>` of an opening tag, and whether the tag closes itself. -/
def openingTag [EntityCodec] : Rule (String × List Attr × Bool) := do
  token "<"
  let tag ← tagName
  let attrs ← many attr advances_attr
  spaces
  let slash ← optional (token "/")
  token ">"
  pure (tag, attrs, slash.isSome)

/-- A closing tag. -/
def closingTag : Rule String := do
  token "</"
  let tag ← tagName
  spaces
  token ">"
  pure tag

/-- The text at the end of a comment. -/
def commentEnd : List Char := "-->".toList

/-- A comment or declaration at the head of a text, and the rest.  A comment for which there is no
end counts as a declaration; `ends` is false where it is known that there is none. -/
def skip? (ends : Bool) (s : List Char) : Option (Token × List Char) :=
  match after? "<!--".toList s with
  | some r =>
    match if ends then afterFirst? commentEnd r else none with
    | some r' => some (skipped, r')
    | none => (afterFirst? ['>'] r).map fun r' => (endless, r')
  | none =>
    match after? "<!".toList s with
    | some r => (afterFirst? ['>'] r).map fun r' => (skipped, r')
    | none => none

theorem advances_openingTag [EntityCodec] : openingTag.Advances := (advances_token (by decide)).bind

theorem advances_closingTag : closingTag.Advances := (advances_token (by decide)).bind

/-- Whether a text starts with a `<` that cannot start a tag. -/
def startsLoneAngle : List Char → Bool
  | ['<'] => true
  | '<' :: c :: _ => !(c.isAlpha || c == '/' || c == '!')
  | _ => false

/-- The text node with a content, if there is any. -/
def textNodes (t : List Char) : List Node :=
  if t = [] then [] else [.text (String.ofList t)]

/-- The rest of a raw-text element after its opening tag. -/
def rawElement (tag : String) (attrs : List Attr) (s : List Char) :
    Except MarkupError (Token × List Char) :=
  match splitAt? ("</" ++ tag).toList s with
  | none => .error (.unclosed tag)
  | some (body, _) =>
    match closingTag.read (s.drop body.length) with
    | .ok _ r => .ok (leaf (.element tag attrs (textNodes body)), r)
    | _ => .error (.malformedClose tag)

/-- How much of the text after a malformed tag an error message shows. -/
def snippetLength : Nat := 24

/-- The length of a text in bytes. -/
def byteLength (s : List Char) : Nat := totalSize Char.utf8Size s

/-- The error for a malformed tag at the head of `s` in a markup text of `total` bytes. -/
def malformed (total : Nat) (s : List Char) : MarkupError :=
  .malformedTag (total - byteLength s) (String.ofList (s.take snippetLength))

/-- The token at the head of a markup text, and the rest; `ends` is false where it is known that no
comment has an end. -/
def next [EntityCodec] (total : Nat) (ends : Bool) (s : List Char) :
    Except MarkupError (Token × List Char) :=
  if startsLoneAngle s then .ok (text ['<'], s.tail)
  else
    match skip? ends s with
    | some (t, r) => .ok (t, r)
    | none =>
      match closingTag.read s with
      | .ok tag r => .ok (closing tag, r)
      | _ =>
        match openingTag.read s with
        | .ok (tag, attrs, closed) r =>
          if closed || isVoid tag then .ok (leaf (.element tag attrs []), r)
          else if isRawText tag then rawElement tag attrs r
          else .ok (opening tag attrs, r)
        | _ =>
          match s.takeWhile (· != '<') with
          | [] => .error (malformed total s)
          | t => .ok (text (EntityCodec.decode t), s.dropWhile (· != '<'))

/-! ### Progress -/

/-- A comment or declaration opens with a fixed text. -/
theorem exists_of_skip? {ends : Bool} {s r : List Char} {t : Token}
    (h : skip? ends s = some (t, r)) :
    ∃ p r₀, p ≠ [] ∧ after? p s = some r₀ ∧ r <:+ r₀ := by
  simp only [skip?] at h
  split at h
  · rename_i r₀ hr₀
    refine ⟨_, r₀, by decide, hr₀, ?_⟩
    split at h
    · rename_i hr
      cases h
      split at hr
      · exact suffix_of_afterFirst? hr
      · cases hr
    · obtain ⟨r', hr', hrr⟩ := Option.map_eq_some_iff.1 h
      cases hrr
      exact suffix_of_afterFirst? hr'
  · split at h
    · rename_i r₀ hr₀
      refine ⟨_, r₀, by decide, hr₀, ?_⟩
      obtain ⟨r', hr', hrr⟩ := Option.map_eq_some_iff.1 h
      cases hrr
      exact suffix_of_afterFirst? hr'
    · cases h

theorem suffix_of_skip? {ends : Bool} {s r : List Char} {t : Token}
    (h : skip? ends s = some (t, r)) : r <:+ s := by
  obtain ⟨p, r₀, -, hp, hr⟩ := exists_of_skip? h
  exact hr.trans (suffix_of_after? hp)

theorem length_lt_of_skip? {ends : Bool} {s r : List Char} {t : Token}
    (h : skip? ends s = some (t, r)) : r.length < s.length := by
  obtain ⟨p, r₀, hne, hp, hr⟩ := exists_of_skip? h
  exact Nat.lt_of_le_of_lt hr.length_le (length_lt_of_after? hne hp)

theorem suffix_of_rawElement {tag : String} {attrs : List Attr} {s r : List Char} {t : Token}
    (h : rawElement tag attrs s = .ok (t, r)) : r <:+ s := by
  simp only [rawElement] at h
  split at h
  · cases h
  · split at h <;> cases h
    rename_i hr
    exact (closingTag.rest_suffix hr).trans (List.drop_suffix _ _)

theorem suffix_of_next [EntityCodec] {total : Nat} {ends : Bool} {s r : List Char} {t : Token}
    (h : next total ends s = .ok (t, r)) : r <:+ s := by
  simp only [next] at h
  split at h
  · cases h
    exact List.tail_suffix s
  · split at h
    · cases h
      exact suffix_of_skip? ‹_›
    · split at h
      · cases h
        exact closingTag.rest_suffix ‹_›
      · split at h
        · rename_i ho
          have ho := openingTag.rest_suffix ho
          split at h
          · cases h
            exact ho
          · split at h
            · exact (suffix_of_rawElement h).trans ho
            · cases h
              exact ho
        · split at h <;> cases h
          exact List.dropWhile_suffix _

theorem length_lt_of_next [EntityCodec] {total : Nat} {ends : Bool} {s r : List Char} {t : Token}
    (h : next total ends s = .ok (t, r)) : r.length < s.length := by
  simp only [next] at h
  split at h
  · cases h
    cases s with
    | nil => contradiction
    | cons c cs => simp
  · split at h
    · cases h
      exact length_lt_of_skip? ‹_›
    · split at h
      · cases h
        exact advances_closingTag ‹_›
      · split at h
        · rename_i ho
          have := advances_openingTag ho
          split at h
          · cases h
            exact this
          · split at h
            · exact Nat.lt_of_le_of_lt (suffix_of_rawElement h).length_le this
            · cases h
              exact this
        · split at h
          · cases h
          · cases h
            rename_i ht
            have := List.takeWhile_append_dropWhile (p := (· != '<')) (l := s)
            have := congrArg List.length this
            have := List.length_pos_iff.2 ht
            simp only [List.length_append] at *
            omega

/-! ### Comments without an end -/

theorem skip?_of_none {s : List Char} (h : afterFirst? commentEnd s = none) (ends : Bool) :
    skip? ends s = skip? true s := by
  simp only [skip?]
  split
  · rename_i r hr
    rw [afterFirst?_eq_none_of_suffix h (suffix_of_after? hr)]
    simp
  · rfl

/-- Where no comment can have an end, it makes no difference whether one is looked for. -/
theorem next_of_none [EntityCodec] {s : List Char} (h : afterFirst? commentEnd s = none)
    (total : Nat) (ends : Bool) :
    next total ends s = next total true s := by
  simp only [next, skip?_of_none h ends]

theorem none_of_skip?_endless {s r : List Char} (h : skip? true s = some (endless, r)) :
    afterFirst? commentEnd r = none := by
  simp only [skip?] at h
  split at h
  · split at h
    · cases h
    · rename_i hn
      obtain ⟨r', hr', hrr⟩ := Option.map_eq_some_iff.1 h
      cases hrr
      obtain ⟨b, rfl⟩ := append_of_afterFirst? hr'
      exact afterFirst?_eq_none_of_suffix hn ⟨_, rfl⟩
  · split at h
    · obtain ⟨r', -, hrr⟩ := Option.map_eq_some_iff.1 h
      cases hrr
    · cases h

/-- After a comment that has no end, no comment has an end. -/
theorem none_of_next_endless [EntityCodec] {total : Nat} {s r : List Char}
    (h : next total true s = .ok (endless, r)) :
    afterFirst? commentEnd r = none := by
  simp only [next] at h
  split at h
  · cases h
  · split at h
    · cases h
      exact none_of_skip?_endless ‹_›
    · split at h
      · cases h
      · split at h
        · split at h
          · cases h
          · split at h
            · simp only [rawElement] at h
              split at h
              · cases h
              · split at h <;> cases h
            · cases h
        · split at h <;> cases h

end Token

end LiveMarkup
