import LiveMarkup.Markup.Entity
import Mathlib.Data.List.Basic

/-!
# What is written with references

A text `Denotes` another one if a codec decodes it to that text wherever it stands.  The characters
that are never written as references denote themselves, and so do texts without `&`
(`EntityCodec.denotes_self`).  What is encoded denotes what it was made of
(`EntityCodec.denotes_encodeText`, `EntityCodec.denotes_encodeAttribute`), so decoding undoes
encoding and nothing is written in the same way as something else.
-/

namespace LiveMarkup

/-! ### Single characters -/

namespace Entity

theorem encodeTextChar_self {c : Char} (h : c ∉ ['&', '<', '>', '"']) : encodeTextChar c = [c] := by
  simp only [List.mem_cons, List.not_mem_nil, or_false, not_or] at h
  unfold encodeTextChar
  split <;> simp_all

theorem encodeAttributeChar_self {c : Char} (h : c ∉ ['&', '<', '>', '"']) :
    encodeAttributeChar c = [c] := by
  have htext := encodeTextChar_self h
  simp only [List.mem_cons, List.not_mem_nil, or_false, not_or] at h
  unfold encodeAttributeChar
  split
  · exact absurd rfl h.2.2.2
  · exact htext

theorem not_mem_encodeTextChar (c : Char) : '<' ∉ encodeTextChar c := by
  unfold encodeTextChar
  split
  · decide
  · decide
  · decide
  · rename_i hne _
    exact fun hc => hne (List.mem_singleton.1 hc).symm

theorem not_mem_encodeAttributeChar (c : Char) : '"' ∉ encodeAttributeChar c := by
  unfold encodeAttributeChar encodeTextChar
  split
  · decide
  · rename_i hne
    split
    · decide
    · decide
    · decide
    · exact fun hc => hne (List.mem_singleton.1 hc).symm

end Entity

namespace EntityCodec

open Entity

variable [EntityCodec] {w w' t t' : List Char}

/-- Whether a text decodes to another one, whatever comes after it. -/
def Denotes (w t : List Char) : Prop := ∀ r, decode (w ++ r) = t ++ decode r

theorem denotes_nil : Denotes [] [] := fun _ => rfl

theorem Denotes.append (h : Denotes w t) (h' : Denotes w' t') : Denotes (w ++ w') (t ++ t') := by
  intro r
  rw [List.append_assoc, h, h', List.append_assoc]

theorem Denotes.decode_eq (h : Denotes w t) : decode w = t := by
  have hw := h []
  rwa [decode_nil, List.append_nil, List.append_nil] at hw

theorem denotes_char {c : Char} (h : c ≠ '&') : Denotes [c] [c] := fun r => decode_cons r h

/-- A reference denotes its character. -/
theorem denotes_reference {c : Char} (h : (c, w) ∈ references) : Denotes w [c] :=
  fun r => decode_reference r h

theorem denotes_flatMap {f : Char → List Char} (hf : ∀ c, Denotes (f c) [c]) (t : List Char) :
    Denotes (t.flatMap f) t := by
  induction t with
  | nil => exact denotes_nil
  | cons c t ih =>
    rw [List.flatMap_cons]
    exact (hf c).append ih

/-- A text without references denotes itself. -/
theorem denotes_self (h : '&' ∉ t) : Denotes t t := by
  induction t with
  | nil => exact denotes_nil
  | cons c t ih =>
    rw [List.mem_cons, not_or] at h
    exact (denotes_char (Ne.symm h.1)).append (ih h.2)

theorem denotes_encodeTextChar (c : Char) : Denotes (encodeTextChar c) [c] := by
  unfold encodeTextChar
  split
  · exact denotes_reference (by decide)
  · exact denotes_reference (by decide)
  · exact denotes_reference (by decide)
  · exact denotes_char ‹_›

theorem denotes_encodeAttributeChar (c : Char) : Denotes (encodeAttributeChar c) [c] := by
  unfold encodeAttributeChar
  split
  · exact denotes_reference (by decide)
  · exact denotes_encodeTextChar c

/-! ### Texts -/

/-- What is encoded as text decodes to itself. -/
theorem denotes_encodeText (t : List Char) : Denotes (encodeText t) t := by
  rw [encodeText_eq]
  exact denotes_flatMap denotes_encodeTextChar t

/-- What is encoded as a value decodes to itself. -/
theorem denotes_encodeAttribute (t : List Char) : Denotes (encodeAttribute t) t := by
  rw [encodeAttribute_eq]
  exact denotes_flatMap denotes_encodeAttributeChar t

/-- Different values are written differently. -/
theorem encodeAttribute_inj (h : encodeAttribute t = encodeAttribute t') : t = t' := by
  rw [← (denotes_encodeAttribute t).decode_eq, h, (denotes_encodeAttribute t').decode_eq]

@[simp] theorem encodeText_nil : encodeText [] = [] := encodeText_eq []

@[simp] theorem encodeAttribute_nil : encodeAttribute [] = [] := encodeAttribute_eq []

theorem encodeText_append (s t : List Char) :
    encodeText (s ++ t) = encodeText s ++ encodeText t := by
  rw [encodeText_eq, encodeText_eq, encodeText_eq, List.flatMap_append]

theorem encodeAttribute_append (s t : List Char) :
    encodeAttribute (s ++ t) = encodeAttribute s ++ encodeAttribute t := by
  rw [encodeAttribute_eq, encodeAttribute_eq, encodeAttribute_eq, List.flatMap_append]

/-- Nothing is encoded in a text without the four characters that are. -/
theorem encodeAttribute_self (h : ∀ c ∈ t, c ∉ ['&', '<', '>', '"']) : encodeAttribute t = t := by
  rw [encodeAttribute_eq, List.flatMap_congr fun c hc => encodeAttributeChar_self (h c hc)]
  simp

theorem not_mem_encodeText (t : List Char) : '<' ∉ encodeText t := by
  rw [encodeText_eq, List.mem_flatMap]
  rintro ⟨c, -, hc⟩
  exact not_mem_encodeTextChar c hc

theorem not_mem_encodeAttribute (t : List Char) : '"' ∉ encodeAttribute t := by
  rw [encodeAttribute_eq, List.mem_flatMap]
  rintro ⟨c, -, hc⟩
  exact not_mem_encodeAttributeChar c hc

end EntityCodec

end LiveMarkup
