import LiveMarkup.Expr.Grammar
import LiveMarkup.Proofs.Grammar.Reading
import LiveMarkup.Proofs.Text.Letter

/-!
# Names

What expressions can refer to is a name that is none of the literal words (`IsName`).  A text with a
name at its head starts with nothing else (`Grammar.NameHead`).
-/

namespace LiveMarkup

/-- The words that are literals. -/
def literalWords : List String := ["true", "false", "null", "undefined"]

/-- Names that expressions can refer to. -/
structure IsName (s : String) : Prop where
  parts : ∃ c cs, s.toList = c :: cs ∧ Grammar.isIdentStart c = true ∧
    ∀ d ∈ cs, Grammar.isIdentPart d = true
  notLiteral : s ∉ literalWords

instance (s : String) : Decidable (IsName s) :=
  decidable_of_iff (headedBy Grammar.isIdentStart Grammar.isIdentPart s.toList = true ∧
    s ∉ literalWords) (by
    rw [headedBy_iff]
    exact ⟨fun h => ⟨h.1, h.2⟩, fun h => ⟨h.parts, h.notLiteral⟩⟩)

namespace Rule

variable {α β : Type} {p q : Rule α} {a : α} {s r : List Char}

theorem read_orElse_of_ok (h : p.read s = .ok a r) : (orElse p q).read s = .ok a r := by
  simp only [orElse, h]

theorem read_orElse_of_error (h : p.read s = .error r) : (orElse p q).read s = q.read s := by
  simp only [orElse, h]

theorem read_optional_of_error (h : p.read s = .error r) : (optional p).read s = .ok none s := by
  simp only [optional, h]

theorem read_token_of_ne {w : String} {c d : Char} (hw : w.toList.head? = some d) (h : d ≠ c) :
    (token w).read (c :: s) = .error (c :: s) := by
  obtain ⟨ps, hps⟩ := List.head?_eq_some_iff.1 hw
  apply read_token_of_none
  rw [hps]
  exact if_neg h

end Rule

namespace Grammar

open Rule

/-- A text with a name at its head, seen by the rules for everything else. -/
structure NameHead (s : List Char) : Prop where
  space : Stops isSpace s
  digit : Stops Char.isDigit s
  /-- None of the characters that start a sign, a literal or a bracket. -/
  sign : ∀ c ∈ s.head?, c ∉ ['!', '-', '+', '(', '[', '"', '\'']

/-- A name starts with a printable character that is no digit. -/
theorem toNat_of_isIdentStart {c : Char} (h : isIdentStart c = true) :
    32 < c.toNat ∧ c.toNat < 127 ∧ c.isDigit = false := by
  rw [Bool.eq_false_iff, ne_eq, isDigit_iff]
  simp only [isIdentStart, Bool.or_eq_true, isAlpha_iff, beq_iff_eq] at h
  rcases h with (h | rfl) | rfl
  · omega
  · decide
  · decide

theorem isBlank_of_isIdentStart {c : Char} (h : isIdentStart c = true) : isBlank c = false :=
  isBlank_of_printable (toNat_of_isIdentStart h).1 (toNat_of_isIdentStart h).2.1

theorem nameHead_cons {c : Char} (h : isIdentStart c = true) (s : List Char) :
    NameHead (c :: s) := by
  have hspace : isSpace c = false := by
    rw [Bool.eq_false_iff]
    intro hc
    have hblank := isBlank_of_isSpace hc
    rw [isBlank_of_isIdentStart h] at hblank
    cases hblank
  refine ⟨.cons hspace s, .cons (toNat_of_isIdentStart h).2.2 s, ?_⟩
  intro d hd hm
  cases hd
  simp only [List.mem_cons, List.not_mem_nil, or_false] at hm
  rcases hm with rfl | rfl | rfl | rfl | rfl | rfl | rfl <;> exact absurd h (by decide)

theorem NameHead.ne {c : Char} {s : List Char} (h : NameHead (c :: s)) {d : Char}
    (hd : d ∈ ['!', '-', '+', '(', '[', '"', '\'']) : d ≠ c := by
  rintro rfl
  exact h.sign d rfl hd

theorem word_of_isName {name : String} (h : IsName name) : word name = .ident name := by
  have hm := h.notLiteral
  simp only [literalWords, List.mem_cons, List.not_mem_nil, or_false, not_or] at hm
  simp [word, hm]

end Grammar

end LiveMarkup
