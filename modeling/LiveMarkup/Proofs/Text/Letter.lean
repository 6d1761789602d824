import LiveMarkup.Text.Blank

/-!
# Letters and digits

The classes of ASCII letters and digits as ranges of code points.  With them a character is told
apart from the blanks (`isBlank_of_printable`), and bringing to lower case is seen to change capital
letters and nothing else (`toLower_cases`).
-/

namespace LiveMarkup

theorem isUpper_iff (c : Char) : c.isUpper = true ↔ 65 ≤ c.toNat ∧ c.toNat ≤ 90 := by
  show decide (65 ≤ c.val ∧ c.val ≤ 90) = true ↔ _
  rw [decide_eq_true_eq, UInt32.le_iff_toNat_le, UInt32.le_iff_toNat_le]
  exact Iff.rfl

theorem isLower_iff (c : Char) : c.isLower = true ↔ 97 ≤ c.toNat ∧ c.toNat ≤ 122 := by
  show (decide (97 ≤ c.val) && decide (c.val ≤ 122)) = true ↔ _
  simp only [Bool.and_eq_true, decide_eq_true_eq, UInt32.le_iff_toNat_le]
  exact Iff.rfl

theorem isAlpha_eq (c : Char) : c.isAlpha = (c.isUpper || c.isLower) := rfl

theorem isAlpha_iff (c : Char) :
    c.isAlpha = true ↔ (65 ≤ c.toNat ∧ c.toNat ≤ 90) ∨ (97 ≤ c.toNat ∧ c.toNat ≤ 122) := by
  rw [isAlpha_eq, Bool.or_eq_true, isUpper_iff, isLower_iff]

theorem isDigit_iff (c : Char) : c.isDigit = true ↔ 48 ≤ c.toNat ∧ c.toNat ≤ 57 := by
  simp only [Char.isDigit, Bool.and_eq_true, decide_eq_true_eq, ge_iff_le, UInt32.le_iff_toNat_le]
  exact Iff.rfl

/-- The printable characters of ASCII are no blanks. -/
theorem isBlank_of_printable {c : Char} (h : 32 < c.toNat) (h' : c.toNat < 127) :
    isBlank c = false := by
  simp only [isBlank, Bool.or_eq_false_iff, beq_eq_false_iff_ne, Bool.and_eq_false_iff,
    decide_eq_false_iff_not]
  omega

theorem toLower_of_not_isUpper {c : Char} (h : c.isUpper = false) : c.toLower = c := by
  have hc : ¬(c.val ≥ 'A'.val ∧ c.val ≤ 'Z'.val) := of_decide_eq_false h
  exact dif_neg hc

theorem toNat_toLower {c : Char} (h : c.isUpper = true) : c.toLower.toNat = c.toNat + 32 := by
  have hc : c.val ≥ 'A'.val ∧ c.val ≤ 'Z'.val := of_decide_eq_true h
  have hn := (isUpper_iff c).1 h
  have hd : ('a'.val - 'A'.val).toNat = 32 := rfl
  have hval : c.toLower.val = c.val + ('a'.val - 'A'.val) := congrArg Char.val (dif_pos hc)
  show c.toLower.val.toNat = c.toNat + 32
  rw [hval, UInt32.toNat_add, hd]
  show (c.toNat + 32) % 2 ^ 32 = c.toNat + 32
  omega

/-- A capital letter becomes a small one, and nothing else changes. -/
theorem toLower_cases (c : Char) :
    (c.isUpper = true ∧ c.toLower.isLower = true) ∨ (c.isUpper = false ∧ c.toLower = c) := by
  rcases hc : c.isUpper with _ | _
  · exact Or.inr ⟨rfl, toLower_of_not_isUpper hc⟩
  · refine Or.inl ⟨rfl, (isLower_iff _).2 ?_⟩
    have := (isUpper_iff c).1 hc
    rw [toNat_toLower hc]
    omega

theorem isUpper_of_isLower {c : Char} (h : c.isLower = true) : c.isUpper = false := by
  have hl := (isLower_iff c).1 h
  rw [Bool.eq_false_iff, ne_eq, isUpper_iff]
  omega

theorem isUpper_toLower (c : Char) : c.toLower.isUpper = false := by
  rcases toLower_cases c with ⟨-, h⟩ | ⟨h, he⟩
  · exact isUpper_of_isLower h
  · rw [he]
    exact h

/-- Whether a text has a first character of one class and others of another class behind it. -/
def headedBy (p q : Char → Bool) : List Char → Bool
  | [] => false
  | c :: cs => p c && cs.all q

theorem headedBy_iff {p q : Char → Bool} {s : List Char} :
    headedBy p q s = true ↔ ∃ c cs, s = c :: cs ∧ p c = true ∧ ∀ d ∈ cs, q d = true := by
  cases s with
  | nil => simp [headedBy]
  | cons c cs =>
    rw [headedBy, Bool.and_eq_true, List.all_eq_true]
    constructor
    · rintro ⟨hc, hcs⟩
      exact ⟨c, cs, rfl, hc, hcs⟩
    · rintro ⟨_, _, ⟨⟩, hc, hcs⟩
      exact ⟨hc, hcs⟩

end LiveMarkup
