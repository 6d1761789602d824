/-!
# Scanning text

Looking for fixed text in a list of characters.  `after? p s` is what follows the fixed text `p` at
the head of `s`; `splitAt? p s` cuts `s` around the first place where `p` stands, and
`afterFirst? p s` gives what follows that place alone.
-/

namespace LiveMarkup

/-- What follows `p` in a text that starts with `p`. -/
def after? : List Char → List Char → Option (List Char)
  | [], s => some s
  | _ :: _, [] => none
  | p :: ps, c :: cs => if p = c then after? ps cs else none

theorem after?_eq_some_iff {p s r : List Char} : after? p s = some r ↔ s = p ++ r := by
  induction p generalizing s with
  | nil => simp [after?]
  | cons a p ih =>
    cases s with
    | nil => simp [after?]
    | cons c s =>
      by_cases h : a = c
      · simp [after?, h, ih]
      · simp [after?, h, Ne.symm h]

theorem suffix_of_after? {p s r : List Char} (h : after? p s = some r) : r <:+ s :=
  ⟨p, (after?_eq_some_iff.1 h).symm⟩

theorem length_lt_of_after? {p s r : List Char} (hp : p ≠ []) (h : after? p s = some r) :
    r.length < s.length := by
  have := List.length_pos_iff.2 hp
  rw [after?_eq_some_iff.1 h, List.length_append]
  omega

/-- The text before and after the first occurrence of `p`. -/
def splitAt? (p : List Char) : List Char → Option (List Char × List Char)
  | [] => (after? p []).map fun r => ([], r)
  | c :: cs =>
    match after? p (c :: cs) with
    | some r => some ([], r)
    | none => (splitAt? p cs).map fun br => (c :: br.1, br.2)

theorem append_of_splitAt? {p s b r : List Char} (h : splitAt? p s = some (b, r)) :
    s = b ++ p ++ r := by
  induction s generalizing b with
  | nil =>
    simp only [splitAt?, Option.map_eq_some_iff, Prod.mk.injEq] at h
    obtain ⟨r', hr, rfl, rfl⟩ := h
    simpa using after?_eq_some_iff.1 hr
  | cons c cs ih =>
    simp only [splitAt?] at h
    split at h
    · rename_i r' hr
      simp only [Option.some.injEq, Prod.mk.injEq] at h
      obtain ⟨rfl, rfl⟩ := h
      simpa using after?_eq_some_iff.1 hr
    · simp only [Option.map_eq_some_iff, Prod.mk.injEq] at h
      obtain ⟨⟨b', r'⟩, hb, rfl, rfl⟩ := h
      simp [ih hb]

/-- The text after the first occurrence of `p`. -/
def afterFirst? (p : List Char) : List Char → Option (List Char)
  | [] => after? p []
  | c :: cs =>
    match after? p (c :: cs) with
    | some r => some r
    | none => afterFirst? p cs

theorem afterFirst?_eq (p s : List Char) : afterFirst? p s = (splitAt? p s).map Prod.snd := by
  induction s with
  | nil => cases h : after? p [] <;> simp [afterFirst?, splitAt?, h]
  | cons c cs ih =>
    cases h : after? p (c :: cs) <;> simp [afterFirst?, splitAt?, h, ih, Function.comp_def]

theorem append_of_afterFirst? {p s r : List Char} (h : afterFirst? p s = some r) :
    ∃ b, s = b ++ p ++ r := by
  rw [afterFirst?_eq, Option.map_eq_some_iff] at h
  obtain ⟨⟨b, r⟩, hb, rfl⟩ := h
  exact ⟨b, append_of_splitAt? hb⟩

theorem suffix_of_afterFirst? {p s r : List Char} (h : afterFirst? p s = some r) : r <:+ s := by
  obtain ⟨b, hb⟩ := append_of_afterFirst? h
  exact ⟨b ++ p, hb.symm⟩

/-- A text in which `p` occurs nowhere has no end in which it does. -/
theorem afterFirst?_eq_none_of_suffix {p s r : List Char} (h : afterFirst? p s = none)
    (hr : r <:+ s) : afterFirst? p r = none := by
  obtain ⟨b, rfl⟩ := hr
  induction b with
  | nil => exact h
  | cons c b ih =>
    rw [List.cons_append, afterFirst?] at h
    split at h
    · cases h
    · exact ih h

/-- The parts of a text between separators; a text without one is a single part. -/
def splitOn (sep : Char) : List Char → List (List Char)
  | [] => [[]]
  | c :: cs =>
    match splitOn sep cs with
    | [] => [[c]]
    | part :: parts => if c = sep then [] :: part :: parts else (c :: part) :: parts

end LiveMarkup
