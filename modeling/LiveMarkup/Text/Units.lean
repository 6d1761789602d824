/-!
# Counting characters

The length of a text counts units of 16 bits, of which a character beyond U+FFFF takes two, while an
index counts characters.  `units16` and `charAt?` say so by `units16_eq` and `charAt?_eq`; in a text
of ASCII characters, which has as many bytes as characters, both take constant time.
-/

namespace LiveMarkup

/-- The sum of a size over the characters of a text. -/
def totalSize (size : Char → Nat) (cs : List Char) : Nat := cs.foldr (fun c n => size c + n) 0

@[simp] theorem totalSize_nil (size : Char → Nat) : totalSize size [] = 0 := rfl

@[simp] theorem totalSize_cons (size : Char → Nat) (c : Char) (cs : List Char) :
    totalSize size (c :: cs) = size c + totalSize size cs := rfl

theorem length_le_totalSize {size : Char → Nat} (hsize : ∀ c, 0 < size c) (cs : List Char) :
    cs.length ≤ totalSize size cs := by
  induction cs with
  | nil => exact Nat.le_refl _
  | cons c cs ih =>
    have := hsize c
    rw [List.length_cons, totalSize_cons]
    omega

theorem totalSize_eq_length_iff {size : Char → Nat} (hsize : ∀ c, 0 < size c) (cs : List Char) :
    totalSize size cs = cs.length ↔ ∀ c ∈ cs, size c = 1 := by
  induction cs with
  | nil => simp
  | cons c cs ih =>
    have := hsize c
    have := length_le_totalSize hsize cs
    rw [List.forall_mem_cons, ← ih, totalSize_cons, List.length_cons]
    omega

/-- The number of units of 16 bits that a character takes. -/
def charUnits (c : Char) : Nat := if c.toNat < 0x10000 then 1 else 2

/-- Whether a text has as many bytes as characters. -/
def isByteText (s : String) : Bool := s.utf8ByteSize == s.length

/-- The length of a text in units of 16 bits. -/
def units16 (s : String) : Nat :=
  if isByteText s then s.length
  else s.length + s.foldl (fun n c => if c.toNat < 0x10000 then n else n + 1) 0

/-- The character of a text at an index. -/
def charAt? (s : String) (i : Nat) : Option Char :=
  if isByteText s then String.Pos.Raw.get? s ⟨i⟩
  else if s.length ≤ i then none
  else (s.drop i).front?

/-! ### Texts of one byte a character -/

theorem utf8ByteSize_ofList (cs : List Char) :
    (String.ofList cs).utf8ByteSize = totalSize Char.utf8Size cs := by
  induction cs with
  | nil => rfl
  | cons c cs ih => simp [String.ofList_cons, ih]

theorem utf8Size_eq_one_of_isByteText {s : String} (h : isByteText s = true) :
    ∀ c ∈ s.toList, c.utf8Size = 1 := by
  rw [← totalSize_eq_length_iff Char.utf8Size_pos, ← utf8ByteSize_ofList, String.ofList_toList,
    String.length_toList]
  exact eq_of_beq h

theorem toNat_lt_of_utf8Size {c : Char} (h : c.utf8Size = 1) : c.toNat < 0x10000 := by
  have := UInt32.le_iff_toNat_le.1 (Char.utf8Size_eq_one_iff.1 h)
  exact Nat.lt_of_le_of_lt this (by decide)

theorem utf8GetAux?_eq {cs : List Char} (h : ∀ c ∈ cs, c.utf8Size = 1) (n i : Nat) :
    String.Pos.Raw.utf8GetAux? cs ⟨n⟩ ⟨n + i⟩ = cs[i]? := by
  induction cs generalizing n i with
  | nil => rfl
  | cons c cs ih =>
    obtain ⟨hc, hcs⟩ := List.forall_mem_cons.1 h
    cases i with
    | zero => exact if_pos rfl
    | succ i =>
      have hne : (⟨n⟩ : String.Pos.Raw) ≠ ⟨n + (i + 1)⟩ := by simp
      have hpos : (⟨n⟩ : String.Pos.Raw) + c = ⟨n + 1⟩ := by simp [String.Pos.Raw.ext_iff, hc]
      refine (if_neg hne).trans ?_
      rw [hpos, List.getElem?_cons_succ, ← ih hcs (n + 1) i, Nat.add_assoc, Nat.add_comm 1 i]

/-! ### Length and index -/

theorem charUnits_pos (c : Char) : 0 < charUnits c := by
  unfold charUnits
  split <;> decide

theorem charUnits_eq_one_iff {c : Char} : charUnits c = 1 ↔ c.toNat < 0x10000 := by
  unfold charUnits
  split <;> simp [*]

theorem totalSize_charUnits (cs : List Char) (n : Nat) :
    n + totalSize charUnits cs =
      cs.length + cs.foldl (fun n c => if c.toNat < 0x10000 then n else n + 1) n := by
  induction cs generalizing n with
  | nil => simp
  | cons c cs ih =>
    have := ih n
    have := ih (n + 1)
    simp only [totalSize_cons, List.length_cons, List.foldl_cons, charUnits]
    split <;> omega

/-- The length of a text is the sum over its characters. -/
theorem units16_eq (s : String) : units16 s = totalSize charUnits s.toList := by
  have hsum := totalSize_charUnits s.toList 0
  rw [String.length_toList, Nat.zero_add] at hsum
  rw [units16]
  split
  · rename_i h
    have hone := utf8Size_eq_one_of_isByteText h
    have hunit : ∀ c ∈ s.toList, charUnits c = 1 :=
      fun c hc => charUnits_eq_one_iff.2 (toNat_lt_of_utf8Size (hone c hc))
    rw [(totalSize_eq_length_iff charUnits_pos _).2 hunit, String.length_toList]
  · rw [hsum, String.foldl_eq_foldl_toList]

/-- An index counts characters. -/
theorem charAt?_eq (s : String) (i : Nat) : charAt? s i = s.toList[i]? := by
  rw [charAt?]
  split
  · rename_i h
    have := utf8GetAux?_eq (utf8Size_eq_one_of_isByteText h) 0 i
    rwa [Nat.zero_add] at this
  · split
    · rename_i h
      rw [List.getElem?_eq_none (by rwa [String.length_toList])]
    · rw [String.Slice.front?_eq, String.toList_copy_drop, List.head?_drop]

end LiveMarkup
