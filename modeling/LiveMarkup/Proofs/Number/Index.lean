import LiveMarkup.Number.Read
import LiveMarkup.Number.Text
import LiveMarkup.Proofs.State.Write
import LiveMarkup.Proofs.Text.Letter
import Mathlib.Tactic.Ring

/-!
# Indices written out

An index is read back from its digits, and from the text of a number that is equal to it, as long as
it fits 64 bits (`readIndex?_toString`, `readIndex?_numberText`).  An integer of 22 digits or more
is displayed by the shortest digits that stand for it; they are those of another integer, but never
of one that is less than half of it, so they are not read as an index either.
-/

namespace LiveMarkup

/-- Indices are below this bound. -/
def indexBound : Nat := Nat.pow 2 64

/-! ### Digits -/

theorem digitsValue_eq (ds : List Char) : digitsValue ds = Nat.ofDigitChars 10 ds 0 := rfl

theorem digitsValue_toDigits (n : Nat) : digitsValue (Nat.toDigits 10 n) = n :=
  Nat.ofDigitChars_ten_toDigits

theorem digitsValue_append_zeros (ds : List Char) (n : Nat) :
    digitsValue (ds ++ List.replicate n '0') = digitsValue ds * 10 ^ n := by
  rw [digitsValue_eq, Nat.ofDigitChars_append, Nat.ofDigitChars_replicate_zero, Nat.mul_comm]
  rfl

theorem digitsValue_dropWhile (ds : List Char) :
    digitsValue (ds.dropWhile (· == '0')) = digitsValue ds := by
  induction ds with
  | nil => rfl
  | cons c ds ih =>
    by_cases hc : c = '0'
    · subst hc
      exact ih
    · rw [List.dropWhile_cons_of_neg (by simpa using hc)]

/-- A number is at least the power of ten that its first digit stands for. -/
theorem pow_le_digitsValue {c : Char} {ds : List Char} (hc : c.isDigit) (hne : c ≠ '0') :
    10 ^ ds.length ≤ digitsValue (c :: ds) := by
  have hpos : 1 ≤ c.toNat - '0'.toNat := by
    have hrange := (isDigit_iff c).1 hc
    have hzero : c.toNat ≠ 48 := fun h => hne (Char.toNat_inj.1 h)
    show 1 ≤ c.toNat - 48
    omega
  rw [digitsValue_eq, Nat.ofDigitChars_cons, Nat.ofDigitChars_eq_ofDigitChars_zero]
  calc 10 ^ ds.length = 10 ^ ds.length * 1 := (Nat.mul_one _).symm
    _ ≤ 10 ^ ds.length * (10 * 0 + (c.toNat - '0'.toNat)) :=
      Nat.mul_le_mul_left _ (by simpa using hpos)
    _ ≤ _ := Nat.le_add_right _ _

/-- Digits of a number below the bound are not too many, zeros in front of them apart. -/
theorem length_dropWhile_le {ds : List Char} (hds : ∀ c ∈ ds, c.isDigit)
    (hlt : digitsValue ds < indexBound) :
    (ds.dropWhile (· == '0')).length ≤ maxIndexDigits := by
  rw [← digitsValue_dropWhile] at hlt
  cases hd : ds.dropWhile (· == '0') with
  | nil => exact Nat.zero_le _
  | cons c rest =>
    have hc : c ∈ ds.dropWhile (· == '0') := hd ▸ List.mem_cons_self
    have hne : c ≠ '0' := by simpa [hd] using List.head?_dropWhile_not (· == '0') ds
    have hle : 10 ^ rest.length ≤ digitsValue (c :: rest) :=
      pow_le_digitsValue (hds c ((List.dropWhile_sublist _).subset hc)) hne
    rw [hd] at hlt
    by_contra hlong
    have hpow : 10 ^ 20 ≤ 10 ^ rest.length := by
      apply Nat.pow_le_pow_right (by decide)
      simp only [maxIndexDigits, List.length_cons] at hlong
      omega
    have hbound : indexBound ≤ 10 ^ 20 := by decide
    omega

/-- The index that a run of digits denotes. -/
theorem readIndex?_ofList {ds : List Char} (hne : ds ≠ []) (hds : ∀ c ∈ ds, c.isDigit) :
    readIndex? (String.ofList ds) =
      if digitsValue ds < indexBound then some (digitsValue ds) else none := by
  -- the digits without a plus sign in front of them are all of the digits
  have hread : ∀ ds', ds = ds' → (if ds' ≠ [] ∧ ds'.all Char.isDigit ∧
      (ds'.dropWhile (· == '0')).length ≤ maxIndexDigits then
        if digitsValue ds' < Nat.pow 2 64 then some (digitsValue ds') else none
      else none) = if digitsValue ds < indexBound then some (digitsValue ds) else none := by
    rintro _ rfl
    by_cases hlt : digitsValue ds < indexBound
    · rw [if_pos ⟨hne, List.all_eq_true.2 hds, length_dropWhile_le hds hlt⟩, indexBound]
    · rw [if_neg hlt, if_neg (show ¬digitsValue ds < Nat.pow 2 64 from hlt), ite_self]
  unfold readIndex?
  rw [String.toList_ofList]
  dsimp only
  refine hread _ ?_
  split
  · exact absurd (hds '+' List.mem_cons_self) (by decide)
  · rfl

/-- An index is read back from its digits. -/
theorem readIndex?_toString (n : Nat) : readIndex? (toString n) = if n < indexBound then
    some n else none := by
  rw [Nat.toString_eq_ofList_toDigits, readIndex?_ofList Nat.toDigits_ne_nil, digitsValue_toDigits]
  exact fun c hc => Nat.isDigit_of_mem_toDigits (by decide) (by decide) hc

/-- Text with a character that is neither a digit nor a plus sign denotes no index. -/
theorem readIndex?_eq_none {s : String} {c : Char} (hmem : c ∈ s.toList) (hc : ¬c.isDigit)
    (hplus : c ≠ '+') :
    readIndex? s = none := by
  unfold readIndex?
  dsimp only
  rw [if_neg]
  rintro ⟨-, hall, -⟩
  refine hc (List.all_eq_true.1 hall c ?_)
  split
  · rename_i r hs
    rw [hs] at hmem
    exact (List.mem_cons.1 hmem).resolve_left hplus
  · exact hmem

/-! ### Decimals -/

/-- A power with a whole exponent as a quotient of powers with natural ones. -/
theorem zpow_eq_div {b : ℚ} (hb : b ≠ 0) (e : Int) : b ^ e = b ^ e.toNat / b ^ (-e).toNat := by
  rw [← zpow_natCast b e.toNat, ← zpow_natCast b (-e).toNat, ← zpow_sub₀ hb]
  congr 1
  omega

namespace Decimal

/-- The number that a decimal stands for. -/
def value (d : Decimal) : ℚ := d.digits * 10 ^ d.exponent

theorem value_strip (n : Nat) (d : Decimal) : (d.strip n).value = d.value := by
  induction n generalizing d with
  | zero => rfl
  | succ n ih =>
    rw [strip]
    split_ifs with hd
    · obtain ⟨k, hk⟩ := Nat.dvd_of_mod_eq_zero hd
      have hdiv : d.digits / 10 = k := by omega
      rw [ih, value, value, hdiv, hk, zpow_add_one₀ (by norm_num)]
      push_cast
      ring
    · rfl

theorem isDigit_or_of_mem_text {d : Decimal} {c : Char} (hc : c ∈ d.text.toList) :
    c.isDigit ∨ c = '.' := by
  have hdigit {n : Nat} {c : Char} (hc : c ∈ Nat.toDigits 10 n) : c.isDigit :=
    Nat.isDigit_of_mem_toDigits (by decide) (by decide) hc
  unfold text at hc
  dsimp only at hc
  split_ifs at hc
  · simp only [String.toList_ofList, List.mem_append, List.mem_replicate] at hc
    rcases hc with hc | ⟨-, rfl⟩
    · exact Or.inl (hdigit hc)
    · exact Or.inl rfl
  · simp only [String.toList_ofList, List.mem_append, List.mem_cons] at hc
    rcases hc with hc | rfl | hc
    · exact Or.inl (hdigit (List.mem_of_mem_take hc))
    · exact Or.inr rfl
    · exact Or.inl (hdigit (List.mem_of_mem_drop hc))
  · simp only [String.toList_ofList, List.mem_append, List.mem_cons, List.mem_replicate] at hc
    rcases hc with rfl | rfl | ⟨-, rfl⟩ | hc
    · exact Or.inl rfl
    · exact Or.inr rfl
    · exact Or.inl rfl
    · exact Or.inl (hdigit hc)

/-- A decimal from the bound of indices on is not read as an index. -/
theorem readIndex?_text {d : Decimal} (hd : (indexBound : ℚ) ≤ d.value) :
    readIndex? d.text = none := by
  unfold text
  dsimp only
  split_ifs with hexp hplaces
  · rw [readIndex?_ofList, if_neg]
    · rw [digitsValue_append_zeros, digitsValue_toDigits, Nat.not_lt, ← Nat.cast_le (α := ℚ)]
      obtain ⟨n, hn⟩ := Int.eq_ofNat_of_zero_le hexp
      simpa [value, hn] using hd
    · simp [Nat.toDigits_ne_nil]
    · intro c hc
      rcases List.mem_append.1 hc with hc | hc
      · exact Nat.isDigit_of_mem_toDigits (by decide) (by decide) hc
      · rw [List.eq_of_mem_replicate hc]
        rfl
  · exact readIndex?_eq_none (c := '.') (by simp) (by decide) (by decide)
  · exact readIndex?_eq_none (c := '.') (by simp) (by decide) (by decide)

end Decimal

namespace Rounding

variable {r : Rounding} {d : Decimal} {k e : Int}

theorem low_le_of_holds {c n : Nat} (hh : r.holds c n = true) : r.low * n ≤ c * r.denominator := by
  unfold holds at hh
  split_ifs at hh
  · simp only [Bool.and_eq_true, decide_eq_true_eq] at hh
    exact hh.1
  · simp only [Bool.and_eq_true, decide_eq_true_eq] at hh
    exact hh.1.le

/-- A decimal that reads back is not below the interval. -/
theorem low_le_of_onGrid (hden : 0 < r.denominator) (hd : r.onGrid e = some d) :
    (r.low : ℚ) / r.denominator ≤ d.value := by
  have hhit {c : Nat} (hh : r.holds (c * Nat.pow 10 e.toNat) (Nat.pow 10 (-e).toNat) = true) :
      (r.low : ℚ) / r.denominator ≤ Decimal.value ⟨c, e⟩ := by
    have hle : (r.low : ℚ) * 10 ^ (-e).toNat ≤ c * 10 ^ e.toNat * r.denominator := by
      exact_mod_cast low_le_of_holds hh
    rw [Decimal.value, zpow_eq_div (by norm_num), ← mul_div_assoc,
      div_le_div_iff₀ (by exact_mod_cast hden) (by positivity)]
    exact hle
  unfold onGrid at hd
  dsimp only at hd
  split_ifs at hd with hlow hhigh
  · cases hd
    exact hhit (Bool.and_eq_true_iff.1 hlow).1
  · cases hd
    exact hhit hhigh

/-- The search ends with a decimal that is not below the interval, also if no grid has one that
reads back. -/
theorem low_le_search (hden : 0 < r.denominator) (hlow : r.low ≤ r.value)
    (hdvd : r.denominator ∣ r.value) (hk : 18 ≤ k) (n fuel : Nat) (hn : n + fuel = 18) :
    (r.low : ℚ) / r.denominator ≤ (r.search k n fuel).value := by
  induction fuel generalizing n with
  | zero =>
    obtain ⟨i, hi⟩ := hdvd
    obtain ⟨j, hj⟩ := Int.eq_ofNat_of_zero_le (show 0 ≤ k - (n : Int) by omega)
    have hpow : (1 : ℚ) ≤ 10 ^ j := one_le_pow₀ (by norm_num)
    have hden' : (0 : ℚ) < r.denominator := Nat.cast_pos.2 hden
    rw [search, hi, Nat.mul_div_cancel_left _ hden, Decimal.value, hj]
    calc (r.low : ℚ) / r.denominator ≤ r.value / r.denominator := by gcongr
      _ = i := by
        rw [hi, Nat.cast_mul, mul_div_cancel_left₀ _ hden'.ne']
      _ ≤ i * 10 ^ (j : Int) := by
        rw [zpow_natCast]
        exact le_mul_of_one_le_right (Nat.cast_nonneg i) hpow
  | succ fuel ih =>
    rw [search]
    split
    · rename_i d hd
      exact low_le_of_onGrid hden hd
    · exact ih (n + 1) (by omega)

/-- The magnitude of a number that is not small. -/
theorem le_magnitude (hden : 0 < r.denominator) (hbig : Nat.pow 2 60 * r.denominator ≤ r.value) :
    18 ≤ r.magnitude := by
  have hpos : 0 < Nat.pow 2 60 * r.denominator := Nat.mul_pos (Nat.two_pow_pos 60) hden
  have hlog : 60 + Nat.log2 r.denominator ≤ Nat.log2 r.value := by
    rw [Nat.le_log2 (Nat.ne_of_gt (Nat.lt_of_lt_of_le hpos hbig)), Nat.pow_add]
    calc 2 ^ 60 * 2 ^ r.denominator.log2 ≤ 2 ^ 60 * r.denominator :=
          Nat.mul_le_mul_left _ (Nat.log2_self_le hden.ne')
      _ ≤ r.value := hbig
  unfold magnitude
  dsimp only
  split_ifs <;> omega

theorem value_ofBinary {m i : Nat} {q : Int} (hi : (m : ℚ) * 2 ^ q = i) :
    (ofBinary m q).value = (ofBinary m q).denominator * i := by
  have hmul : m * 2 ^ q.toNat = i * 2 ^ (-q).toNat := by
    rw [zpow_eq_div (by norm_num), ← mul_div_assoc, div_eq_iff (by positivity)] at hi
    exact_mod_cast hi
  calc 4 * m * 2 ^ q.toNat = 4 * (m * 2 ^ q.toNat) := Nat.mul_assoc _ _ _
    _ = 4 * (i * 2 ^ (-q).toNat) := by rw [hmul]
    _ = 4 * 2 ^ (-q).toNat * i := by rw [Nat.mul_comm i, Nat.mul_assoc]

/-- The interval does not reach down to the half of the value. -/
theorem low_ofBinary {m : Nat} {q : Int} (hm : m ≠ 0) :
    (ofBinary m q).low ≤ (ofBinary m q).value ∧ (ofBinary m q).value ≤ 2 * (ofBinary m q).low := by
  have hstep : 0 < Nat.pow 2 q.toNat := Nat.two_pow_pos _
  have hle : Nat.pow 2 q.toNat ≤ m * Nat.pow 2 q.toNat :=
    Nat.le_mul_of_pos_left _ (Nat.pos_of_ne_zero hm)
  unfold ofBinary
  dsimp only
  rw [Nat.mul_assoc]
  split_ifs <;> omega

end Rounding

/-- The shortest decimal of a big whole number is at least half of it. -/
theorem half_le_shortest {m i : Nat} {q : Int} (hi : (m : ℚ) * 2 ^ q = i)
    (hbig : Nat.pow 2 60 ≤ i) :
    (i : ℚ) / 2 ≤ (shortest m q).value := by
  have hm : m ≠ 0 := by
    rintro rfl
    rw [Nat.cast_zero, zero_mul, eq_comm, Nat.cast_eq_zero] at hi
    rw [hi] at hbig
    exact absurd hbig (by decide)
  obtain ⟨hlow, hhalf⟩ := Rounding.low_ofBinary (q := q) hm
  have hvalue := Rounding.value_ofBinary hi
  have hden : 0 < (Rounding.ofBinary m q).denominator := Nat.mul_pos (by decide) (Nat.two_pow_pos _)
  have hmag :=
    Rounding.le_magnitude hden (by rw [hvalue, Nat.mul_comm]; exact Nat.mul_le_mul_left _ hbig)
  have hsearch := Rounding.low_le_search hden hlow ⟨i, hvalue⟩ hmag 1 17 rfl
  have hden' : (0 : ℚ) < (Rounding.ofBinary m q).denominator := Nat.cast_pos.2 hden
  unfold shortest
  dsimp only
  rw [Decimal.value_strip]
  refine le_trans ?_ hsearch
  rw [div_le_div_iff₀ two_pos hden']
  have hcast : ((Rounding.ofBinary m q).denominator * i : ℚ) ≤ 2 * (Rounding.ofBinary m q).low := by
    exact_mod_cast hvalue ▸ hhalf
  linarith

/-- A whole number is displayed by its digits, or by a decimal beyond all indices. -/
theorem numberText_cases {x : Float} {i : Nat} (hx : (Binary.ofFloat x).rat? = some (i : ℚ)) :
    numberText x = toString i ∨
      ∃ d : Decimal, numberText x = d.text ∧ (indexBound : ℚ) ≤ d.value ∧ indexBound ≤ i := by
  obtain ⟨neg, m, q, hb, habs, hneg⟩ := Binary.rat?_eq_some_natCast_iff.1 hx
  have hvalue := Binary.natAbs?_eq_some_iff.1 habs
  unfold numberText
  simp only [hb, habs]
  by_cases hm : m = 0
  · subst hm
    obtain rfl : i = 0 := by simpa [eq_comm] using hvalue
    exact Or.inl (if_pos rfl)
  · have hsign : signText neg = "" := by
      cases neg with
      | false => rfl
      | true =>
        rw [hneg rfl, Nat.cast_zero, mul_eq_zero, Nat.cast_eq_zero] at hvalue
        exact absurd hvalue (by simp [hm, zpow_ne_zero])
    rw [if_neg hm, hsign, String.empty_append, String.empty_append]
    split_ifs with hexact
    · exact Or.inl rfl
    · have hbig : indexBound * 2 ≤ i := Nat.le_trans (by decide) (Nat.not_lt.1 hexact)
      refine Or.inr ⟨_, rfl,
        le_trans ?_ (half_le_shortest hvalue (Nat.le_trans (by decide) hbig)), by omega⟩
      rw [le_div_iff₀ two_pos]
      exact_mod_cast hbig

/-- An index is read back from the text of a number that is equal to it. -/
theorem readIndex?_numberText {x : Float} {i : Nat} (hx : (Binary.ofFloat x).rat? = some (i : ℚ)) :
    readIndex? (numberText x) = if i < indexBound then some i else none := by
  rcases numberText_cases hx with ht | ⟨d, ht, hd, hi⟩
  · rw [ht, readIndex?_toString]
  · rw [ht, Decimal.readIndex?_text hd, if_neg (Nat.not_lt.2 hi)]

/-- The text of a whole number has digits in it, and perhaps a point. -/
theorem isDigit_or_of_mem_numberText {x : Float} {i : Nat}
    (hx : (Binary.ofFloat x).rat? = some (i : ℚ)) {c : Char} (hc : c ∈ (numberText x).toList) :
    c.isDigit ∨ c = '.' := by
  rcases numberText_cases hx with ht | ⟨d, ht, -⟩
  · rw [ht, Nat.toString_eq_ofList_toDigits, String.toList_ofList] at hc
    exact Or.inl (Nat.isDigit_of_mem_toDigits (by decide) (by decide) hc)
  · rw [ht] at hc
    exact Decimal.isDigit_or_of_mem_text hc

end LiveMarkup
