import LiveMarkup.Proofs.Grammar.Reading
import LiveMarkup.Template.Shorthand

/-!
# Writing out shorthands

A shorthand is read exactly where its characters stand (`Shorthand.read_eq_ok_iff`).
`Shorthand.Expands s t` says that writing out shorthands makes `t` of `s` whatever stands behind it:
a text without an at sign is left as it is, and the characters of a shorthand become a marker.  A
marker cannot end a shorthand that was begun in front of it, since its name has a hyphen before any
quotation mark, so a text that has been written out holds no shorthand (`Shorthand.expand_expand`).
-/

namespace LiveMarkup

namespace Shorthand

open Rule

variable {s s' t t' r kind method : List Char}

/-- Whether a kind of event and a method can be written as a shorthand. -/
structure IsPair (kind method : List Char) : Prop where
  kind_ne : kind ≠ []
  kind : ∀ c ∈ kind, c.isLower = true
  method_ne : method ≠ []
  method : ∀ c ∈ method, (isWord c || c == '$') = true

/-- A shorthand as it is written. -/
def chars (kind method : List Char) : List Char := '@' :: (kind ++ '=' :: '"' :: (method ++ ['"']))

theorem IsPair.not_mem_kind (h : IsPair kind method) {c : Char} (hc : c.isLower = false) :
    c ∉ kind := by
  intro hm
  rw [h.kind c hm] at hc
  cases hc

theorem IsPair.not_mem_method (h : IsPair kind method) {c : Char}
    (hc : (isWord c || c == '$') = false) :
    c ∉ method := by
  intro hm
  rw [h.method c hm] at hc
  cases hc

/-- A shorthand is read where its characters stand. -/
theorem read_eq_ok_iff :
    shorthand.read s = .ok (kind, method) r ↔ IsPair kind method ∧ s = chars kind method ++ r := by
  constructor
  · intro h
    obtain ⟨_, t₁, h₁, h⟩ := read_bind_eq_ok_iff.1 h
    obtain ⟨_, t₂, h₂, h⟩ := read_bind_eq_ok_iff.1 h
    obtain ⟨_, t₃, h₃, h⟩ := read_bind_eq_ok_iff.1 h
    obtain ⟨_, t₄, h₄, h⟩ := read_bind_eq_ok_iff.1 h
    obtain ⟨_, t₅, h₅, h⟩ := read_bind_eq_ok_iff.1 h
    cases h
    obtain ⟨hkindne, hkind, -, rfl⟩ := read_run1_eq_ok_iff.1 h₂
    obtain ⟨hmethodne, hmethod, -, rfl⟩ := read_run1_eq_ok_iff.1 h₄
    rw [read_token_eq_ok_iff.1 h₁, read_token_eq_ok_iff.1 h₃, read_token_eq_ok_iff.1 h₅]
    exact ⟨⟨hkindne, hkind, hmethodne, hmethod⟩, by simp [chars]⟩
  · rintro ⟨h, rfl⟩
    have hequals : Stops Char.isLower ('=' :: '"' :: (method ++ '"' :: r)) := .cons (by decide) _
    have hquote : Stops (fun c => isWord c || c == '$') ('"' :: r) := .cons (by decide) r
    have hkind := read_run1_eq_ok_iff.2 ⟨h.kind_ne, h.kind, hequals, rfl⟩
    have hmethod := read_run1_eq_ok_iff.2 ⟨h.method_ne, h.method, hquote, rfl⟩
    have hs : chars kind method ++ r = '@' :: (kind ++ '=' :: '"' :: (method ++ '"' :: r)) := by
      simp [chars]
    rw [hs]
    refine (read_bind_of_ok (read_token rfl)).trans ((read_bind_of_ok hkind).trans ?_)
    refine (read_bind_of_ok (read_token rfl)).trans ((read_bind_of_ok hmethod).trans ?_)
    exact (read_bind_of_ok (read_token rfl)).trans rfl

theorem expand_of_read (h : shorthand.read s = .ok (kind, method) r) :
    expand s = marker kind method ++ expand r := by
  cases s with
  | nil => cases (read_eq_ok_iff.1 h).2
  | cons c s =>
    rw [expand]
    split
    · rename_i h'
      rw [h] at h'
      cases h'
      rfl
    · rename_i h'
      exact absurd h (h' _ _ _)

theorem expand_cons_of_not_read {c : Char}
    (h : ∀ kind method r, shorthand.read (c :: s) ≠ .ok (kind, method) r) :
    expand (c :: s) = c :: expand s := by
  rw [expand]
  split
  · rename_i h'
    exact absurd h' (h _ _ _)
  · rfl

/-! ### Parts of a text -/

/-- Whether writing out shorthands makes a text of another one, whatever comes after it. -/
def Expands (s t : List Char) : Prop := ∀ r, expand (s ++ r) = t ++ expand r

theorem Expands.append (h : Expands s t) (h' : Expands s' t') : Expands (s ++ s') (t ++ t') := by
  intro r
  rw [List.append_assoc, h, h', List.append_assoc]

theorem Expands.expand_eq (h : Expands s t) : expand s = t := by
  have hs := h []
  rwa [expand, List.append_nil, List.append_nil] at hs

theorem expands_self (h : '@' ∉ s) : Expands s s := by
  induction s with
  | nil => exact fun r => rfl
  | cons c s ih =>
    intro r
    rw [List.mem_cons, not_or] at h
    rw [List.cons_append, expand_cons_of_not_read, ih h.2 r, List.cons_append]
    intro kind method u hread
    exact h.1 (List.cons.inj (read_eq_ok_iff.1 hread).2).1.symm

theorem expands_chars (h : IsPair kind method) : Expands (chars kind method) (marker kind method) :=
  fun _ => expand_of_read (read_eq_ok_iff.2 ⟨h, rfl⟩)

/-- A text without an at sign has no shorthand. -/
theorem expand_eq_self (h : '@' ∉ s) : expand s = s := (expands_self h).expand_eq

/-! ### Texts that have been written out -/

theorem not_mem_marker (h : IsPair kind method) : '@' ∉ marker kind method := by
  have hkind : '@' ∉ kind := h.not_mem_kind (by decide)
  have hmethod : '@' ∉ method := h.not_mem_method (by decide)
  simp [marker, eventAttribute, hkind, hmethod]

/-- A text up to a quotation mark was there before shorthands were written out, if it has no
hyphen. -/
theorem exists_of_expand_eq (ht : '-' ∉ t) (h : expand s = t ++ '"' :: r) :
    ∃ r', s = t ++ '"' :: r' := by
  fun_induction expand s generalizing t with
  | case1 => simp at h
  | case2 c cs kind method u hread ih =>
    have hmarker : marker kind method ++ expand u =
        "data".toList ++ '-' ::
          ("event=\"".toList ++ (kind ++ ',' :: (method ++ '"' :: expand u))) := by
      simp [marker, eventAttribute]
    rw [hmarker] at h
    rcases List.append_eq_append_iff.1 h with ⟨a, rfl, ha⟩ | ⟨a, hdata, ha⟩
    · cases a with
      | nil => cases ha
      | cons d a =>
        -- the hyphen of the marker stands in front of the quotation mark
        rw [← (List.cons.inj ha).1] at ht
        exact absurd (List.mem_append_right _ List.mem_cons_self) ht
    · cases a with
      | nil => cases ha
      | cons d a =>
        have hd : d ∈ "data".toList := hdata ▸ List.mem_append_right _ List.mem_cons_self
        rw [← (List.cons.inj ha).1] at hd
        exact absurd hd (by decide)
  | case3 c cs hnot ih =>
    cases t with
    | nil =>
      rw [(List.cons.inj h).1]
      exact ⟨cs, rfl⟩
    | cons d t =>
      rw [List.mem_cons, not_or] at ht
      obtain ⟨rfl, hcs⟩ := List.cons.inj h
      obtain ⟨r', rfl⟩ := ih ht.2 hcs
      exact ⟨r', rfl⟩

/-- A text that has been written out holds no shorthand. -/
theorem expand_expand (s : List Char) : expand (expand s) = expand s := by
  fun_induction expand s with
  | case1 => rw [expand]
  | case2 c cs kind method r hread ih =>
    rw [expands_self (not_mem_marker (read_eq_ok_iff.1 hread).1), ih]
  | case3 c cs hnot ih =>
    rw [expand_cons_of_not_read, ih]
    intro kind method r hread
    obtain ⟨hpair, hs⟩ := read_eq_ok_iff.1 hread
    obtain ⟨rfl, hcs⟩ := List.cons.inj hs
    have hhyphen : '-' ∉ kind ++ '=' :: '"' :: method := by
      have hkind : '-' ∉ kind := hpair.not_mem_kind (by decide)
      have hmethod : '-' ∉ method := hpair.not_mem_method (by decide)
      simp [hkind, hmethod]
    obtain ⟨r', hr'⟩ := exists_of_expand_eq (r := r) hhyphen (hcs.trans (by simp))
    exact hnot kind method r' (read_eq_ok_iff.2 ⟨hpair, by simp [hr', chars]⟩)

end Shorthand

end LiveMarkup
