import LiveMarkup.Eval.Escape

/-!
# The walk that writes a value

What one step of `escapeWithin` does for each kind of value, and what `writeEach` does for the items
of an array. A text that is written at some depth is written at all greater depths
(`escapeWithin_mono`).
-/

namespace LiveMarkup

/-! ### One step of a walk -/

section Steps

variable {σ W : Type} {rt : Runtime σ} {n : Nat} {opn : List ArrayId} {escape : Bool} {w : World σ}

theorem writeEach_cons_of_ok {write : Value → W → Except Stop String × W} {v : Value}
    {vs : List Value} {w w' : W} {t : String} (h : write v w = (.ok t, w')) :
    writeEach write (v :: vs) w = (writeEach write vs w').map (Except.map (t :: ·)) id := by
  rw [writeEach, h]
  dsimp only
  rcases writeEach write vs w' with ⟨_ | ts, w''⟩ <;> rfl

theorem writeEach_cons_eq_ok_iff {write : Value → W → Except Stop String × W} {v : Value}
    {vs : List Value} {w w' : W} {ts : List String} :
    writeEach write (v :: vs) w = (.ok ts, w') ↔
      ∃ t ts' w₁, write v w = (.ok t, w₁) ∧ writeEach write vs w₁ = (.ok ts', w') ∧
        ts = t :: ts' := by
  constructor
  · intro h
    rcases hv : write v w with ⟨_ | t, w₁⟩
    · rw [writeEach, hv] at h
      cases h
    · rw [writeEach_cons_of_ok hv] at h
      rcases hvs : writeEach write vs w₁ with ⟨_ | ts', w₂⟩ <;> rw [hvs] at h <;> cases h
      exact ⟨t, ts', w₁, rfl, hvs, rfl⟩
  · rintro ⟨t, ts', w₁, hv, hvs, rfl⟩
    rw [writeEach_cons_of_ok hv, hvs]
    rfl

theorem escapeWithin_function {f : FunctionId} {v : Value} {w' : World σ}
    (h : rt.call opn f [] w = (.ok v, w')) :
    escapeWithin rt (n + 1) opn escape (.function f) w = escapeWithin rt n opn true v w' := by
  rw [escapeWithin, h]

theorem escapeWithin_array_of_mem {r : ArrayId} (ho : r ∈ opn) :
    escapeWithin rt (n + 1) opn escape (.array r) w = (.ok "", w) := by
  rw [escapeWithin, if_pos ho]

theorem escapeWithin_array_of_notMem {r : ArrayId} (ho : r ∉ opn) :
    escapeWithin rt (n + 1) opn escape (.array r) w =
      (writeEach (escapeWithin rt n (r :: opn) true) (w.heap.items r).toList w).map
        (Except.map (",".intercalate ·)) id := by
  rw [escapeWithin, if_neg ho]
  rcases writeEach _ _ w with ⟨_ | ts, w'⟩ <;> rfl

theorem escapeWithin_array_eq_ok_iff {r : ArrayId} (ho : r ∉ opn) {t : String} {w' : World σ} :
    escapeWithin rt (n + 1) opn escape (.array r) w = (.ok t, w') ↔
      ∃ ts, writeEach (escapeWithin rt n (r :: opn) true) (w.heap.items r).toList w = (.ok ts, w') ∧
        ",".intercalate ts = t := by
  rw [escapeWithin_array_of_notMem ho]
  constructor
  · intro h
    rcases hts : writeEach (escapeWithin rt n (r :: opn) true) (w.heap.items r).toList w with
      ⟨_ | ts, w₁⟩ <;>
      rw [hts] at h <;> cases h
    exact ⟨ts, rfl, rfl⟩
  · rintro ⟨ts, hts, rfl⟩
    rw [hts]
    rfl

/-- A value that is neither an array nor a function is written in one step. -/
theorem escapeWithin_plain {v : Value} (ha : ∀ r, v ≠ .array r) (hf : ∀ f, v ≠ .function f) :
    escapeWithin rt
    (n + 1) opn true v w = (.ok (escapeText (if v.isNullish then "" else v.plainText)), w) := by
  cases v with
  | array r => exact absurd rfl (ha r)
  | function f => exact absurd rfl (hf f)
  | _ => rfl

/-- The request to escape matters neither to arrays nor to functions. -/
theorem escapeWithin_escape {v : Value} (hv : (∃ r, v = .array r) ∨ ∃ f, v = .function f) :
    escapeWithin rt n opn escape v w = escapeWithin rt n opn true v w := by
  cases n with
  | zero => rfl
  | succ n => rcases hv with ⟨r, rfl⟩ | ⟨f, rfl⟩ <;> rfl

end Steps

/-! ### Greater depths -/

section Depth

variable {σ W : Type} {rt : Runtime σ}

theorem writeEach_mono {write write' : Value → W → Except Stop String × W}
    (hw : ∀ v w t w', write v w = (.ok t, w') → write' v w = (.ok t, w'))
    {vs : List Value} {w w' : W} {ts : List String} (h : writeEach write vs w = (.ok ts, w')) :
    writeEach write' vs w = (.ok ts, w') := by
  induction vs generalizing w ts with
  | nil => exact h
  | cons v vs ih =>
    obtain ⟨t, ts', w₁, hv, hvs, rfl⟩ := writeEach_cons_eq_ok_iff.1 h
    exact writeEach_cons_eq_ok_iff.2 ⟨t, ts', w₁, hw v w t w₁ hv, ih hvs, rfl⟩

/-- What is written at some depth is written at all greater depths. -/
theorem escapeWithin_mono {n m : Nat} (hnm : n ≤ m) {opn : List ArrayId} {escape : Bool} {v : Value}
    {w w' : World σ} {t : String} (h : escapeWithin rt n opn escape v w = (.ok t, w')) :
    escapeWithin rt m opn escape v w = (.ok t, w') := by
  induction n generalizing m opn escape v w w' t with
  | zero => cases h
  | succ n ih =>
    obtain ⟨m, rfl⟩ := Nat.exists_eq_add_of_le' (Nat.le_of_add_left_le hnm)
    have hnm : n ≤ m := Nat.le_of_succ_le_succ hnm
    cases v with
    | function f =>
      rcases hcall : rt.call opn f [] w with ⟨_ | v, w₁⟩
      · rw [escapeWithin, hcall] at h
        cases h
      · rw [escapeWithin_function hcall] at h ⊢
        exact ih hnm h
    | array r =>
      by_cases ho : r ∈ opn
      · rw [escapeWithin_array_of_mem ho] at h ⊢
        exact h
      · obtain ⟨ts, hts, rfl⟩ := (escapeWithin_array_eq_ok_iff ho).1 h
        exact (escapeWithin_array_eq_ok_iff ho).2 ⟨ts,
          writeEach_mono (fun _ _ _ _ => ih hnm) hts, rfl⟩
    | _ => exact h

end Depth

end LiveMarkup
