import LiveMarkup.Eval.World

/-!
# Runs in sequence

How a sequence of two runs ends, said through how its parts end (`Run.bind_eq_ok_iff`,
`Run.bind_eq_failure_iff`), and the kinds of errors that a run can end with (`Run.FailsWith`).
-/

namespace LiveMarkup

namespace Outcome

variable {ε α : Type}

/-- A way of ending without a result, whatever the result would have been. -/
def ofFailure (o : Outcome ε Empty) : Outcome ε α := o.map Empty.elim

theorem ok_or_failure (o : Outcome ε α) : (∃ a, o = ok a) ∨ ∃ f, o = ofFailure f := by
  cases o with
  | ok a => exact Or.inl ⟨a, rfl⟩
  | error e => exact Or.inr ⟨error e, rfl⟩
  | stopped why => exact Or.inr ⟨stopped why, rfl⟩

theorem ok_ne_ofFailure {a : α} {f : Outcome ε Empty} : ok a ≠ ofFailure f := by
  intro h
  cases f with
  | ok b => exact b.elim
  | error e => cases h
  | stopped why => cases h

theorem ofFailure_injective : Function.Injective (ofFailure : Outcome ε Empty → Outcome ε α) := by
  rintro (b | e | _) (b' | e' | _) h
  all_goals first | exact b.elim | exact b'.elim | cases h <;> rfl

@[simp] theorem map_ofFailure {β : Type} (f : α → β) (o : Outcome ε Empty) :
    (ofFailure o : Outcome ε α).map f = ofFailure o := by
  cases o with
  | ok a => exact a.elim
  | error e => rfl
  | stopped why => rfl

theorem map_map {β γ : Type} (g : β → γ) (f : α → β) (o : Outcome ε α) :
    (o.map f).map g = o.map (g ∘ f) := by
  cases o <;> rfl

theorem ofStop_ne_error (o : Except Stop α) (e : ε) : ofStop o ≠ error e := by
  cases o <;> nofun

end Outcome

namespace Run

variable {S ε α β : Type} {r : Run S ε α} {f : α → Run S ε β}

theorem bind_eq_of_ok {a : α} {s t : S} (h : r s = (.ok a, t)) : (r >>= f) s = f a t := by
  show Run.bind r f s = _
  simp only [Run.bind, h]

theorem bind_eq_of_error {e : ε} {s t : S} (h : r s = (.error e, t)) :
    (r >>= f) s = (.error e, t) := by
  show Run.bind r f s = _
  simp only [Run.bind, h]

theorem bind_eq_of_stopped {why : Stop} {s t : S} (h : r s = (.stopped why, t)) :
    (r >>= f) s = (.stopped why, t) := by
  show Run.bind r f s = _
  simp only [Run.bind, h]

theorem read_bind (g : S → α) (s : S) : (read g >>= f) s = f (g s) s := rfl

theorem bind_eq_ok_iff {b : β} {s u : S} :
    (r >>= f) s = (.ok b, u) ↔ ∃ a t, r s = (.ok a, t) ∧ f a t = (.ok b, u) := by
  constructor
  · intro h
    rcases hr : r s with ⟨a | e | _, t⟩
    · rw [bind_eq_of_ok hr] at h
      exact ⟨a, t, rfl, h⟩
    · rw [bind_eq_of_error hr] at h
      cases h
    · rw [bind_eq_of_stopped hr] at h
      cases h
  · rintro ⟨a, t, hr, hf⟩
    rw [bind_eq_of_ok hr, hf]

theorem bind_eq_of_failure {o : Outcome ε Empty} {s t : S} (h : r s = (.ofFailure o, t)) :
    (r >>= f) s = (.ofFailure o, t) := by
  cases o with
  | ok a => exact a.elim
  | error e => exact bind_eq_of_error h
  | stopped why => exact bind_eq_of_stopped h

/-- A sequence ends without a result where one of its parts does. -/
theorem bind_eq_failure_iff {o : Outcome ε Empty} {s u : S} :
    (r >>= f) s = (.ofFailure o, u) ↔
      r s = (.ofFailure o, u) ∨ ∃ a t, r s = (.ok a, t) ∧ f a t = (.ofFailure o, u) := by
  constructor
  · intro h
    rcases hr : r s with ⟨out, t⟩
    rcases out.ok_or_failure with ⟨a, rfl⟩ | ⟨o', rfl⟩
    · rw [bind_eq_of_ok hr] at h
      exact Or.inr ⟨a, t, rfl, h⟩
    · rw [bind_eq_of_failure hr, Prod.mk.injEq] at h
      obtain ⟨ho, rfl⟩ := h
      rw [Outcome.ofFailure_injective ho]
      exact Or.inl rfl
  · rintro (h | ⟨a, t, hr, hf⟩)
    · exact bind_eq_of_failure h
    · rw [bind_eq_of_ok hr, hf]

theorem bind_eq_error_iff {e : ε} {s u : S} :
    (r >>= f) s = (.error e, u) ↔
      r s = (.error e, u) ∨ ∃ a t, r s = (.ok a, t) ∧ f a t = (.error e, u) :=
  bind_eq_failure_iff (o := .error e)

/-- A sequence ends with an error where one of its parts does. -/
theorem fst_bind_eq_error_iff {e : ε} {s : S} :
    ((r >>= f) s).1 = .error e ↔ (r s).1 = .error e ∨ ∃ a t, r s = (.ok a, t) ∧
    (f a t).1 = .error e := by
  rcases hrs : r s with ⟨a | e' | _, t⟩
  · rw [bind_eq_of_ok hrs]
    constructor
    · exact fun h => Or.inr ⟨a, t, rfl, h⟩
    · rintro (h | ⟨a', t', h, hf⟩) <;> cases h
      exact hf
  · rw [bind_eq_of_error hrs]
    constructor
    · intro h
      cases h
      exact Or.inl rfl
    · rintro (h | ⟨_, _, h, -⟩) <;> cases h
      rfl
  · rw [bind_eq_of_stopped hrs]
    constructor
    · exact nofun
    · rintro (h | ⟨_, _, h, -⟩) <;> cases h

/-- Sequences of runs end in the same way if their parts do. -/
theorem fst_bind_congr {r' : Run S ε α} {f' : α → Run S ε β} {s s' : S} (hr : (r s).1 = (r' s').1)
    (hf : ∀ a t t', r s = (.ok a, t) → r' s' = (.ok a, t') → (f a t).1 = (f' a t').1) :
    ((r >>= f) s).1 = ((r' >>= f') s').1 := by
  rcases h : r s with ⟨a | e | _, t⟩ <;> rcases h' : r' s' with ⟨a' | e' | _, t'⟩ <;>
    rw [h, h'] at hr <;> cases hr
  · rw [bind_eq_of_ok h, bind_eq_of_ok h']
    exact hf a t t' h h'
  · rw [bind_eq_of_error h, bind_eq_of_error h']
  · rw [bind_eq_of_stopped h, bind_eq_of_stopped h']

/-! ### Kinds of errors -/

/-- A run that ends with no errors but those of a kind. -/
def FailsWith (P : ε → Prop) (r : Run S ε α) : Prop := ∀ ⦃s e u⦄, r s = (.error e, u) → P e

variable {P : ε → Prop}

theorem failsWith_pure (a : α) : (pure a : Run S ε α).FailsWith P := by
  intro s e u h
  cases h

theorem failsWith_read (g : S → α) : (read g : Run S ε α).FailsWith P := by
  intro s e u h
  cases h

theorem failsWith_fail {e : ε} (he : P e) : (fail e : Run S ε α).FailsWith P := by
  intro s e' u h
  cases h
  exact he

theorem FailsWith.bind (hr : r.FailsWith P) (hf : ∀ a, (f a).FailsWith P) :
    (r >>= f).FailsWith P := by
  intro s e u h
  rcases bind_eq_error_iff.1 h with h | ⟨a, t, -, h⟩
  · exact hr h
  · exact hf a h

end Run

namespace Outcome

variable {δ ε α : Type}

/-- The result of an outcome. -/
def ok? : Outcome ε α → Option α
  | ok a => some a
  | _ => none

/-- The error of an outcome. -/
def error? : Outcome ε α → Option ε
  | error e => some e
  | _ => none

theorem ok?_eq_some_iff {o : Outcome ε α} {a : α} : o.ok? = some a ↔ o = .ok a := by
  cases o <;> simp [ok?]

theorem eq_ok_of_isSome {o : Outcome ε α} (h : o.ok?.isSome = true) (a : α) :
    o = .ok (o.ok?.getD a) := by
  cases o with
  | ok b => rfl
  | error e => cases h
  | stopped why => cases h

theorem error?_eq_some_iff {o : Outcome ε α} {e : ε} : o.error? = some e ↔ o = .error e := by
  cases o <;> simp [error?]

theorem of_mapError_eq_error {P : ε → Prop} {f : δ → ε} (hf : ∀ d, P (f d))
    {o : Outcome δ α} {e : ε} (h : o.mapError f = .error e) : P e := by
  cases o with
  | error d =>
    cases h
    exact hf d
  | ok _ => cases h
  | stopped why => cases h

end Outcome

theorem eq_ok_of_isOk {ε α : Type} {x : Except ε α} (h : x.isOk = true) (a : α) :
    x = .ok (x.toOption.getD a) := by
  cases x with
  | ok b => rfl
  | error e => cases h

end LiveMarkup
