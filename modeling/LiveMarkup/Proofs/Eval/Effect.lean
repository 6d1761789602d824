import LiveMarkup.Proofs.Eval.Agree

/-!
# What rendering does to the world

An `Effect` is a relation between states before and after, closed under doing nothing and under
doing one thing after another.  A run stays `Within` an effect if it leads from each state to one
that the effect allows.  Rendering touches the world only by making arrays, by calling functions and
by writing values out, so it stays within every effect that these three stay within
(`Template.render_within`).
-/

namespace LiveMarkup

/-- Changes of a state that may be made any number of times. -/
structure Effect (S : Type) where
  rel : S → S → Prop
  refl : ∀ s, rel s s
  trans : ∀ {s t u}, rel s t → rel t u → rel s u

/-- A run that changes the state only in ways that an effect allows, however it ends. -/
def Run.Within {S ε α : Type} (E : Effect S) (r : Run S ε α) : Prop := ∀ s, E.rel s (r s).2

namespace Run

variable {S ε α β : Type} {E : Effect S}

theorem within_pure (a : α) : (pure a : Run S ε α).Within E := E.refl

theorem within_read (f : S → α) : (read f : Run S ε α).Within E := E.refl

theorem within_ofOutcome (o : Outcome ε α) : (ofOutcome o : Run S ε α).Within E := E.refl

theorem Within.bind {r : Run S ε α} {f : α → Run S ε β} (hr : r.Within E)
    (hf : ∀ a, (f a).Within E) :
    (r >>= f).Within E := by
  intro s
  have h := hr s
  rcases hrs : r s with ⟨_ | _ | _, s'⟩ <;> rw [hrs] at h
  · rw [bind_eq_of_ok hrs]
    exact E.trans h (hf _ s')
  · rw [bind_eq_of_error hrs]
    exact h
  · rw [bind_eq_of_stopped hrs]
    exact h

theorem Within.attempt {r : Run S ε α} (hr : r.Within E) (s : S) : E.rel s (r.attempt s).2 := by
  have h := hr s
  unfold Run.attempt
  rcases hrs : r s with ⟨_ | _ | _, s'⟩ <;> rw [hrs] at h <;> exact h

end Run

/-! ### Rendering -/

section Render

variable {σ : Type} {E : Effect (World σ)}

theorem escapeWithin_within {rt : Runtime σ}
    (hc : ∀ rs f args w, E.rel w (rt.call rs f args w).2) (n : Nat) (opn : List ArrayId)
    (escape : Bool) (v : Value) (w : World σ) :
    E.rel w (escapeWithin rt n opn escape v w).2 := by
  have hcall (rs : List ArrayId) (f : FunctionId) (args : List Value) :
      AgreeOn (E.rel w) (rt.call rs f args) (rt.call rs f args) :=
    .of_keeps fun w' h => E.trans h (hc rs f args w')
  exact (escapeWithin_agreeOn hcall n opn escape v w (E.refl w)).2

theorem escapeHtml_within {rt : Runtime σ}
    (hc : ∀ rs f args w, E.rel w (rt.call rs f args w).2) (v : Value) (escape : Bool)
    (w : World σ) : E.rel w (escapeHtml rt v escape w).2 :=
  escapeWithin_within hc _ [] escape v w

theorem writeEach_within {write : Value → World σ → Except Stop String × World σ}
    (hw : ∀ v w, E.rel w (write v w).2) (vs : List Value) (w : World σ) :
    E.rel w (writeEach write vs w).2 := by
  have hagree (v : Value) : AgreeOn (E.rel w) (write v) (write v) := .of_keeps fun w' h =>
    E.trans h (hw v w')
  exact (writeEach_agreeOn hagree vs w (E.refl w)).2

/-- An environment whose calls and whose writing out of values stay within an effect that making an
array stays within. -/
structure Env.Within (E : Effect (World σ)) (env : Env σ) : Prop where
  newArray : ∀ w vs, E.rel w { w with heap := (w.heap.newArray vs).2 }
  call : ∀ rs f args w, E.rel w (env.runtime.call rs f args w).2
  write : ∀ v escape w, E.rel w (env.options.escape env.runtime v escape w).2

theorem Env.Within.agreeOn {env : Env σ} (hE : env.Within E) (w₀ : World σ) :
    env.AgreeOn (E.rel w₀) env where
  newArray w vs h := E.trans h (hE.newArray w vs)
  call rs f args := .of_keeps fun w h => E.trans h (hE.call rs f args w)
  write v escape := .of_keeps fun w h => E.trans h (hE.write v escape w)
  fields := rfl
  limit := rfl

/-- Rendering a template stays within an effect that its environment stays within. -/
theorem Template.render_within {env : Env σ} (hE : env.Within E) (t : Template) :
    (t.render env).Within E :=
  fun w => (t.render_agreeOn (hE.agreeOn w) w (E.refl w)).2

end Render

end LiveMarkup
