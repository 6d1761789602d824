import LiveMarkup.Proofs.Eval.Effect
import LiveMarkup.Proofs.Host.Agree

/-!
# What user code does to a host

User code reaches a host through actions alone.  `Host.engine_within` is the induction over how
deeply actions nest: an effect that leaves shared containers and the private state of the component
free, and that `update` stays within whenever the actions of user code do, is one that all actions
stay within.  The effect `inFlight` is the one for the time of a pass: `update` does nothing then,
so neither does anything else.
-/

namespace LiveMarkup

variable {σ : Type}

/-- An effect that says nothing about shared containers and the private state of the component. -/
def Effect.Free (E : Effect (HostWorld σ)) : Prop :=
  ∀ (w : HostWorld σ) (h : Heap) (c : σ), E.rel w ⟨h, { w.user with component := c }⟩

theorem Effect.Free.heap {E : Effect (HostWorld σ)} (hf : E.Free) (w : HostWorld σ) (h : Heap) :
    E.rel w { w with heap := h } := hf w h w.user.component

/-- An engine whose actions stay within an effect, whichever arrays are locked. -/
def Engine.Within (E : Effect (HostWorld σ)) (e : Engine σ) : Prop := ∀ rs a w,
    E.rel w (e.act rs a w).2

theorem Effect.Free.on {E : Effect (HostWorld σ)} (hf : E.Free) (w₀ : HostWorld σ) :
    FreeOn (E.rel w₀) :=
  fun w h c hw => E.trans hw (hf w h c)

theorem Engine.Within.agreeOn {E : Effect (HostWorld σ)} {e : Engine σ} (he : e.Within E)
    (w₀ : HostWorld σ) :
    e.AgreeOn (E.rel w₀) e where
  act rs a := .of_keeps fun w h => E.trans h (he rs a w)
  locked := rfl
  depth := rfl

theorem Engine.Within.lock {E : Effect (HostWorld σ)} {e : Engine σ} (he : e.Within E)
    (rs : List ArrayId) :
    (e.lock rs).Within E := he

theorem Script.run_within {E : Effect (HostWorld σ)} {e : Engine σ} {α : Type} (hf : E.Free)
    (he : e.Within E) (s : Script σ α) (w : HostWorld σ) : E.rel w (s.run e w).2 :=
  (s.run_agreeOn (hf.on w) (he.agreeOn w) w (E.refl w)).2

namespace Host

variable (host : Host σ) {E : Effect (HostWorld σ)} {e : Engine σ}

theorem wanted_within [EntityCodec] (hf : E.Free) (he : e.Within E) : (host.wanted e).Within E :=
  fun w => (host.wanted_agreeOn (hf.on w) (he.agreeOn w) w (E.refl w)).2

/-! ### What a pass ends with -/

theorem pass_of_ok [EntityCodec] {w w₁ : HostWorld σ} {new : List Node}
    (h : host.wanted e w = (.ok new, w₁)) :
    host.pass e w = (.ok (w₁.user.display new).1, { w₁ with user := (w₁.user.display new).2 }) :=
  Run.bind_eq_of_ok h

theorem pass_of_error [EntityCodec] {w w₁ : HostWorld σ} {err : Error}
    (h : host.wanted e w = (.error err, w₁)) :
    host.pass e w = (.error err, w₁) :=
  Run.bind_eq_of_error h

theorem pass_of_stopped [EntityCodec] {w w₁ : HostWorld σ} {why : Stop}
    (h : host.wanted e w = (.stopped why, w₁)) :
    host.pass e w = (.stopped why, w₁) :=
  Run.bind_eq_of_stopped h

theorem update_of_idle [EntityCodec] {w : HostWorld σ} (hp : w.user.phase = .idle) :
    host.update e w = ((host.pass e ⟨w.heap, w.user.withPhase .rendering⟩).1,
      ⟨(host.pass e ⟨w.heap, w.user.withPhase .rendering⟩).2.heap,
        (host.pass e ⟨w.heap, w.user.withPhase .rendering⟩).2.user.withPhase .idle⟩) :=
  if_pos hp

/-! ### Actions -/

theorem notify_within [EntityCodec] (hu : (host.update e).Within E) : (host.notify e).Within E := by
  refine (Run.within_read _).bind fun alive => ?_
  split
  · exact hu.bind fun _ => Run.within_pure _
  · exact Run.within_pure _

theorem commit_within [EntityCodec] (hf : E.Free) (hu : (host.update e).Within E) (target : Value)
    (locked : List ArrayId) (written : Heap → Except StateError Heap) :
    ((host.tracked e target).commit locked written).Within E := by
  intro w
  unfold Tracked.commit
  split
  · split
    · exact E.refl w
    · exact E.trans (hf.heap w _) (host.notify_within hu _)
  · exact E.refl w

theorem invoke_within (hf : E.Free) (he : e.Within E) (method : String) (event : Event) :
    (host.invoke e method event).Within E :=
  fun w => (host.invoke_agreeOn (hf.on w) (he.agreeOn w) method event w (E.refl w)).2

theorem dispatch_within (hf : E.Free) (he : e.Within E) (target : NodeId) (event : Event) :
    (host.dispatch e target event).Within E :=
  fun w => (host.dispatch_agreeOn (hf.on w) (he.agreeOn w) target event w (E.refl w)).2

/-- Actions may nest as deeply as they like: what passes that user code runs stay within, all
actions stay within. -/
theorem engine_within_of_update [EntityCodec] (hf : E.Free)
    (hu : ∀ n rs, (host.engine n).Within E → (host.update ((host.engine n).lock rs)).Within E)
    (n : Nat) :
    (host.engine n).Within E := by
  induction n with
  | zero => exact fun _ _ w => E.refl w
  | succ n ih =>
    intro rs a w
    have he := ih.lock rs
    have hupdate := hu n rs ih
    show E.rel w (host.execute ((host.engine n).lock rs) a w).2
    cases a with
    | call f args => exact (host.component.functions f args).run_within hf he w
    | set target k v => exact (host.commit_within hf hupdate target rs _).attempt w
    | push target v => exact (host.commit_within hf hupdate target rs _).attempt w
    | update => exact hupdate.attempt w
    | dispatch target event => exact (host.dispatch_within hf he target event).attempt w
    | invoke method event => exact (host.invoke_within hf he method event).attempt w

/-- What a pass stays within, all actions stay within. -/
theorem engine_within [EntityCodec] (hf : E.Free)
    (hu : ∀ e : Engine σ, e.Within E → (host.update e).Within E) (n : Nat) :
    (host.engine n).Within E :=
  host.engine_within_of_update hf (fun n rs he => hu ((host.engine n).lock rs) he) n

end Host

/-! ### While a pass is going on -/

/-- No array is locked to begin with. -/
theorem Host.engine_lock_nil [EntityCodec] (host : Host σ) (n : Nat) :
    (host.engine n).lock [] = host.engine n := by
  cases n <;> rfl

/-- While a pass is going on, a host keeps all it has but the private state of its component. -/
def inFlight : Effect (HostWorld σ) where
  rel w w' := w.user.phase ≠ .idle → w'.user = { w.user with component := w'.user.component }
  refl _ _ := rfl
  trans {w₁ w₂ w₃} h h' hp := by
    have hu := h hp
    have hp₂ : w₂.user.phase ≠ .idle := by rw [hu]; exact hp
    rw [h' hp₂, hu]

theorem inFlight_free : (inFlight : Effect (HostWorld σ)).Free := fun _ _ _ _ => rfl

namespace Host

variable [EntityCodec] (host : Host σ)

/-- A call that arrives while a pass is going on does nothing. -/
theorem update_of_ne_idle (e : Engine σ) {w : HostWorld σ} (hp : w.user.phase ≠ .idle) :
    host.update e w = (.ok .none, w) := if_neg hp

theorem engine_inFlight (n : Nat) : (host.engine n).Within inFlight :=
  host.engine_within inFlight_free (fun e _ w hp => by rw [host.update_of_ne_idle e hp]) n

/-- Reading what to display leaves the host alone, whatever user code does in the meantime. -/
theorem user_wanted {e : Engine σ} (he : e.Within inFlight) {w : HostWorld σ}
    (hp : w.user.phase ≠ .idle) :
    (host.wanted e w).2.user = { w.user with component := (host.wanted e w).2.user.component } :=
  host.wanted_within inFlight_free he w hp

end Host

end LiveMarkup
