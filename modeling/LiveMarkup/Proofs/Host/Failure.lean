import LiveMarkup.Markup.Reference
import LiveMarkup.Proofs.Host.Effect

/-!
# Passes that fail

A pass can fail only while it finds out what to display, and it touches the document after that.  So
a call that fails leaves the host as it was (`Host.world_of_failed_call`): of all that was done only
what user code wrote into shared containers and into the private state of the component remains.
-/

namespace LiveMarkup

variable {σ : Type}

/-- Whether an error is one that a pass can end with. -/
def Error.IsOfPass (err : Error) : Prop := (∃ c, err = .template c) ∨ ∃ c, err = .markup c

theorem Engine.run_failsWith {P : Error → Prop} {α : Type} (e : Engine σ) (s : Script σ α) :
    (e.run s : Run (HostWorld σ) Error α).FailsWith P := by
  intro w err u h
  have h := congrArg Prod.fst h
  change Outcome.ofStop (s.run e w).1 = .error err at h
  cases hs : (s.run e w).1 <;> rw [hs] at h <;> cases h

namespace Host

variable (host : Host σ) (e : Engine σ)

theorem source_failsWith {P : Error → Prop} : (host.source e).FailsWith P := by
  unfold source
  split
  · exact Run.failsWith_pure _
  · exact e.run_failsWith _

theorem wanted_failsWith [EntityCodec] : (host.wanted e).FailsWith Error.IsOfPass := by
  have template (c : TemplateError) : (Error.template c).IsOfPass := Or.inl ⟨c, rfl⟩
  have markup (c : MarkupError) : (Error.markup c).IsOfPass := Or.inr ⟨c, rfl⟩
  refine (host.source_failsWith e).bind fun source => (e.run_failsWith _).bind fun fields =>
    Run.FailsWith.bind ?_ fun t => Run.FailsWith.bind ?_ fun text => ?_
  · exact fun _ _ _ h => Outcome.of_mapError_eq_error template (congrArg Prod.fst h)
  · exact fun _ _ _ h => Outcome.of_mapError_eq_error template (congrArg Prod.fst h)
  · exact fun _ _ _ h => Outcome.of_mapError_eq_error markup (congrArg Prod.fst h)

/-! ### What a pass ends with -/

/-- A pass that fails has failed to find out what to display. -/
theorem pass_eq_error_iff [EntityCodec] {w w' : HostWorld σ} {err : Error} :
    host.pass e w = (.error err, w') ↔ host.wanted e w = (.error err, w') := by
  refine ⟨fun h => ?_, host.pass_of_error⟩
  rcases Run.bind_eq_error_iff.1 h with h | ⟨new, w₁, -, h⟩
  · exact h
  · cases h

/-- A call that fails found no pass going on. -/
theorem update_eq_error [EntityCodec] {w w' : HostWorld σ} {err : Error}
    (h : host.update e w = (.error err, w')) :
    w.user.phase = .idle ∧
      ∃ w₁, host.wanted e { w with user := w.user.withPhase .rendering } = (.error err, w₁) ∧
        w' = { w₁ with user := w₁.user.withPhase .idle } := by
  by_cases hp : w.user.phase = .idle
  · refine ⟨hp, ?_⟩
    unfold update at h
    rw [if_pos hp] at h
    rcases hpass : host.pass e { w with user := w.user.withPhase .rendering } with ⟨o, w₁⟩
    rw [hpass] at h
    cases h
    exact ⟨w₁, (host.pass_eq_error_iff e).1 hpass, rfl⟩
  · rw [host.update_of_ne_idle e hp] at h
    cases h

/-- The host that a failed pass leaves is the one that it found, but for the private state of the
component. -/
theorem user_of_wanted [EntityCodec] {e : Engine σ} (he : e.Within inFlight) {w w₁ : HostWorld σ}
    {o : Outcome Error (List Node)} (hp : w.user.phase = .idle)
    (hw : host.wanted e { w with user := w.user.withPhase .rendering } = (o, w₁)) :
    w₁.user.withPhase .idle = { w.user with component := w₁.user.component } := by
  have hin : (w.user.withPhase .rendering).phase ≠ .idle := by simp [HostState.withPhase]
  have hu := host.user_wanted he (w := { w with user := w.user.withPhase .rendering }) hin
  rw [hw] at hu
  rw [hu]
  simp [HostState.withPhase, ← hp]

end Host

/-! ### Calls that run a pass -/

/-- What makes a host run a pass: a call, being put into a page, or a write to state. -/
inductive Trigger where
  | update
  | connected
  | set (target : Value) (k : Key) (v : Value)
  | push (target v : Value)

namespace Trigger

/-- The containers that the pass finds, if a write is not refused. -/
def written : Trigger → Heap → Except StateError Heap
  | update, h => .ok h
  | connected, h => .ok h
  | set target k v, h => k.write h target v
  | push target v, h => appendItem h target v

/-- Whether it is a write to one of some arrays. -/
def writesTo (rs : List ArrayId) : Trigger → Bool
  | update | connected => false
  | set target _ _ | push target _ => target.isArrayIn rs

/-- The whole call. -/
def call [EntityCodec] (host : Host σ) (e : Engine σ) : Trigger → Run (HostWorld σ) Error Unit
  | update => do
    let _ ← host.update e
    pure ()
  | connected => do
    let _ ← host.connected e
    pure ()
  | set target k v => (host.tracked e target).setUnder e.locked k v
  | push target v => (host.tracked e target).pushUnder e.locked v

end Trigger

namespace Host

variable (host : Host σ) (e : Engine σ)

theorem connected_eq_error [EntityCodec] {w w' : HostWorld σ} {err : Error}
    (h : host.connected e w = (.error err, w')) : host.update e w = (.error err, w') := by
  unfold connected at h
  rcases Run.bind_eq_error_iff.1 h with h | ⟨stats, w₁, -, h⟩
  · exact h
  · rcases Run.bind_eq_error_iff.1 h with h | ⟨u, w₂, -, h⟩
    · exact (e.run_failsWith (P := fun _ => False) _ h).elim
    · cases h

theorem notify_eq_error [EntityCodec] {w w' : HostWorld σ} {err : Error}
    (h : host.notify e w = (.error err, w')) :
    host.update e w = (.error err, w') := by
  unfold notify at h
  rcases Run.bind_eq_error_iff.1 h with h | ⟨alive, w₁, hr, h⟩
  · cases h
  · cases hr
    split at h
    · rcases Run.bind_eq_error_iff.1 h with h | ⟨stats, w₂, -, h⟩
      · exact h
      · cases h
    · cases h

theorem commit_eq_error [EntityCodec] {target : Value} {locked : List ArrayId}
    {written : Heap → Except StateError Heap} {w w' : HostWorld σ} {err : Error}
    (h : (host.tracked e target).commit locked written w = (.error err, w')) :
    (∃ c, err = .state c ∧ written w.heap = .error c ∧ w' = w) ∨
      ∃ h', written w.heap = .ok h' ∧ host.update e { w with heap := h' } = (.error err, w') := by
  unfold Tracked.commit at h
  split at h
  · rename_i h' hw
    split at h
    · cases h
    · exact Or.inr ⟨h', hw, host.notify_eq_error e h⟩
  · rename_i c hw
    cases h
    exact Or.inl ⟨c, rfl, hw, rfl⟩

/-- A call that fails was a refused write, or the pass that it ran failed. -/
theorem call_eq_error [EntityCodec] {t : Trigger} {w w' : HostWorld σ} {err : Error}
    (h : t.call host e w = (.error err, w')) :
    (∃ c, err = .state c ∧ t.written w.heap = .error c ∧ w' = w) ∨
      ∃ h', t.written w.heap = .ok h' ∧ host.update e { w with heap := h' } = (.error err, w') := by
  cases t with
  | update =>
    rcases Run.bind_eq_error_iff.1 h with h | ⟨_, _, -, h⟩
    · exact Or.inr ⟨w.heap, rfl, h⟩
    · cases h
  | connected =>
    rcases Run.bind_eq_error_iff.1 h with h | ⟨_, _, -, h⟩
    · exact Or.inr ⟨w.heap, rfl, host.connected_eq_error e h⟩
    · cases h
  | set target k v => exact host.commit_eq_error e h
  | push target v => exact host.commit_eq_error e h

/-! ### Calls while a pass is going on -/

theorem notify_of_ne_idle [EntityCodec] {w : HostWorld σ} (hp : w.user.phase ≠ .idle) :
    host.notify e w = (.ok (), w) := by
  refine (Run.read_bind _ w).trans ?_
  split
  · exact Run.bind_eq_of_ok (host.update_of_ne_idle e hp)
  · rfl

theorem commit_of_ne_idle [EntityCodec] (target : Value) (locked : List ArrayId)
    (written : Heap → Except StateError Heap) {w : HostWorld σ} (hp : w.user.phase ≠ .idle) :
    (host.tracked e target).commit locked written w =
      match written w.heap with
      | .ok h' =>
        if target.isArrayIn locked then (.stopped .panic, w) else (.ok (), { w with heap := h' })
      | .error c => (.error (.state c), w) := by
  unfold Tracked.commit
  cases hw : written w.heap with
  | ok h' => exact congrArg (ite _ _) (host.notify_of_ne_idle e hp)
  | error c => rfl

/-- While a pass is going on, a write changes its container and nothing else happens, unless it is
refused or the container is a locked array. -/
theorem call_of_ne_idle [EntityCodec] {t : Trigger} (ht : t ≠ .connected) {w : HostWorld σ}
    (hp : w.user.phase ≠ .idle) :
    t.call host e w =
      match t.written w.heap with
      | .ok h' =>
        if t.writesTo e.locked then (.stopped .panic, w) else (.ok (), { w with heap := h' })
      | .error c => (.error (.state c), w) := by
  cases t with
  | update => exact Run.bind_eq_of_ok (host.update_of_ne_idle e hp)
  | connected => exact absurd rfl ht
  | set target k v =>
    exact host.commit_of_ne_idle e target e.locked (fun h => k.write h target v) hp
  | push target v =>
    exact host.commit_of_ne_idle e target e.locked (fun h => appendItem h target v) hp

/-! ### Calls that fail -/

/-- A call that fails was a refused write, or it found no pass going on and the pass that it ran
failed with an error of a template or of markup.  Then the host is as it was but for the private
state of its component, and the containers are as the pass left them where it failed: what user code
wrote into them on the way, each write taking effect and running no pass of its own, stays.  (A
write to an array that is locked has no result: the program stops.) -/
theorem world_of_failed_call [EntityCodec] (n : Nat) (rs : List ArrayId) :
    (∀ (t : Trigger) (w w' : HostWorld σ) (err : Error),
      t.call host ((host.engine n).lock rs) w = (.error err, w') →
      (∃ c, err = .state c ∧ t.written w.heap = .error c ∧ w' = w) ∨
        err.IsOfPass ∧ w.user.phase = .idle ∧ ∃ h' w₁, t.written w.heap = .ok h' ∧
          host.wanted ((host.engine n).lock rs) ⟨h', w.user.withPhase .rendering⟩ =
            (.error err, w₁) ∧
          w' = ⟨w₁.heap, { w.user with component := w₁.user.component }⟩) ∧
    ∀ (t : Trigger) (w : HostWorld σ), t ≠ .connected → w.user.phase ≠ .idle →
      t.call host ((host.engine n).lock rs) w =
        match t.written w.heap with
        | .ok h' => if t.writesTo rs then (.stopped .panic, w) else (.ok (), { w with heap := h' })
        | .error c => (.error (.state c), w) := by
  refine ⟨fun t w w' err h => ?_, fun t w ht hp => host.call_of_ne_idle _ ht hp⟩
  rcases host.call_eq_error _ h with refused | ⟨h', hw, hu⟩
  · exact Or.inl refused
  · obtain ⟨hp, w₁, hwanted, rfl⟩ := host.update_eq_error _ hu
    refine Or.inr ⟨host.wanted_failsWith _ hwanted, hp, h', w₁, hw, hwanted, ?_⟩
    have hs :=
      host.user_of_wanted ((host.engine_inFlight n).lock rs) (w := { w with heap := h' }) hp hwanted
    simp only [hs]

section

attribute [local instance] EntityCodec.common

/-- A host whose component sets its state while its fields are read, and whose template names no
field of it. -/
def hasty : Host Unit := .ofComponent {
  render := pure "<b>\x7b\x7bcount\x7d\x7d</b>"
  css := ""
  fields := .ask (.set (.object 0) (.name "count") (.bool true)) fun _ => pure []
  methods := []
  functions := fun _ _ => pure .undefined
  connected := pure ()
  disconnected := pure ()
  adopted := pure ()
  attributeChanged := fun _ _ _ => pure () }

/-- The world of `hasty` before it has displayed anything, with one object for its state. -/
def hastyStart : HostWorld Unit := hasty.start ⟨#[], #[[]]⟩ ()

theorem world_of_failed_call_hasty :
    ∃ w', Trigger.update.call hasty (hasty.engine 1) hastyStart =
        (.error (.template (.notDefined "count")), w') ∧
      w'.user = hastyStart.user ∧
      ((Key.name "count").read w'.heap (.object 0)).text w'.heap = "true" := by
  have herr : (Trigger.update.call hasty (hasty.engine 1) hastyStart).1.error? =
      some (.template (.notDefined "count")) := by decide +kernel
  have hcall : Trigger.update.call hasty (hasty.engine 1) hastyStart =
      (.error (.template (.notDefined "count")), _) :=
        Prod.ext (Outcome.error?_eq_some_iff.1 herr) rfl
  rcases (hasty.world_of_failed_call 1 []).1 _ _ _ _ hcall with
    ⟨c, h, -, -⟩ | ⟨-, -, h', w₁, -, -, hw⟩
  · cases h
  · refine ⟨_, hcall, ?_, ?_⟩
    · rw [hw]
    · decide +kernel

end

end Host

end LiveMarkup
