import LiveMarkup.Host.Event
import LiveMarkup.Proofs.Eval.Agree

/-!
# Hosts with engines that agree

What a host does depends on its engine through the actions of user code alone.  So two engines whose
actions agree on a kind of world lead to the same nodes (`Host.wanted_agreeOn`) and to the same
calls of methods (`Host.dispatch_agreeOn`) there, if user code that works on shared containers and
on the private state of the component does not leave this kind of world.
-/

namespace LiveMarkup

variable {σ : Type} {P : HostWorld σ → Prop}

/-- Whether a kind of world says nothing about shared containers and the private state of the
component. -/
def FreeOn (P : HostWorld σ → Prop) : Prop := ∀ w h c, P w → P ⟨h, { w.user with component := c }⟩

theorem FreeOn.heap (hf : FreeOn P) {w : HostWorld σ} (hw : P w) (h : Heap) :
    P { w with heap := h } :=
  hf w h w.user.component hw

/-- Engines that carry out actions in agreement, with the same arrays locked. -/
structure Engine.AgreeOn (P : HostWorld σ → Prop) (e e' : Engine σ) : Prop where
  act : ∀ rs a, LiveMarkup.AgreeOn P (e.act rs a) (e'.act rs a)
  locked : e.locked = e'.locked
  depth : e.depth = e'.depth

namespace Engine.AgreeOn

variable {e e' : Engine σ}

theorem perform (he : e.AgreeOn P e') (a : Action) :
    LiveMarkup.AgreeOn P (e.perform a) (e'.perform a) := by
  unfold Engine.perform
  rw [← he.locked]
  exact he.act e.locked a

theorem lock (he : e.AgreeOn P e') (rs : List ArrayId) : (e.lock rs).AgreeOn P (e'.lock rs) :=
  ⟨he.act, rfl, he.depth⟩

end Engine.AgreeOn

section Scripts

variable {e e' : Engine σ} {ε α : Type}

theorem Script.run_agreeOn (hf : FreeOn P) (he : e.AgreeOn P e') (s : Script σ α) :
    AgreeOn P (s.run e) (s.run e') := by
  induction s with
  | done a => exact .of_keeps fun _ h => h
  | look k ih => exact fun w hw => ih w w hw
  | keep f k ih => exact fun w hw => ih _ (hf w w.heap (f w.user.component) hw)
  | touch rs f k ih =>
    intro w hw
    unfold Script.run
    rw [← he.locked]
    split
    · exact ⟨rfl, hw⟩
    · exact ih _ _ (hf.heap hw (f w.heap).2)
  | ask a k ih =>
    intro w hw
    obtain ⟨ha, hp⟩ := he.perform a w hw
    unfold Script.run
    rw [← ha]
    rcases hr : e.perform a w with ⟨_ | r, w'⟩ <;> rw [hr] at hp
    · exact ⟨rfl, hp⟩
    · exact ih r w' hp

theorem Engine.run_agreeOn (hf : FreeOn P) (he : e.AgreeOn P e') (s : Script σ α) :
    LiveMarkup.AgreeOn P (e.run s : Run (HostWorld σ) ε α) (e'.run s : Run (HostWorld σ) ε α) := by
  intro w hw
  obtain ⟨hs, hp⟩ := s.run_agreeOn hf he w hw
  unfold Engine.run
  rw [← hs]
  exact ⟨rfl, hp⟩

end Scripts

namespace Host

variable (host : Host σ) {e e' : Engine σ}

/-! ### Finding out what to display -/

theorem source_agreeOn (hf : FreeOn P) (he : e.AgreeOn P e') :
    AgreeOn P (host.source e) (host.source e') := by
  unfold source
  split
  · exact .pure _
  · exact Engine.run_agreeOn hf he _

theorem runtime_agreeOn (hf : FreeOn P) (he : e.AgreeOn P e') (rs : List ArrayId) (f : FunctionId)
    (args : List Value) :
    AgreeOn P ((host.runtime e).call rs f args) ((host.runtime e').call rs f args) := by
  have hlock := he.lock (rs ++ e.locked)
  unfold runtime
  rw [← he.locked]
  exact (host.component.functions f args).run_agreeOn hf hlock

theorem env_agreeOn (hf : FreeOn P) (he : e.AgreeOn P e') (fields : Entries Value) :
    Env.AgreeOn P ⟨host.runtime e, host.options e, fields⟩ ⟨host.runtime e',
      host.options e', fields⟩ where
  newArray w vs hw := hf.heap hw _
  call := host.runtime_agreeOn hf he
  write v flag := by
    unfold options
    cases host.escape with
    | none => exact escapeHtml_agreeOn (host.runtime_agreeOn hf he) he.depth v flag
    | some f => exact (f v flag).run_agreeOn hf he
  fields := rfl
  limit := rfl

theorem renderText_agreeOn (hf : FreeOn P) (he : e.AgreeOn P e') (t : Template)
    (fields : Entries Value) :
    AgreeOn P (host.renderText e t fields) (host.renderText e' t fields) := by
  intro w hw
  obtain ⟨ht, hp⟩ := t.render_agreeOn (host.env_agreeOn hf he fields) w hw
  unfold renderText
  rw [← ht]
  exact ⟨rfl, hp⟩

/-- A component asks for the same nodes through engines that agree. -/
theorem wanted_agreeOn [EntityCodec] (hf : FreeOn P) (he : e.AgreeOn P e') :
    AgreeOn P (host.wanted e) (host.wanted e') :=
  (host.source_agreeOn hf he).bind fun _ =>
  (Engine.run_agreeOn hf he host.component.fields).bind fun fields =>
    (AgreeOn.ofOutcome _).bind fun t =>
    (host.renderText_agreeOn hf he t fields).bind fun _ => .ofOutcome _

/-! ### Calling methods -/

theorem invoke_agreeOn (hf : FreeOn P) (he : e.AgreeOn P e') (method : String) (event : Event) :
    AgreeOn P (host.invoke e method event) (host.invoke e' method event) := by
  unfold invoke
  split
  · exact .pure _
  · refine (Engine.run_agreeOn hf he _).bind fun r => ?_
    split
    · exact .pure _
    · exact .fail _

theorem callListener_agreeOn (hf : FreeOn P) (he : e.AgreeOn P e') (method : String)
    (event : Event) :
    AgreeOn P (host.callListener e method event) (host.callListener e' method event) := by
  refine (AgreeOn.read _).bind fun alive => ?_
  split
  · exact (host.invoke_agreeOn hf he method event).bind fun _ => .pure _
  · exact .pure _

theorem callAll_agreeOn (hf : FreeOn P) (he : e.AgreeOn P e') (event : Event)
    (methods : List String) :
    AgreeOn P (host.callAll e event methods) (host.callAll e' event methods) := by
  induction methods with
  | nil => exact .pure _
  | cons method methods ih => exact (host.callListener_agreeOn hf he method event).bind fun _ => ih

/-- An event is dispatched in the same way through engines that agree. -/
theorem dispatch_agreeOn (hf : FreeOn P) (he : e.AgreeOn P e') (target : NodeId) (event : Event) :
    AgreeOn P (host.dispatch e target event) (host.dispatch e' target event) := by
  refine (AgreeOn.read _).bind fun listeners => ?_
  split
  · exact .pure _
  · exact (host.callAll_agreeOn hf he _ _).bind fun _ => .pure _

end Host

end LiveMarkup
