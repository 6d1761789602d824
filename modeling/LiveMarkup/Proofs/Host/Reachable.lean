import LiveMarkup.Proofs.Document.Repatch
import LiveMarkup.Proofs.Host.Effect
import LiveMarkup.Proofs.Markup.Plain

/-!
# Hosts that can be reached

A host is `Reachable` if it comes from a new one by running user code, with whatever actions that
asks for. Between two such runs no pass is going on (`Reachable.idle`), and all nodes that are
displayed come from markup, so they are plain (`Reachable.plain`).
-/

namespace LiveMarkup

/-! ### Plain nodes stay plain -/

namespace Attributes

theorem Plain.byName {old new : List Attr} (ho : Plain old) (hn : Plain new) :
    Plain (AttrPatch.byName old new).attrs := by
  intro name hm
  exact (List.mem_append.1 (AttrPatch.names_byName_subset old new hm)).elim (ho name) (hn name)

end Attributes

namespace Node

mutual

theorem Plain.patch : {o n : Node} → o.Plain → n.Plain → (o.patch AttrPatch.byName n).1.Plain
  | text t, n, _, _ => by
    rw [Node.patch, Plain]
    trivial
  | element tag as cs, text t, ho, _ => by rwa [Node.patch]
  | element tag as cs, element tag' as' cs', ho, hn => by
    rw [Node.patch]
    split_ifs with h
    · rw [Plain] at ho hn ⊢
      refine ⟨ho.1.byName hn.1, fun hv => ?_, AllPlain.patchAll ho.2.2 hn.2.2⟩
      rw [ho.2.1 hv, hn.2.1 (h ▸ hv), Node.patchAll]
    · exact hn

theorem AllPlain.patchAll : {os ns : List Node} → AllPlain os → AllPlain ns →
    AllPlain (patchAll AttrPatch.byName os ns).1
  | [], ns, _, hn => by rwa [Node.patchAll]
  | o :: os, [], _, _ => by
    rw [Node.patchAll, AllPlain]
    trivial
  | o :: os, n :: ns, ho, hn => by
    rw [AllPlain] at ho hn
    rw [Node.patchAll, AllPlain]
    exact ⟨ho.1.patch hn.1, ho.2.patchAll hn.2⟩

end

mutual

theorem Plain.unmark : {n : Node} → n.Plain → n.unmark.Plain
  | text t, _ => by rwa [Node.unmark]
  | element tag as cs, h => by
    rw [Plain] at h
    rw [Node.unmark, Plain]
    refine ⟨fun name hm => h.1 name (Attributes.names_drop_subset _ _ hm), fun hv => ?_,
      h.2.2.unmarkAll⟩
    rw [h.2.1 hv, Node.unmarkAll]

theorem AllPlain.unmarkAll : {ns : List Node} → AllPlain ns → AllPlain (unmarkAll ns)
  | [], _ => by
    rw [Node.unmarkAll, AllPlain]
    trivial
  | n :: ns, h => by
    rw [AllPlain] at h
    rw [Node.unmarkAll, AllPlain]
    exact ⟨h.1.unmark, h.2.unmarkAll⟩

end

end Node

/-! ### What all actions keep -/

variable {σ : Type}

/-- Passes may come and go, but one that is going on goes on. -/
def phaseKept : Effect (HostWorld σ) where
  rel w w' := w'.user.phase = w.user.phase
  refl _ := rfl
  trans h h' := h'.trans h

/-- A document with plain nodes keeps to plain nodes. -/
def plainKept : Effect (HostWorld σ) where
  rel w w' := Node.AllPlain (w.user.document.nodesOf rootId) →
  Node.AllPlain (w'.user.document.nodesOf rootId)
  refl _ := id
  trans h h' := h' ∘ h

namespace Host

variable [EntityCodec] (host : Host σ)

theorem engine_phaseKept (n : Nat) : (host.engine n).Within phaseKept := by
  refine host.engine_within (fun _ _ _ => rfl) (fun e _ w => ?_) n
  by_cases hp : w.user.phase = .idle
  · unfold update
    rw [if_pos hp]
    exact hp.symm
  · rw [host.update_of_ne_idle e hp]
    rfl

/-- What a pass asks for was read from markup. -/
theorem plain_of_wanted {e : Engine σ} {w w' : HostWorld σ} {new : List Node}
    (h : host.wanted e w = (.ok new, w')) : Node.AllPlain new := by
  obtain ⟨_, _, -, h⟩ := Run.bind_eq_ok_iff.1 h
  obtain ⟨_, _, -, h⟩ := Run.bind_eq_ok_iff.1 h
  obtain ⟨_, _, -, h⟩ := Run.bind_eq_ok_iff.1 h
  obtain ⟨text, _, -, h⟩ := Run.bind_eq_ok_iff.1 h
  have hp := congrArg Prod.fst h
  change (Outcome.ofExcept (Markup.parse text)).mapError Error.markup = .ok new at hp
  cases hm : Markup.parse text <;> rw [hm] at hp <;> cases hp
  exact Markup.plain_of_parse hm

theorem update_plainKept (e : Engine σ) (he : e.Within plainKept) :
    (host.update e).Within plainKept := by
  intro w hw
  by_cases hp : w.user.phase = .idle
  · have hwanted := host.wanted_within (fun _ _ _ => id) he ⟨w.heap, w.user.withPhase .rendering⟩ hw
    rw [host.update_of_idle hp]
    show Node.AllPlain ((host.pass e _).2.user.document.nodesOf rootId)
    rcases h : host.wanted e ⟨w.heap, w.user.withPhase .rendering⟩ with ⟨new | err | _, w₁⟩ <;>
      rw [h] at hwanted
    · rw [host.pass_of_ok h]
      show Node.AllPlain ((w₁.user.display new).2.document.nodesOf rootId)
      rw [HostState.nodesOf_display]
      exact (hwanted.patchAll (host.plain_of_wanted h)).unmarkAll
    · rw [host.pass_of_error h]
      exact hwanted
    · rw [host.pass_of_stopped h]
      exact hwanted
  · rw [host.update_of_ne_idle e hp]
    exact hw

theorem engine_plainKept (n : Nat) : (host.engine n).Within plainKept :=
  host.engine_within (fun _ _ _ => id) host.update_plainKept n

/-- The worlds in which a host may find itself between runs of user code. -/
inductive Reachable : HostWorld σ → Prop
  | start (h : Heap) (c : σ) : Reachable (host.start h c)
  | script {α : Type} (n : Nat) (s : Script σ α) {w : HostWorld σ} (hw : Reachable w) :
      Reachable (s.run (host.engine n) w).2
  | drop {w : HostWorld σ} (hw : Reachable w) : Reachable { w with user := w.user.drop }

variable {host} {w : HostWorld σ}

theorem Reachable.idle (hw : host.Reachable w) : w.user.phase = .idle := by
  induction hw with
  | start h c => rfl
  | script n s _ ih => exact (s.run_within (fun _ _ _ => rfl) (host.engine_phaseKept n) _).trans ih
  | drop _ ih => exact ih

theorem Reachable.plain (hw : host.Reachable w) :
    Node.AllPlain (w.user.document.nodesOf rootId) := by
  induction hw with
  | start h c => trivial
  | script n s _ ih => exact s.run_within (fun _ _ _ => id) (host.engine_plainKept n) _ ih
  | drop _ ih => exact ih

end Host

end LiveMarkup
