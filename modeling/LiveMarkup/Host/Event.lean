import LiveMarkup.Host.Pass
import LiveMarkup.State.Tracked

/-!
# Writes, events and actions

State of a component is tracked: each write runs a pass before it returns, unless one is going on or
the host is gone.  An event that is dispatched at a node runs the listeners of the node, then those
of each node above it up to the root, and stops at the first error.  A listener calls the method
that it names.

`Host.engine n` carries out the actions of scripts.  An action may run scripts that ask for actions
again, and `n` bounds how deeply this nests.
-/

namespace LiveMarkup

namespace Host

variable [EntityCodec] {σ : Type} (host : Host σ) (e : Engine σ)

/-! ### Writes -/

/-- What happens after each write. -/
def notify : Run (HostWorld σ) Error Unit := do
  if ← Run.read fun w => w.user.alive then
    let _ ← host.update e
    pure ()
  else pure ()

/-- A view of state of the component. -/
def tracked (target : Value) : Tracked (HostState σ) := ⟨target, host.notify e⟩

/-! ### Events -/

/-- Calls a method, and tells whether the component has one of that name. -/
def invoke (method : String) (event : Event) : Run (HostWorld σ) Error Bool :=
  match Entries.get? method host.component.methods with
  | none => pure false
  | some handler => do
    match ← e.run (handler event) with
    | .ok () => pure true
    | .error err => Run.fail err

/-- Calls a listener, which does nothing once the host is gone. -/
def callListener (method : String) (event : Event) : Run (HostWorld σ) Error Unit := do
  if ← Run.read fun w => w.user.alive then
    let _ ← host.invoke e method event
    pure ()
  else pure ()

/-- Calls listeners one after the other until one fails. -/
def callAll (event : Event) : List String → Run (HostWorld σ) Error Unit
  | [] => pure ()
  | method :: methods => do
    host.callListener e method event
    callAll event methods

/-- Dispatches an event at a node and gives the number of listeners, which is 0 for a node that is
not in the tree. -/
def dispatch (target : NodeId) (event : Event) : Run (HostWorld σ) Error Nat := do
  match ← Run.read fun w => w.user.document.bubbling? target event.kind with
  | none => pure 0
  | some listeners =>
    host.callAll e (event.withTarget target) listeners
    pure listeners.length

/-! ### Actions -/

/-- Carries out an action, leaving the actions of scripts to `e`. -/
def execute : (a : Action) → HostWorld σ → Except Stop a.Reply × HostWorld σ
  | .call f args => (host.component.functions f args).run e
  | .set target k v => ((host.tracked e target).setUnder e.locked k v).attempt
  | .push target v => ((host.tracked e target).pushUnder e.locked v).attempt
  | .update => (host.update e).attempt
  | .dispatch target event => (host.dispatch e target event).attempt
  | .invoke method event => (host.invoke e method event).attempt

/-- Carries out actions that nest at most `n` deep, with no array locked to begin with. -/
def engine : Nat → Engine σ
  | 0 => ⟨fun _ _ w => (.error .bound, w), [], 0⟩
  | n + 1 => ⟨fun rs a w => host.execute ((engine n).lock rs) a w, [], n + 1⟩

/-! ### Life -/

/-- Runs a pass and then the hook for being put into a page. -/
def connected : Run (HostWorld σ) Error PatchStats := do
  let stats ← host.update e
  let _ ← e.run host.component.connected
  pure stats

def disconnected : Run (HostWorld σ) Error Unit := e.run host.component.disconnected

def adopted : Run (HostWorld σ) Error Unit := e.run host.component.adopted

def attributeChanged (name : String) (old new : Option String) : Run (HostWorld σ) Error Unit :=
  e.run (host.component.attributeChanged name old new)

end Host

/-- What is left of the state of a host that is gone.  Shared containers are not part of it. -/
def HostState.drop {σ : Type} (s : HostState σ) : HostState σ := { s with alive := false }

end LiveMarkup
