import LiveMarkup.Component.Event
import LiveMarkup.Document.Binder
import LiveMarkup.Document.Patch
import LiveMarkup.Eval.World

/-!
# Scripts

The code of a component may compute whatever it likes, but it reaches the displayed document only
through its host.  A `Script` is such code: it looks at the world, keeps notes in the private state
of the component, touches shared containers, and asks its host for actions, whose errors it gets
back as values.  An `Engine` carries out the actions, and knows which arrays are locked because
their items are being written out at the moment. `Script.run` runs a script with an engine.
-/

namespace LiveMarkup

/-! ### What a host keeps -/

/-- What a host is doing. -/
inductive Phase where
  | idle
  | rendering
  | patching
  | binding
  deriving Repr, DecidableEq

/-- What a host keeps besides shared containers.  The listeners in its document are names of
methods. -/
structure HostState (σ : Type) where
  document : Document String
  registry : Registry
  phase : Phase
  /-- The number of passes that have succeeded. -/
  renders : Nat
  /-- Whether the host still exists; state outlives it. -/
  alive : Bool
  /-- The private state of the component. -/
  component : σ

/-- Shared containers and what a host keeps. -/
abbrev HostWorld (σ : Type) := World (HostState σ)

/-! ### Scripts -/

/-- What a script gets back from an action. -/
def Action.Reply : Action → Type
  | call .. => Value
  | set .. | push .. => Except Error Unit
  | update => Except Error PatchStats
  | dispatch .. => Except Error Nat
  | invoke .. => Except Error Bool

inductive Script (σ α : Type) where
  | done (a : α)
  | look (k : HostWorld σ → Script σ α)
  /-- Changes the private state of the component. -/
  | keep (f : σ → σ) (k : Script σ α)
  /-- Makes or changes shared containers without telling the host; of the arrays that are there, it
  writes to those of `rs`. -/
  | touch (rs : List ArrayId) (f : Heap → Value × Heap) (k : Value → Script σ α)
  | ask (a : Action) (k : a.Reply → Script σ α)

/-- What carries out actions. -/
structure Engine (σ : Type) where
  /-- Carries out an action while some arrays are locked. -/
  act : List ArrayId → (a : Action) → HostWorld σ → Except Stop a.Reply × HostWorld σ
  /-- The arrays that are locked. -/
  locked : List ArrayId
  /-- How deeply the results of function calls may nest. -/
  depth : Nat

namespace Engine

variable {σ : Type} (e : Engine σ)

/-- Carries out an action. -/
def perform (a : Action) : HostWorld σ → Except Stop a.Reply × HostWorld σ := e.act e.locked a

/-- The engine with other arrays locked. -/
def lock (rs : List ArrayId) : Engine σ := { e with locked := rs }

end Engine

namespace Script

variable {σ α β : Type}

protected def bind : Script σ α → (α → Script σ β) → Script σ β
  | done a, g => g a
  | look k, g => look fun w => (k w).bind g
  | keep f k, g => keep f (k.bind g)
  | touch rs f k, g => touch rs f fun v => (k v).bind g
  | ask a k, g => ask a fun r => (k r).bind g

instance : Monad (Script σ) where
  pure := done
  bind := Script.bind

/-- Runs a script. -/
def run (e : Engine σ) : Script σ α → HostWorld σ → Except Stop α × HostWorld σ
  | done a, w => (.ok a, w)
  | look k, w => run e (k w) w
  | keep f k, w => run e k { w with user := { w.user with component := f w.user.component } }
  | touch rs f k, w =>
    if ∃ r ∈ rs, r ∈ e.locked then (.error .panic, w)
    else run e (k (f w.heap).1) { w with heap := (f w.heap).2 }
  | ask a k, w =>
    match e.perform a w with
    | (.ok r, w') => run e (k r) w'
    | (.error why, w') => (.error why, w')

end Script

/-- Runs a script as a part of a computation that may fail. -/
def Engine.run {σ ε α : Type} (e : Engine σ) (s : Script σ α) : Run (HostWorld σ) ε α := fun w =>
  let (a, w') := s.run e w
  (.ofStop a, w')

end LiveMarkup
