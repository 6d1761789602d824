import LiveMarkup.Document.Live
import LiveMarkup.State.Key

/-!
# Events and actions

An event has a kind, the node at which it was dispatched, and a detail.  An `Action` is what the
code of a component can ask its host to do, and `Action.Reply` is the type of the answer to it.
-/

namespace LiveMarkup

/-- Something that happened. -/
structure Event where
  kind : String
  /-- The node at which the event was dispatched, if it was. -/
  target : Option NodeId
  detail : Value

namespace Event

/-- An event that carries nothing. -/
def ofKind (kind : String) : Event := ⟨kind, none, .undefined⟩

/-- An event with a detail. -/
def custom (kind : String) (detail : Value) : Event := ⟨kind, none, detail⟩

/-- The event dispatched at a node. -/
def withTarget (e : Event) (i : NodeId) : Event := { e with target := some i }

end Event

/-- What the code of a component can ask for. -/
inductive Action where
  /-- Calling a function value. -/
  | call (f : FunctionId) (args : List Value)
  /-- Storing a value in state. -/
  | set (target : Value) (key : Key) (v : Value)
  /-- Putting an item at the end of an array of state. -/
  | push (target v : Value)
  | update
  | dispatch (target : NodeId) (event : Event)
  | invoke (method : String) (event : Event)

end LiveMarkup
