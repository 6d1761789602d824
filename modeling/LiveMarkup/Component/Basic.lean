import LiveMarkup.Component.Script

/-!
# Components

A component gives the source of its template, the fields that the template sees, the methods that
events call, the functions that its values may name, and hooks for the stages of its life.
-/

namespace LiveMarkup

/-- What a method does with an event. -/
abbrev Handler (σ : Type) := Event → Script σ (Except Error Unit)

structure Component (σ : Type) where
  /-- The source of the template, read anew for each pass. -/
  render : Script σ String
  css : String
  /-- What the template sees, read anew for each pass. -/
  fields : Script σ (Entries Value)
  methods : Entries (Handler σ)
  /-- What the function values of the component do. -/
  functions : FunctionId → List Value → Script σ Value
  connected : Script σ Unit
  disconnected : Script σ Unit
  adopted : Script σ Unit
  /-- Told the name, the old value and the new value of an attribute. -/
  attributeChanged : String → Option String → Option String → Script σ Unit

/-- Fields with each property of a container added under its own name. -/
def spread (fields : Entries Value) (h : Heap) (state : Value) : Entries Value :=
  (keysOf h state).foldl (fun es k => Entries.put k ((Key.name k).read h state) es) fields

end LiveMarkup
