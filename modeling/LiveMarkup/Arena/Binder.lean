import LiveMarkup.Arena.Basic
import LiveMarkup.Document.Binder

/-!
# Event markers in an arena

`Arena.bind` reads markers as `Document.bind` does, in two rounds: it collects the identities of all
elements with a marker first, and then takes the markers off them one by one.
-/

namespace LiveMarkup

namespace Arena

variable {L : Type}

/-- Takes the first marker off a node, and gives the node the listener for it unless it has one for
this kind of event. -/
def bindOne (make : String → String → L) (a : Arena L) (b : Binder) (i : NodeId) :
    Binder × Arena L :=
  match a.removeAttribute i eventAttribute with
  | (none, a') => (b, a')
  | (some marker, a') =>
    match splitMarker? marker with
    | none => (b, a')
    | some (kind, method) =>
      if b.registry.contains i kind then (b, a')
      else
        (⟨b.registry.insert i kind, ⟨i, kind, method⟩ :: b.attached⟩,
          (a'.addListener i kind (make kind method)).2)

/-- Takes the first marker off each of some nodes. -/
def bindEach (make : String → String → L) (a : Arena L) (b : Binder) :
    List NodeId → Binder × Arena L
  | [] => (b, a)
  | i :: is =>
    let (b', a') := a.bindOne make b i
    a'.bindEach make b' is

/-- The arena and the registry after all markers have been read, and what was attached, in order. -/
def bind (a : Arena L) (r : Registry) (make : String → String → L) :
    Option (List Binding × Arena L × Registry) := do
  let below ← a.descendants? rootId
  let marked := below.filter fun i => (a.attribute? i eventAttribute).isSome
  let (b, a') := a.bindEach make ⟨r, []⟩ marked
  pure (b.attached.reverse, a', b.registry)

end Arena

end LiveMarkup
