import LiveMarkup.Document.Basic
import LiveMarkup.Document.Registry
import LiveMarkup.Template.Shorthand

/-!
# Event markers

An attribute `data-event="kind,method"` asks for a listener.  `Document.bind` goes through the tree
in preorder and takes the first marker off every element that has one.  If its node has no listener
for that kind of event yet, it gets the one for the method.  The registry of what was bound only
grows, so a later marker for the same node and kind changes nothing.
-/

namespace LiveMarkup

/-- The kind of event and the method that a marker names; a marker without a comma names none. -/
def splitMarker? (marker : String) : Option (String × String) :=
  (splitAt? [','] marker.toList).map fun km => (String.ofList km.1, String.ofList km.2)

/-- A listener that was attached. -/
structure Binding where
  node : NodeId
  kind : String
  method : String
  deriving Repr, DecidableEq

/-- The registry and what was attached so far, the latest first. -/
structure Binder where
  registry : Registry
  attached : List Binding

namespace Live

variable {L : Type}

/-- The listeners and the binder after a marker of a node has been read. -/
def readMarker (make : String → String → L) (b : Binder) (i : NodeId) (ls : Listeners L)
    (marker : String) : Listeners L × Binder :=
  match splitMarker? marker with
  | none => (ls, b)
  | some (kind, method) =>
    if b.registry.contains i kind then (ls, b)
    else
      (ls ++ [(kind, make kind method)],
        ⟨b.registry.insert i kind, ⟨i, kind, method⟩ :: b.attached⟩)

mutual

/-- A node without the markers that were read in its subtree, and the binder after that. -/
def bind (make : String → String → L) (b : Binder) : Live L → Live L × Binder
  | text i ls t => (text i ls t, b)
  | element i ls tag as cs =>
    let (ls', b') := match Attributes.get? eventAttribute as with
      | some marker => readMarker make b i ls marker
      | none => (ls, b)
    let (cs', b'') := bindAll make b' cs
    (element i ls' tag (Attributes.drop eventAttribute as) cs', b'')

/-- Nodes without the markers that were read in their subtrees, and the binder after that. -/
def bindAll (make : String → String → L) (b : Binder) : List (Live L) → List (Live L) × Binder
  | [] => ([], b)
  | n :: ns =>
    let (n', b') := n.bind make b
    let (ns', b'') := bindAll make b' ns
    (n' :: ns', b'')

end

end Live

namespace Document

variable {L : Type}

/-- The document and the registry after all markers have been read, and what was attached, in order.
`make` gives the listener for a kind of event and a method. -/
def bind (d : Document L) (r : Registry) (make : String → String → L) :
    List Binding × Document L × Registry :=
  let (cs, b) := Live.bindAll make ⟨r, []⟩ d.children
  (b.attached.reverse, { d with children := cs }, b.registry)

end Document

end LiveMarkup
