import LiveMarkup.Arena.Basic
import LiveMarkup.Document.Patch

/-!
# Patching an arena

`Arena.reconcile` brings the nodes below a node in line with a list of new nodes, by the rules of
`Document.reconcile`. It goes through identities: each step reads the slot of a node anew and calls
an operation on it, and it counts what the operations say that they did.
-/

namespace LiveMarkup

namespace Arena

variable {L : Type}

/-! ### Attributes -/

/-- Sets an attribute of an element unless it already has the value. -/
def writeAttr (a : Arena L) (i : NodeId) (name value : String) (stats : PatchStats) :
    PatchStats × Arena L :=
  if a.attribute? i name = some value then (stats, a)
  else ({ stats with attrsSet := stats.attrsSet + 1 }, a.setAttribute i name value)

/-- Removes an attribute of an element if it is there. -/
def deleteAttr (a : Arena L) (i : NodeId) (name : String) (stats : PatchStats) :
    PatchStats × Arena L :=
  match a.removeAttribute i name with
  | (some _, a') => ({ stats with attrsRemoved := stats.attrsRemoved + 1 }, a')
  | (none, a') => (stats, a')

/-- Sets new attributes of an element by their own names. -/
def writeAttrs (a : Arena L) (i : NodeId) (stats : PatchStats) : List Attr → PatchStats × Arena L
  | [] => (stats, a)
  | n :: ns =>
    let (stats', a') := a.writeAttr i n.name n.value stats
    a'.writeAttrs i stats' ns

/-- Goes through the old and the new attributes of an element side by side. -/
def patchAttrs (a : Arena L) (i : NodeId) (stats : PatchStats) :
    List Attr → List Attr → PatchStats × Arena L
  | [], new => a.writeAttrs i stats new
  | o :: os, [] =>
    let (stats', a') := a.deleteAttr i o.name stats
    a'.patchAttrs i stats' os []
  | o :: os, n :: ns =>
    let (stats', a') := a.writeAttr i o.name n.value stats
    a'.patchAttrs i stats' os ns

/-! ### Nodes -/

/-- Removes nodes and counts them. -/
def removeAll (a : Arena L) : List NodeId → Nat × Arena L
  | [] => (0, a)
  | i :: is =>
    let (removed, a') := a.remove i
    let (count, a'') := a'.removeAll is
    (if removed then count + 1 else count, a'')

/-- Puts copies of nodes below another one, after all others, and counts them. -/
def appendAll (a : Arena L) (parent : NodeId) : List Node → Nat × Arena L
  | [] => (0, a)
  | n :: ns =>
    let (i?, a') := a.append parent n
    let (count, a'') := a'.appendAll parent ns
    (if i?.isSome then count + 1 else count, a'')

/-- Overwrites the text of a text node if it is another one. -/
def syncText (a : Arena L) (i : NodeId) (current wanted : String) : PatchStats × Arena L :=
  if current = wanted then (.none, a) else (.textUpdate, (a.setText i wanted).2)

/-- Puts a copy of a node in the place of another one, and counts this if it was done. -/
def swap (a : Arena L) (i : NodeId) (n : Node) : PatchStats × Arena L :=
  match a.replace i n with
  | (some _, a') => (.replacement, a')
  | (none, a') => (.none, a')

mutual

/-- Brings a node in line with a new node. -/
def patchNode (a : Arena L) (i : NodeId) : Node → PatchStats × Arena L
  | .text t =>
    match a.kind? i with
    | some (.text current) => a.syncText i current t
    | _ => (.none, a)
  | .element tag as cs =>
    match a.kind? i with
    | some (.text current) => a.syncText i current ""
    | some (.element tag' as') =>
      if tag' = tag then
        let (stats, a') := a.patchAttrs i .none as' as
        let (stats', a'') := a'.patchEach i (a'.childrenOf i) cs
        (stats + stats', a'')
      else a.swap i (.element tag as cs)
    | _ => (.none, a)

/-- Brings nodes below another one in line with new nodes. -/
def patchEach (a : Arena L) (parent : NodeId) : List NodeId → List Node → PatchStats × Arena L
  | [], new =>
    let (count, a') := a.appendAll parent new
    (.ofInsertions count, a')
  | i :: is, [] =>
    let (count, a') := a.removeAll (i :: is)
    (.ofRemovals count, a')
  | i :: is, n :: ns =>
    let (stats, a') := a.patchNode i n
    let (stats', a'') := a'.patchEach parent is ns
    (stats + stats', a'')

end

/-- Brings the nodes below a node in line with new nodes. -/
def reconcile (a : Arena L) (parent : NodeId) (new : List Node) : PatchStats × Arena L :=
  a.patchEach parent (a.childrenOf parent) new

end Arena

end LiveMarkup
