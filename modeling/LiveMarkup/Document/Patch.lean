import LiveMarkup.Document.Basic

/-!
# Patching a document

`Document.reconcile` brings the nodes below a node in line with a list of new nodes, and counts what
it does in a `PatchStats`.  Nodes and attributes are matched by position alone:

* a text takes the text that faces it, and becomes empty when an element faces it;
* an element faced by a text stays as it is, and one faced by another tag is replaced;
* of elements with the same tag, each old attribute keeps its name and takes the value of the new
  one in its place, old attributes without a counterpart are removed, further new ones are set by
  name, and the children are patched in turn;
* old nodes without a counterpart are removed and further new nodes are put at the end.

Nodes that are not replaced or removed keep their identities and their listeners.
-/

namespace LiveMarkup

/-- How often a patch did what. -/
structure PatchStats where
  textUpdates : Nat
  attrsSet : Nat
  attrsRemoved : Nat
  replacements : Nat
  removals : Nat
  insertions : Nat
  deriving Repr, DecidableEq

namespace PatchStats

/-- Nothing was done. -/
def none : PatchStats := ⟨0, 0, 0, 0, 0, 0⟩

instance : Inhabited PatchStats := ⟨none⟩

def add (a b : PatchStats) : PatchStats :=
  ⟨a.textUpdates + b.textUpdates, a.attrsSet + b.attrsSet, a.attrsRemoved + b.attrsRemoved,
    a.replacements + b.replacements, a.removals + b.removals, a.insertions + b.insertions⟩

instance : Add PatchStats := ⟨add⟩

/-- Whether nothing was done. -/
def isNoop (s : PatchStats) : Bool := s == none

def textUpdate : PatchStats := { none with textUpdates := 1 }

def replacement : PatchStats := { none with replacements := 1 }

def ofRemovals (n : Nat) : PatchStats := { none with removals := n }

def ofInsertions (n : Nat) : PatchStats := { none with insertions := n }

end PatchStats

/-! ### Attributes -/

/-- Attributes under a patch, and how many were set and removed. -/
structure AttrPatch where
  attrs : List Attr
  set : Nat
  removed : Nat

namespace AttrPatch

/-- Sets an attribute unless it already has the value. -/
def write (p : AttrPatch) (name value : String) : AttrPatch :=
  if Attributes.get? name p.attrs = some value then p
  else { p with attrs := Attributes.put name value p.attrs, set := p.set + 1 }

/-- Removes an attribute if it is there. -/
def delete (p : AttrPatch) (name : String) : AttrPatch :=
  match Attributes.get? name p.attrs with
  | some _ => { p with attrs := Attributes.drop name p.attrs, removed := p.removed + 1 }
  | none => p

/-- Sets new attributes by their own names. -/
def writeAll (p : AttrPatch) : List Attr → AttrPatch
  | [] => p
  | n :: ns => writeAll (p.write n.name n.value) ns

/-- Goes through the old and the new attributes side by side. -/
def run : List Attr → List Attr → AttrPatch → AttrPatch
  | [], new, p => p.writeAll new
  | o :: os, [], p => run os [] (p.delete o.name)
  | o :: os, n :: ns, p => run os ns (p.write o.name n.value)

/-- The patch that brings old attributes in line with new ones. -/
def ofLists (old new : List Attr) : AttrPatch := run old new ⟨old, 0, 0⟩

def stats (p : AttrPatch) : PatchStats :=
  { PatchStats.none with attrsSet := p.set, attrsRemoved := p.removed }

end AttrPatch

/-! ### Nodes -/

namespace Live

variable {L : Type}

mutual

/-- A live node brought in line with a new node, the next free identity, and what was done. -/
def patch (next : NodeId) : Live L → Node → Live L × NodeId × PatchStats
  | text i ls t, new =>
    let wanted := new.asText?.getD ""
    if t = wanted then (text i ls t, next, .none) else (text i ls wanted, next, .textUpdate)
  | element i ls tag as cs, .text _ => (element i ls tag as cs, next, .none)
  | element i ls tag as cs, .element tag' as' cs' =>
    if tag = tag' then
      let a := AttrPatch.ofLists as as'
      let (cs'', next', stats) := patchAll next cs cs'
      (element i ls tag a.attrs cs'', next', a.stats + stats)
    else
      let (l, next') := plant next (.element tag' as' cs')
      (l, next', .replacement)

/-- Live nodes brought in line with new nodes, the next free identity, and what was done. -/
def patchAll (next : NodeId) : List (Live L) → List Node → List (Live L) × NodeId × PatchStats
  | [], new =>
    let (ls, next') := plantAll next new
    (ls, next', .ofInsertions new.length)
  | o :: os, [] => ([], next, .ofRemovals (o :: os).length)
  | o :: os, n :: ns =>
    let (l, next', stats) := o.patch next n
    let (ls, next'', stats') := patchAll next' os ns
    (l :: ls, next'', stats + stats')

end

end Live

namespace Document

variable {L : Type}

/-- Brings the nodes below a node in line with new nodes. -/
def reconcile (d : Document L) (parent : NodeId) (new : List Node) : PatchStats × Document L :=
  if parent = rootId then
    let (cs, next, stats) := Live.patchAll d.next d.children new
    (stats, { d with children := cs, next := next })
  else
    match d.tag? parent with
    | some _ =>
      let (cs, next, stats) := Live.patchAll d.next (d.childrenOf parent) new
      (stats, { d.edit parent fun p => [p.withChildren cs] with next := next })
    | none => (.none, d)

end Document

end LiveMarkup
