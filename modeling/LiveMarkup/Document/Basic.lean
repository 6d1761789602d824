import LiveMarkup.Document.Live

/-!
# Documents

A document is the tree that a component displays.  Its root stands above all live nodes; it has the
identity 0 and cannot be removed.  Every node that is put in gets a new identity, and an identity is
never given out twice, so a node that was removed or replaced is not found again.  Operations on an
identity that is not in the tree leave the document as it is and say so.
-/

namespace LiveMarkup

structure Document (L : Type) where
  /-- The listeners of the root. -/
  listeners : Listeners L
  /-- The nodes right below the root. -/
  children : List (Live L)
  /-- The first identity that was never given out. -/
  next : NodeId

/-- The identity of the root. -/
def rootId : NodeId := 0

namespace Document

variable {L : Type}

def empty : Document L := ⟨[], [], 1⟩

instance : Inhabited (Document L) := ⟨empty⟩

/-! ### Reading -/

/-- The node with an identity and the nodes above it, innermost first, without the root. -/
def path? (d : Document L) (i : NodeId) : Option (List (Live L)) := Live.pathIn? i [] d.children

/-- The live node with an identity. -/
def find? (d : Document L) (i : NodeId) : Option (Live L) := (d.path? i).bind List.head?

def contains (d : Document L) (i : NodeId) : Bool := i == rootId || (d.find? i).isSome

/-- The identities below the root in preorder. -/
def ids (d : Document L) : List NodeId := (Live.subtrees d.children).map Live.id

/-- The number of nodes in the tree, the root included. -/
def size (d : Document L) : Nat := 1 + d.ids.length

/-- Whether nothing is below the root. -/
def isEmpty (d : Document L) : Bool := d.children.isEmpty

/-- The nodes right below a node. -/
def childrenOf (d : Document L) (i : NodeId) : List (Live L) :=
  if i = rootId then d.children else ((d.find? i).map Live.children).getD []

/-- The identity of the node above a node. -/
def parent? (d : Document L) (i : NodeId) : Option NodeId :=
  if i = rootId then none
  else
    match d.path? i with
    | some (_ :: p :: _) => some p.id
    | some [_] => some rootId
    | _ => none

def tag? (d : Document L) (i : NodeId) : Option String :=
  if i = rootId then none else (d.find? i).bind Live.tag?

def text? (d : Document L) (i : NodeId) : Option String :=
  if i = rootId then none else (d.find? i).bind Live.text?

def attrs (d : Document L) (i : NodeId) : List Attr :=
  if i = rootId then [] else ((d.find? i).map Live.attrs).getD []

def attribute? (d : Document L) (i : NodeId) (name : String) : Option String :=
  Attributes.get? name (d.attrs i)

/-- The content of a node. -/
def node? (d : Document L) (i : NodeId) : Option Node :=
  if i = rootId then none else (d.find? i).map Live.node

/-- The contents of the nodes right below a node. -/
def nodesOf (d : Document L) (i : NodeId) : List Node := Live.nodes (d.childrenOf i)

/-- The identities below a node in preorder. -/
def descendants (d : Document L) (i : NodeId) : List NodeId :=
  (Live.subtrees (d.childrenOf i)).map Live.id

/-- The identities of the elements with a tag in preorder. -/
def elementsByTag (d : Document L) (tag : String) : List NodeId :=
  ((Live.subtrees d.children).filter fun n => n.tag? == some tag).map Live.id

/-- The text of a node, or all the text below it. -/
def textContent (d : Document L) (i : NodeId) : String :=
  match d.text? i with
  | some t => t
  | none => String.join ((Live.subtrees (d.childrenOf i)).filterMap Live.text?)

/-- The markup of what is below a node. -/
def innerHtml [EntityCodec] (d : Document L) (i : NodeId) : String :=
  Node.htmlAll (((d.tag? i).map isRawText).getD false) (d.nodesOf i)

/-- The markup of a node. -/
def outerHtml [EntityCodec] (d : Document L) (i : NodeId) : String :=
  if i = rootId then d.innerHtml i else ((d.node? i).map Node.html).getD ""

/-- The markup of the whole document. -/
def html [EntityCodec] (d : Document L) : String := d.innerHtml rootId

/-! ### Listeners -/

def listenersOf (d : Document L) (i : NodeId) : Listeners L :=
  if i = rootId then d.listeners else ((d.find? i).map Live.listeners).getD []

/-- The listeners of a node for a kind of event, in order of registration. -/
def listenersFor (d : Document L) (i : NodeId) (kind : String) : List L :=
  ((d.listenersOf i).filter fun kl => kl.1 == kind).map Prod.snd

/-- The listeners for a kind of event on the way from a node up to the root, if the node is in the
tree. -/
def bubbling? (d : Document L) (i : NodeId) (kind : String) : Option (List L) :=
  let ofKind (ls : Listeners L) : List L := (ls.filter fun kl => kl.1 == kind).map Prod.snd
  if i = rootId then some (ofKind d.listeners)
  else (d.path? i).map fun path => path.flatMap (fun n => ofKind n.listeners) ++ ofKind d.listeners

/-! ### Writing -/

/-- Puts other nodes in the place of one. -/
def edit (d : Document L) (i : NodeId) (f : Live L → List (Live L)) : Document L :=
  { d with children := Live.editIn i f d.children }

/-- Puts a listener on a node. -/
def addListener (d : Document L) (i : NodeId) (kind : String) (l : L) : Bool × Document L :=
  if i = rootId then (true, { d with listeners := d.listeners ++ [(kind, l)] })
  else
    match d.find? i with
    | some _ => (true, d.edit i fun n => [n.withListeners (n.listeners ++ [(kind, l)])])
    | none => (false, d)

/-- Overwrites the text of a text node. -/
def setText (d : Document L) (i : NodeId) (value : String) : Bool × Document L :=
  match d.text? i with
  | some _ => (true, d.edit i fun n => [.text n.id n.listeners value])
  | none => (false, d)

/-- Sets an attribute of an element. -/
def setAttribute (d : Document L) (i : NodeId) (name value : String) : Document L :=
  match d.tag? i with
  | some _ => d.edit i fun n => [n.withAttrs (Attributes.put name value n.attrs)]
  | none => d

/-- Removes an attribute of an element and gives its value. -/
def removeAttribute (d : Document L) (i : NodeId) (name : String) : Option String × Document L :=
  match d.attribute? i name with
  | some value => (some value, d.edit i fun n => [n.withAttrs (Attributes.drop name n.attrs)])
  | none => (none, d)

/-- A list with one more member at a place, or at the end if the place is beyond it. -/
def insertAt {α : Type} (index : Nat) (a : α) (as : List α) : List α :=
  as.take index ++ a :: as.drop index

/-- Puts a copy of a node below another one.  Text nodes take no children. -/
def insert (d : Document L) (parent : NodeId) (index : Nat) (n : Node) :
    Option NodeId × Document L :=
  let (l, next) := Live.plant d.next n
  if parent = rootId then
    (some d.next, { d with children := insertAt index l d.children, next := next })
  else
    match d.tag? parent with
    | some _ =>
      (some d.next,
        { d.edit parent fun p => [p.withChildren (insertAt index l p.children)] with next := next })
    | none => (none, d)

/-- Puts a copy of a node below another one, after all others. -/
def append (d : Document L) (parent : NodeId) (n : Node) : Option NodeId × Document L :=
  d.insert parent (d.childrenOf parent).length n

/-- Puts a copy of a node in the place of a live one. -/
def replace (d : Document L) (old : NodeId) (n : Node) : Option NodeId × Document L :=
  match if old = rootId then none else d.find? old with
  | some _ =>
    let (l, next) := Live.plant d.next n
    (some d.next, { d.edit old fun _ => [l] with next := next })
  | none => (none, d)

/-- Removes a node with everything below it. -/
def remove (d : Document L) (i : NodeId) : Bool × Document L :=
  match if i = rootId then none else d.find? i with
  | some _ => (true, d.edit i fun _ => [])
  | none => (false, d)

end Document

end LiveMarkup
