import LiveMarkup.Document.Basic
import Std.Data.TreeMap

/-!
# Arenas

An arena keeps the tree that a component displays in a table.  The slot of a node names the node
above it and the nodes right below it, and listeners are kept in a table of their own.  So one edge
of the tree is written down twice, and each operation has to keep the tables in line with one
another: `build` fills slots for a new subtree, `insert` names it in the slot above it, and `remove`
takes it out of there and empties its slots one by one.  `Document` is the same tree with nodes
inside one another.

What follows edges downwards ends only if they form no cycle.  `descendants?` and `node?` go on for
as many steps as there are nodes, which is enough in a tree, and are `none` where it is not.
-/

namespace LiveMarkup

/-- What a node is, apart from its place in the tree. -/
inductive NodeKind where
  | root
  | element (tag : String) (attrs : List Attr)
  | text (value : String)
  deriving Repr, DecidableEq

namespace NodeKind

def attrs : NodeKind → List Attr
  | element _ as => as
  | _ => []

def isText : NodeKind → Bool
  | text _ => true
  | _ => false

def text? : NodeKind → Option String
  | text t => some t
  | _ => none

def tag? : NodeKind → Option String
  | element tag _ => some tag
  | _ => none

end NodeKind

/-- What is kept of a node. -/
structure Slot where
  kind : NodeKind
  parent : Option NodeId
  children : List NodeId
  deriving Repr, DecidableEq

structure Arena (L : Type) where
  /-- The slots of the nodes in the tree. -/
  nodes : Std.TreeMap NodeId Slot
  /-- The listeners of the nodes that ever got one. -/
  listeners : Std.TreeMap NodeId (Listeners L)
  /-- The first identity that was never given out. -/
  next : NodeId

namespace Arena

variable {L : Type}

def empty : Arena L := ⟨(∅ : Std.TreeMap NodeId Slot).insert rootId ⟨.root, none, []⟩, ∅, 1⟩

instance : Inhabited (Arena L) := ⟨empty⟩

/-! ### Reading -/

def contains (a : Arena L) (i : NodeId) : Bool := a.nodes.contains i

/-- The number of nodes in the tree, the root included. -/
def size (a : Arena L) : Nat := a.nodes.size

def kind? (a : Arena L) (i : NodeId) : Option NodeKind := a.nodes[i]?.map Slot.kind

/-- The identities of the nodes right below a node. -/
def childrenOf (a : Arena L) (i : NodeId) : List NodeId := (a.nodes[i]?.map Slot.children).getD []

/-- The identity of the node above a node. -/
def parent? (a : Arena L) (i : NodeId) : Option NodeId := a.nodes[i]?.bind Slot.parent

def tag? (a : Arena L) (i : NodeId) : Option String := (a.kind? i).bind NodeKind.tag?

def text? (a : Arena L) (i : NodeId) : Option String := (a.kind? i).bind NodeKind.text?

def attrs (a : Arena L) (i : NodeId) : List Attr := ((a.kind? i).map NodeKind.attrs).getD []

def attribute? (a : Arena L) (i : NodeId) (name : String) : Option String :=
  Attributes.get? name (a.attrs i)

def listenersOf (a : Arena L) (i : NodeId) : Listeners L := a.listeners[i]?.getD []

/-- The identities that are met below some nodes on a stack, behind those that were met before.
Each step meets one. -/
def walk (a : Arena L) : (steps : Nat) → (met stack : List NodeId) → Option (List NodeId)
  | _, met, [] => some met
  | 0, _, _ :: _ => none
  | steps + 1, met, i :: stack => a.walk steps (met ++ [i]) (a.childrenOf i ++ stack)

/-- The identities below a node in preorder. -/
def descendants? (a : Arena L) (i : NodeId) : Option (List NodeId) :=
  a.walk a.size [] (a.childrenOf i)

/-- The identities of the elements with a tag in preorder. -/
def elementsByTag? (a : Arena L) (tag : String) : Option (List NodeId) :=
  (a.descendants? rootId).map fun below => below.filter fun i => a.tag? i == some tag

/-- The text of a node, or all the text below it. -/
def textContent? (a : Arena L) (i : NodeId) : Option String :=
  match a.text? i with
  | some t => some t
  | none => (a.descendants? i).map fun below => String.join (below.filterMap a.text?)

/-- The content of a node, if it has any, where no node is deeper below it than `depth`. -/
def nodeWithin? (a : Arena L) : (depth : Nat) → NodeId → Option (Option Node)
  | 0, _ => none
  | depth + 1, i =>
    match a.kind? i with
    | none | some .root => some none
    | some (.text t) => some (some (.text t))
    | some (.element tag as) => do
      let cs ← (a.childrenOf i).mapM (a.nodeWithin? depth)
      pure (some (.element tag as (cs.filterMap id)))

/-- The content of a node, if it has any. -/
def node? (a : Arena L) (i : NodeId) : Option (Option Node) := a.nodeWithin? a.size i

/-- The markup of what is below a node. -/
def innerHtml? [EntityCodec] (a : Arena L) (i : NodeId) : Option String :=
  ((a.childrenOf i).mapM a.node?).map fun ns =>
    Node.htmlAll (((a.tag? i).map isRawText).getD false) (ns.filterMap id)

/-- The markup of a node. -/
def outerHtml? [EntityCodec] (a : Arena L) (i : NodeId) : Option String :=
  match a.kind? i with
  | some .root => a.innerHtml? i
  | _ => (a.node? i).map fun n => (n.map Node.html).getD ""

/-! ### Writing -/

/-- Changes the slot of a node. -/
def modify (a : Arena L) (i : NodeId) (f : Slot → Slot) : Arena L :=
  { a with nodes := a.nodes.modify i f }

/-- Overwrites the text of a text node. -/
def setText (a : Arena L) (i : NodeId) (value : String) : Bool × Arena L :=
  match a.kind? i with
  | some (.text _) => (true, a.modify i fun s => { s with kind := .text value })
  | _ => (false, a)

/-- Sets an attribute of an element. -/
def setAttribute (a : Arena L) (i : NodeId) (name value : String) : Arena L :=
  match a.kind? i with
  | some (.element tag as) =>
    a.modify i fun s => { s with kind := .element tag (Attributes.put name value as) }
  | _ => a

/-- Removes an attribute of an element and gives its value. -/
def removeAttribute (a : Arena L) (i : NodeId) (name : String) : Option String × Arena L :=
  match a.kind? i with
  | some (.element tag as) =>
    match Attributes.get? name as with
    | some value =>
      (some value, a.modify i fun s => { s with kind := .element tag (Attributes.drop name as) })
    | none => (none, a)
  | _ => (none, a)

/-- Puts a listener on a node. -/
def addListener (a : Arena L) (i : NodeId) (kind : String) (l : L) : Bool × Arena L :=
  if a.contains i then
    (true, { a with listeners := a.listeners.insert i (a.listenersOf i ++ [(kind, l)]) })
  else (false, a)

/-! ### Adding nodes -/

/-- Puts a slot under a new identity. -/
def alloc (a : Arena L) (s : Slot) : NodeId × Arena L :=
  (a.next, { a with nodes := a.nodes.insert a.next s, next := a.next + 1 })

/-- Names a node as the last one right below another. -/
def push (a : Arena L) (parent i : NodeId) : Arena L :=
  a.modify parent fun s => { s with children := s.children ++ [i] }

/-- Names a node at a place among those right below another, or at the end if the place is beyond
it. -/
def place (a : Arena L) (parent : NodeId) (index : Nat) (i : NodeId) : Arena L :=
  a.modify parent fun s =>
  { s with children := Document.insertAt (min index s.children.length) i s.children }

mutual

/-- Fills slots with a copy of a node that names the node above it without being named there, and
gives the identity of its top. -/
def build (a : Arena L) (parent : NodeId) : Node → NodeId × Arena L
  | .text t => a.alloc ⟨.text t, some parent, []⟩
  | .element tag as cs =>
    let (i, a') := a.alloc ⟨.element tag as, some parent, []⟩
    (i, a'.buildAll i cs)

/-- Fills slots with copies of several nodes right below another one. -/
def buildAll (a : Arena L) (parent : NodeId) : List Node → Arena L
  | [] => a
  | n :: ns =>
    let (i, a') := a.build parent n
    (a'.push parent i).buildAll parent ns

end

/-- Puts a copy of a node below another one.  Text nodes take no children. -/
def insert (a : Arena L) (parent : NodeId) (index : Nat) (n : Node) : Option NodeId × Arena L :=
  match a.kind? parent with
  | none | some (.text _) => (none, a)
  | some _ =>
    let (i, a') := a.build parent n
    (some i, a'.place parent index i)

/-- Puts a copy of a node below another one, after all others. -/
def append (a : Arena L) (parent : NodeId) (n : Node) : Option NodeId × Arena L :=
  match a.nodes[parent]? with
  | some s => a.insert parent s.children.length n
  | none => (none, a)

/-! ### Removing nodes -/

/-- Names a node no longer among those right below another. -/
def unlink (a : Arena L) (parent i : NodeId) : Arena L :=
  a.modify parent fun s => { s with children := s.children.filter fun c => c != i }

/-- Forgets the listeners of a node. -/
def forget (a : Arena L) (i : NodeId) : Arena L := { a with listeners := a.listeners.erase i }

/-- Empties the slot of a node and forgets its listeners. -/
def drop (a : Arena L) (i : NodeId) : Arena L := { a.forget i with nodes := a.nodes.erase i }

theorem size_drop_lt {a : Arena L} {i : NodeId} {s : Slot} (h : a.nodes[i]? = some s) :
    (a.drop i).nodes.size < a.nodes.size := by
  have hmem : i ∈ a.nodes := Std.TreeMap.mem_iff_isSome_getElem?.2 (by rw [h]; rfl)
  have hpos : 0 < a.nodes.size := by
    rw [Nat.pos_iff_ne_zero]
    intro hsize
    have hempty : a.nodes.isEmpty = true := by rw [Std.TreeMap.isEmpty_eq_size_eq_zero, hsize]; rfl
    rw [Std.TreeMap.isEmpty_iff_forall_not_mem] at hempty
    exact hempty i hmem
  show (a.nodes.erase i).size < _
  rw [Std.TreeMap.size_erase, if_pos (Std.TreeMap.mem_iff_contains.1 hmem)]
  omega

/-- Drops the nodes on a stack and all nodes below them. -/
def drain (a : Arena L) (stack : List NodeId) : Arena L :=
  match stack with
  | [] => a
  | i :: stack =>
    match _h : a.nodes[i]? with
    | some s => (a.drop i).drain (s.children.reverse ++ stack)
    | none => (a.forget i).drain stack
termination_by (a.nodes.size, stack.length)
decreasing_by
  · exact Prod.Lex.left _ _ (size_drop_lt ‹_›)
  · exact Prod.Lex.right _ (Nat.lt_succ_self _)

/-- Removes a node with everything below it.  The root cannot be removed. -/
def remove (a : Arena L) (i : NodeId) : Bool × Arena L :=
  if i = rootId ∨ a.contains i = false then (false, a)
  else
    let a' := match a.parent? i with
      | some p => a.unlink p i
      | none => a
    (true, a'.drain [i])

/-- Puts a copy of a node in the place of another one, which is removed. -/
def replace (a : Arena L) (old : NodeId) (n : Node) : Option NodeId × Arena L :=
  match a.parent? old with
  | none => (none, a)
  | some p =>
    match (a.childrenOf p).idxOf? old with
    | some index => (a.remove old).2.insert p index n
    | none => (none, a)

end Arena

end LiveMarkup
