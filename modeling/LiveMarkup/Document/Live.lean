import LiveMarkup.Document.Attributes

/-!
# Live nodes

A live node is a node of a displayed tree: besides its content it has an identity and listeners.
`Live.node` forgets these again, `Live.ids` lists the identities of a subtree in preorder,
`Live.pathTo?` finds a node with all nodes above it, and `Live.edit` puts other nodes in the place
of one.
-/

namespace LiveMarkup

/-- The identity of a live node. -/
abbrev NodeId := Nat

/-- Listeners with the kind of event that each one waits for, in order of registration. -/
abbrev Listeners (L : Type) := List (String × L)

inductive Live (L : Type) where
  | text (id : NodeId) (listeners : Listeners L) (value : String)
  | element (id : NodeId) (listeners : Listeners L) (tag : String) (attrs : List Attr)
    (children : List (Live L))

namespace Live

variable {L : Type}

def id : Live L → NodeId
  | text i _ _ => i
  | element i _ _ _ _ => i

def listeners : Live L → Listeners L
  | text _ ls _ => ls
  | element _ ls _ _ _ => ls

def children : Live L → List (Live L)
  | text .. => []
  | element _ _ _ _ cs => cs

def tag? : Live L → Option String
  | text .. => none
  | element _ _ tag _ _ => some tag

def text? : Live L → Option String
  | text _ _ t => some t
  | element .. => none

def attrs : Live L → List Attr
  | text .. => []
  | element _ _ _ as _ => as

/-- The node with other listeners. -/
def withListeners (ls : Listeners L) : Live L → Live L
  | text i _ t => text i ls t
  | element i _ tag as cs => element i ls tag as cs

/-- The node with other children, if it can have any. -/
def withChildren (cs : List (Live L)) : Live L → Live L
  | text i ls t => text i ls t
  | element i ls tag as _ => element i ls tag as cs

/-- The node with other attributes, if it can have any. -/
def withAttrs (as : List Attr) : Live L → Live L
  | text i ls t => text i ls t
  | element i ls tag _ cs => element i ls tag as cs

mutual

/-- The content of a live node. -/
def node : Live L → Node
  | text _ _ t => .text t
  | element _ _ tag as cs => .element tag as (nodes cs)

/-- The contents of several live nodes. -/
def nodes : List (Live L) → List Node
  | [] => []
  | n :: ns => n.node :: nodes ns

end

mutual

/-- A live node and all nodes below it, in preorder, with other nodes behind them. -/
def subtreeBefore (rest : List (Live L)) : Live L → List (Live L)
  | text i ls t => text i ls t :: rest
  | element i ls tag as cs => element i ls tag as cs :: subtreesBefore rest cs

/-- Several live nodes and all nodes below them, in preorder, with other nodes behind them. -/
def subtreesBefore (rest : List (Live L)) : List (Live L) → List (Live L)
  | [] => rest
  | n :: ns => n.subtreeBefore (subtreesBefore rest ns)

end

/-- A live node and all nodes below it, in preorder. -/
def subtree (n : Live L) : List (Live L) := n.subtreeBefore []

/-- Several live nodes and all nodes below them, in preorder. -/
def subtrees (ns : List (Live L)) : List (Live L) := subtreesBefore [] ns

mutual

theorem subtreeBefore_eq (rest : List (Live L)) :
    (n : Live L) → n.subtreeBefore rest = n.subtree ++ rest
  | text .. => rfl
  | element i ls tag as cs => by
    rw [subtree, subtreeBefore, subtreeBefore, subtreesBefore_eq rest cs, ← subtrees,
      List.cons_append]

theorem subtreesBefore_eq (rest : List (Live L)) :
    (ns : List (Live L)) → subtreesBefore rest ns = subtrees ns ++ rest
  | [] => rfl
  | n :: ns => by
    rw [subtrees, subtreesBefore, subtreesBefore, subtreesBefore_eq rest ns, ← subtrees,
      subtreeBefore_eq _ n, subtreeBefore_eq _ n, List.append_assoc]

end

@[simp] theorem subtree_text (i : NodeId) (ls : Listeners L) (t : String) :
    (text i ls t).subtree = [text i ls t] := rfl

@[simp] theorem subtree_element (i : NodeId) (ls : Listeners L) (tag : String) (as : List Attr)
    (cs : List (Live L)) :
    (element i ls tag as cs).subtree = element i ls tag as cs :: subtrees cs := rfl

@[simp] theorem subtrees_nil : subtrees ([] : List (Live L)) = [] := rfl

@[simp] theorem subtrees_cons (n : Live L) (ns : List (Live L)) :
    subtrees (n :: ns) = n.subtree ++ subtrees ns := by
  rw [subtrees, subtreesBefore, ← subtrees, subtreeBefore_eq]

/-- The identities of a subtree in preorder. -/
def ids (n : Live L) : List NodeId := n.subtree.map id

mutual

/-- The node with an identity in a subtree and all nodes above it, innermost first; `above` are the
nodes above the subtree. -/
def pathTo? (i : NodeId) (above : List (Live L)) : Live L → Option (List (Live L))
  | text j ls t => if j = i then some (text j ls t :: above) else none
  | element j ls tag as cs =>
    if j = i then some (element j ls tag as cs :: above)
    else pathIn? i (element j ls tag as cs :: above) cs

/-- The node with an identity in one of several subtrees and all nodes above it, innermost first;
`above` are the nodes above the subtrees. -/
def pathIn? (i : NodeId) (above : List (Live L)) : List (Live L) → Option (List (Live L))
  | [] => none
  | n :: ns =>
    match n.pathTo? i above with
    | some path => some path
    | none => pathIn? i above ns

end

mutual

/-- What is left of a node after others have been put in the place of the one with an identity. -/
def edit (i : NodeId) (f : Live L → List (Live L)) : Live L → List (Live L)
  | text j ls t => if j = i then f (text j ls t) else [text j ls t]
  | element j ls tag as cs =>
    if j = i then f (element j ls tag as cs) else [element j ls tag as (editIn i f cs)]

/-- What is left of several nodes after others have been put in the place of the one with an
identity. -/
def editIn (i : NodeId) (f : Live L → List (Live L)) : List (Live L) → List (Live L)
  | [] => []
  | n :: ns => n.edit i f ++ editIn i f ns

end

/-! ### Making nodes live -/

mutual

/-- A live copy of a node, with identities from `next` on in preorder, and the next free
identity. -/
def plant (next : NodeId) : Node → Live L × NodeId
  | .text t => (text next [] t, next + 1)
  | .element tag as children =>
    let (cs, next') := plantAll (next + 1) children
    (element next [] tag as cs, next')

/-- Live copies of several nodes, and the next free identity. -/
def plantAll (next : NodeId) : List Node → List (Live L) × NodeId
  | [] => ([], next)
  | n :: ns =>
    let (l, next') := plant next n
    let (ls, next'') := plantAll next' ns
    (l :: ls, next'')

end

end Live

end LiveMarkup
