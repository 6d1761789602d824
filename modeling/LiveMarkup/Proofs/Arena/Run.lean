import LiveMarkup.Proofs.Arena.Simulation

/-!
# Runs of arenas and documents

An `Arena.Op` is an operation with its arguments, whatever these are.  Every run of operations on an
arena ends, answers as the run of the same operations on a document, and keeps the tree of that
document (`Represents.run`).
-/

namespace LiveMarkup

namespace Arena

variable {L : Type}

/-- The operations on a tree. -/
inductive Op (L : Type) where
  | append (parent : NodeId) (n : Node)
  | insert (parent : NodeId) (index : Nat) (n : Node)
  | replace (old : NodeId) (n : Node)
  | remove (i : NodeId)
  | setText (i : NodeId) (value : String)
  | setAttribute (i : NodeId) (name value : String)
  | removeAttribute (i : NodeId) (name : String)
  | addListener (i : NodeId) (kind : String) (l : L)
  | reconcile (parent : NodeId) (new : List Node)
  | bind (r : Registry) (make : String → String → L)

/-- What an operation answers. -/
inductive Reply where
  | nothing
  | node (i : Option NodeId)
  | done (b : Bool)
  | value (v : Option String)
  | stats (s : PatchStats)
  | bound (bs : List Binding) (r : Registry)

/-- The answer of an operation on an arena and the arena afterwards, if the operation ends. -/
def Op.run (a : Arena L) : Op L → Option (Reply × Arena L)
  | append p n => some (.node (a.append p n).1, (a.append p n).2)
  | insert p index n => some (.node (a.insert p index n).1, (a.insert p index n).2)
  | replace old n => some (.node (a.replace old n).1, (a.replace old n).2)
  | remove i => some (.done (a.remove i).1, (a.remove i).2)
  | setText i value => some (.done (a.setText i value).1, (a.setText i value).2)
  | setAttribute i name value => some (.nothing, a.setAttribute i name value)
  | removeAttribute i name =>
    some (.value (a.removeAttribute i name).1, (a.removeAttribute i name).2)
  | addListener i kind l => some (.done (a.addListener i kind l).1, (a.addListener i kind l).2)
  | reconcile p new => some (.stats (a.reconcile p new).1, (a.reconcile p new).2)
  | bind r make => (a.bind r make).map fun (bs, a', r') => (.bound bs r', a')

/-- The answer of an operation on a document and the document afterwards. -/
def Op.runDocument (d : Document L) : Op L → Reply × Document L
  | append p n => (.node (d.append p n).1, (d.append p n).2)
  | insert p index n => (.node (d.insert p index n).1, (d.insert p index n).2)
  | replace old n => (.node (d.replace old n).1, (d.replace old n).2)
  | remove i => (.done (d.remove i).1, (d.remove i).2)
  | setText i value => (.done (d.setText i value).1, (d.setText i value).2)
  | setAttribute i name value => (.nothing, d.setAttribute i name value)
  | removeAttribute i name => (.value (d.removeAttribute i name).1, (d.removeAttribute i name).2)
  | addListener i kind l => (.done (d.addListener i kind l).1, (d.addListener i kind l).2)
  | reconcile p new => (.stats (d.reconcile p new).1, (d.reconcile p new).2)
  | bind r make => (.bound (d.bind r make).1 (d.bind r make).2.2, (d.bind r make).2.1)

/-- The answers of several operations on an arena and the arena afterwards, if all of them end. -/
def run (a : Arena L) : List (Op L) → Option (List Reply × Arena L)
  | [] => some ([], a)
  | op :: ops => do
    let (reply, a') ← op.run a
    let (replies, a'') ← a'.run ops
    pure (reply :: replies, a'')

/-- The answers of several operations on a document and the document afterwards. -/
def runDocument (d : Document L) : List (Op L) → List Reply × Document L
  | [] => ([], d)
  | op :: ops =>
    let (reply, d') := op.runDocument d
    let (replies, d'') := runDocument d' ops
    (reply :: replies, d'')

variable {a : Arena L} {d : Document L}

/-- An operation that gives the same on both and leaves them alike ends and answers the same. -/
theorem ends_of_alike {α : Type} {x : α × Arena L} {y : α × Document L} (reply : α → Reply)
    (h : x.1 = y.1 ∧ x.2.Represents y.2) :
    ∃ a', some (reply x.1, x.2) = some (reply y.1, a') ∧ a'.Represents y.2 :=
  ⟨x.2, by rw [h.1], h.2⟩

/-- Each operation ends, answers as on a document, and keeps its tree. -/
theorem Represents.step (h : a.Represents d) (op : Op L) :
    ∃ a', op.run a = some ((op.runDocument d).1, a') ∧ a'.Represents (op.runDocument d).2 := by
  cases op with
  | append p n => exact ends_of_alike .node (h.append n)
  | insert p index n => exact ends_of_alike .node (h.insert index n)
  | replace old n => exact ends_of_alike .node (h.replace n)
  | remove i => exact ends_of_alike .done h.remove
  | setText i value => exact ends_of_alike .done (h.setText value)
  | setAttribute i name value => exact ⟨_, rfl, h.setAttribute name value⟩
  | removeAttribute i name => exact ends_of_alike .value (h.removeAttribute name)
  | addListener i kind l => exact ends_of_alike .done (h.addListener kind l)
  | reconcile p new => exact ends_of_alike .stats (h.reconcile new)
  | bind r make =>
    obtain ⟨a', ha', hbind⟩ := Holds.bind make (r := r) h
    exact ⟨a', by rw [Op.run, hbind]; rfl, ha'⟩

/-- Each run on an arena ends, answers as the run on a document, and keeps its tree. -/
theorem Represents.run (h : a.Represents d) (ops : List (Op L)) :
    ∃ a', a.run ops = some ((runDocument d ops).1, a') ∧ a'.Represents (runDocument d ops).2 := by
  induction ops generalizing a d with
  | nil => exact ⟨a, rfl, h⟩
  | cons op ops ih =>
    obtain ⟨a', hstep, ha'⟩ := h.step op
    obtain ⟨a'', hrun, ha''⟩ := ih ha'
    refine ⟨a'', ?_, ha''⟩
    rw [Arena.run, hstep]
    dsimp only [Option.bind_eq_bind, Option.bind_some]
    rw [hrun]
    rfl

end Arena

end LiveMarkup
