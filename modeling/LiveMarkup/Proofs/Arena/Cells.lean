import LiveMarkup.Arena.Basic
import LiveMarkup.Proofs.Document.Identity
import Mathlib.Data.List.Perm.Basic

/-!
# The cells of an arena

What an arena keeps of a node, in both of its tables, is a `Cell`.  `Arena.Holds` says that an arena
has just the cells of a list, in any order, so each step of an operation is described by what it
does to one cell: it adds one under a new identity (`Holds.alloc`), changes one (`Holds.modify`,
`Holds.addListener`) or takes one away (`Holds.drop`), and all others stay as they are.

A live tree has the cells `Live.cells`, with its edges written down as in a table.
-/

namespace LiveMarkup

/-- What is kept of a node, with its listeners. -/
structure Cell (L : Type) where
  id : NodeId
  slot : Slot
  listeners : Listeners L

namespace Arena

variable {L : Type}

/-- Whether the nodes in an arena are just those of some cells, each with the slot and the listeners
in its cell, and `next` is the identity that is given out next. -/
structure Holds (a : Arena L) (next : NodeId) (cs : List (Cell L)) : Prop where
  next_eq : a.next = next
  nodup : (cs.map Cell.id).Nodup
  mem : ∀ c ∈ cs, c.id < next ∧ a.nodes[c.id]? = some c.slot ∧ a.listenersOf c.id = c.listeners
  not_mem : ∀ i, i ∉ cs.map Cell.id → a.nodes[i]? = none ∧ a.listeners[i]? = none

theorem contains_iff_isSome {a : Arena L} {i : NodeId} :
    a.contains i = true ↔ a.nodes[i]?.isSome := by
  rw [contains, Std.TreeMap.contains_eq_isSome_getElem?]

section Tables

variable {α : Type} (t : Std.TreeMap NodeId α)

theorem getElem?_insert_ne {i j : NodeId} (h : j ≠ i) (x : α) : (t.insert i x)[j]? = t[j]? := by
  simp [Std.TreeMap.getElem?_insert, Ne.symm h]

theorem getElem?_modify_ne {i j : NodeId} (h : j ≠ i) (f : α → α) : (t.modify i f)[j]? = t[j]? := by
  simp [Std.TreeMap.getElem?_modify, Ne.symm h]

theorem getElem?_erase_ne {i j : NodeId} (h : j ≠ i) : (t.erase i)[j]? = t[j]? := by
  simp [Std.TreeMap.getElem?_erase, Ne.symm h]

end Tables

namespace Holds

variable {a : Arena L} {next i : NodeId} {cs : List (Cell L)} {c : Cell L} {s : Slot}
  {ls : Listeners L}

/-- The order of cells does not matter. -/
theorem perm {cs' : List (Cell L)} (h : a.Holds next cs) (hp : cs.Perm cs') : a.Holds next cs' where
  next_eq := h.next_eq
  nodup := (hp.map Cell.id).nodup_iff.1 h.nodup
  mem c hc := h.mem c (hp.mem_iff.2 hc)
  not_mem i hi := h.not_mem i fun hmem => hi ((hp.map Cell.id).mem_iff.1 hmem)

theorem isSome_iff (h : a.Holds next cs) : a.nodes[i]?.isSome ↔ i ∈ cs.map Cell.id := by
  constructor
  · intro hsome
    by_contra hi
    rw [(h.not_mem i hi).1] at hsome
    cases hsome
  · intro hi
    obtain ⟨c, hc, rfl⟩ := List.mem_map.1 hi
    rw [(h.mem c hc).2.1]
    rfl

theorem contains_iff (h : a.Holds next cs) : a.contains i = true ↔ i ∈ cs.map Cell.id := by
  rw [contains_iff_isSome, h.isSome_iff]

/-- There are as many slots as cells. -/
theorem size_eq (h : a.Holds next cs) : a.size = cs.length := by
  have hperm : a.nodes.keys.Perm (cs.map Cell.id) := by
    refine (List.perm_ext_iff_of_nodup Std.TreeMap.nodup_keys h.nodup).2 fun i => ?_
    rw [Std.TreeMap.mem_keys, Std.TreeMap.mem_iff_isSome_getElem?, h.isSome_iff]
  rw [size, ← Std.TreeMap.length_keys, hperm.length_eq, List.length_map]

/-- The identity that is given out next is in no cell. -/
theorem next_not_mem (h : a.Holds next cs) : next ∉ cs.map Cell.id := by
  intro hmem
  obtain ⟨c, hc, heq⟩ := List.mem_map.1 hmem
  exact Nat.ne_of_lt (h.mem c hc).1 heq

/-- Two cells have different identities. -/
theorem id_ne (h : a.Holds next (⟨i, s, ls⟩ :: cs)) (hc : c ∈ cs) : c.id ≠ i := by
  have hi : i ∉ cs.map Cell.id := (List.nodup_cons.1 h.nodup).1
  exact fun e => hi (e ▸ List.mem_map_of_mem hc)

theorem alloc (h : a.Holds next cs) (s : Slot) :
    (a.alloc s).2.Holds (next + 1) (⟨next, s, []⟩ :: cs) where
  next_eq := congrArg (· + 1) h.next_eq
  nodup := List.nodup_cons.2 ⟨h.next_not_mem, h.nodup⟩
  mem c hc := by
    rcases List.mem_cons.1 hc with rfl | hc
    · refine ⟨Nat.lt_succ_self _, by rw [← h.next_eq]; exact Std.TreeMap.getElem?_insert_self, ?_⟩
      show a.listeners[next]?.getD [] = []
      rw [(h.not_mem _ h.next_not_mem).2]
      rfl
    · obtain ⟨hlt, hslot, hls⟩ := h.mem c hc
      have hne : c.id ≠ a.next := by
        rw [h.next_eq]
        exact Nat.ne_of_lt hlt
      exact ⟨Nat.lt_succ_of_lt hlt, (getElem?_insert_ne _ hne _).trans hslot, hls⟩
  not_mem j hj := by
    rw [List.map_cons, List.mem_cons, not_or, ← h.next_eq] at hj
    exact ⟨(getElem?_insert_ne _ hj.1 _).trans (h.not_mem j hj.2).1, (h.not_mem j hj.2).2⟩

theorem modify (h : a.Holds next (⟨i, s, ls⟩ :: cs)) (f : Slot → Slot) :
    (a.modify i f).Holds next (⟨i, f s, ls⟩ :: cs) where
  next_eq := h.next_eq
  nodup := h.nodup
  mem c hc := by
    rcases List.mem_cons.1 hc with rfl | hc
    · obtain ⟨hlt, hslot, hls⟩ := h.mem _ List.mem_cons_self
      refine ⟨hlt, Std.TreeMap.getElem?_modify_self.trans ?_, hls⟩
      rw [hslot]
      rfl
    · obtain ⟨hlt, hslot, hls⟩ := h.mem c (List.mem_cons_of_mem _ hc)
      have hne := h.id_ne hc
      exact ⟨hlt, (getElem?_modify_ne _ hne _).trans hslot, hls⟩
  not_mem j hj := by
    have hne : j ≠ i := fun e => hj (e ▸ List.mem_cons_self)
    exact ⟨(getElem?_modify_ne _ hne _).trans (h.not_mem j hj).1, (h.not_mem j hj).2⟩

theorem drop (h : a.Holds next (⟨i, s, ls⟩ :: cs)) : (a.drop i).Holds next cs where
  next_eq := h.next_eq
  nodup := (List.nodup_cons.1 h.nodup).2
  mem c hc := by
    obtain ⟨hlt, hslot, hls⟩ := h.mem c (List.mem_cons_of_mem _ hc)
    have hne := h.id_ne hc
    refine ⟨hlt, (getElem?_erase_ne _ hne).trans hslot, ?_⟩
    rw [← hls]
    exact congrArg (Option.getD · []) (getElem?_erase_ne _ hne)
  not_mem j hj := by
    by_cases hji : j = i
    · subst hji
      exact ⟨Std.TreeMap.getElem?_erase_self, Std.TreeMap.getElem?_erase_self⟩
    · have hnot := h.not_mem j fun hmem => (List.mem_cons.1 hmem).elim hji hj
      exact ⟨(getElem?_erase_ne _ hji).trans hnot.1, (getElem?_erase_ne _ hji).trans hnot.2⟩

theorem addListener (h : a.Holds next (⟨i, s, ls⟩ :: cs)) (kind : String) (l : L) :
    (a.addListener i kind l).1 = true ∧
      (a.addListener i kind l).2.Holds next (⟨i, s, ls ++ [(kind, l)]⟩ :: cs) := by
  have hin : a.contains i = true := h.contains_iff.2 List.mem_cons_self
  unfold Arena.addListener
  rw [if_pos hin]
  refine ⟨rfl, h.next_eq, h.nodup, fun c hc => ?_, fun j hj => ?_⟩
  · rcases List.mem_cons.1 hc with rfl | hc
    · obtain ⟨hlt, hslot, hls⟩ := h.mem _ List.mem_cons_self
      refine ⟨hlt, hslot, (congrArg (Option.getD · []) (Std.TreeMap.getElem?_insert_self)).trans ?_⟩
      exact congrArg (· ++ [(kind, l)]) hls
    · obtain ⟨hlt, hslot, hls⟩ := h.mem c (List.mem_cons_of_mem _ hc)
      have hne := h.id_ne hc
      exact ⟨hlt, hslot, (congrArg (Option.getD · []) (getElem?_insert_ne _ hne _)).trans hls⟩
  · have hne : j ≠ i := fun e => hj (e ▸ List.mem_cons_self)
    exact ⟨(h.not_mem j hj).1, (getElem?_insert_ne _ hne _).trans (h.not_mem j hj).2⟩

end Holds

end Arena

/-! ### Trees -/

namespace Live

variable {L : Type}

def kind : Live L → NodeKind
  | text _ _ t => .text t
  | element _ _ tag as _ => .element tag as

mutual

/-- The cells of a live node and of all nodes below it, given the node above it. -/
def cells (parent : NodeId) : Live L → List (Cell L)
  | text i ls t => [⟨i, ⟨.text t, some parent, []⟩, ls⟩]
  | element i ls tag as cs => ⟨i, ⟨.element tag as, some parent, cs.map id⟩, ls⟩ :: cellsAll i cs

/-- The cells of several live nodes and of all nodes below them, given the node above them. -/
def cellsAll (parent : NodeId) : List (Live L) → List (Cell L)
  | [] => []
  | l :: ls => l.cells parent ++ cellsAll parent ls

end

/-- The cell of a node with the cells of all nodes below it, from what is kept of the node
itself. -/
def fan (i : NodeId) (k : NodeKind) (parent : Option NodeId) (ls : Listeners L)
    (cs : List (Live L)) : List (Cell L) :=
  ⟨i, ⟨k, parent, cs.map id⟩, ls⟩ :: cellsAll i cs

theorem mem_subtree_self (n : Live L) : n ∈ n.subtree := by
  cases n <;> exact List.mem_cons_self

theorem mem_subtrees_of_mem {n : Live L} {ns : List (Live L)} (h : n ∈ ns) : n ∈ subtrees ns := by
  obtain ⟨before, after, rfl⟩ := List.append_of_mem h
  induction before with
  | nil => simp [mem_subtree_self]
  | cons b before ih =>
    rw [List.cons_append, subtrees_cons]
    exact List.mem_append_right _ (ih (by simp))

theorem cells_eq_fan (parent : NodeId) (l : Live L) :
    l.cells parent = fan l.id l.kind (some parent) l.listeners l.children := by
  cases l <;> rfl

theorem cellsAll_append (parent : NodeId) (ls ls' : List (Live L)) :
    cellsAll parent (ls ++ ls') = cellsAll parent ls ++ cellsAll parent ls' := by
  induction ls with
  | nil => rfl
  | cons l ls ih => rw [List.cons_append, cellsAll, cellsAll, ih, List.append_assoc]

/-- The cells of the first of several nodes may be put behind those of the others. -/
theorem cellsAll_cons (parent : NodeId) (l : Live L) (ls : List (Live L)) (rest : List (Cell L)) :
    (cellsAll parent (l :: ls) ++ rest).Perm (cellsAll parent ls ++ (l.cells parent ++ rest)) := by
  rw [cellsAll, List.append_assoc]
  exact List.perm_append_comm_assoc ..

/-- The cells of one of several nodes may be put in front. -/
theorem cellsAll_middle (parent : NodeId) (before after : List (Live L)) (l : Live L)
    (rest : List (Cell L)) :
    (cellsAll parent (before ++ l :: after) ++ rest).Perm
      (l.cells parent ++ (cellsAll parent (before ++ after) ++ rest)) := by
  rw [cellsAll_append, cellsAll_append, cellsAll, List.append_assoc, List.append_assoc,
    List.append_assoc]
  exact List.perm_append_comm_assoc ..

/-- What is beside a node below another one: the cell of the node above, the cells of its siblings
with all nodes below them, and other cells. -/
def beside (i : NodeId) (k : NodeKind) (parent : Option NodeId) (ls : Listeners L)
    (before : List (Live L)) (child : NodeId) (after : List (Live L)) (rest : List (Cell L)) :
    List (Cell L) :=
  ⟨i, ⟨k, parent, before.map id ++ child :: after.map id⟩, ls⟩ ::
    (cellsAll i (before ++ after) ++ rest)

/-- The cells of one of the nodes right below another one may be put in front. -/
theorem fan_middle (i : NodeId) (k : NodeKind) (parent : Option NodeId) (ls : Listeners L)
    (before : List (Live L)) (l : Live L) (after : List (Live L)) (rest : List (Cell L)) :
    (fan i k parent ls (before ++ l :: after) ++ rest).Perm
      (fan l.id l.kind (some i) l.listeners l.children ++
        beside i k parent ls before l.id after rest) := by
  rw [← cells_eq_fan, beside, fan, List.map_append, List.map_cons, List.cons_append]
  exact .trans (.cons _ (cellsAll_middle ..)) List.perm_middle.symm

mutual

theorem map_id_cells (parent : NodeId) : (l : Live L) → (l.cells parent).map Cell.id = l.ids
  | text .. => rfl
  | element i ls tag as cs => by
    rw [cells, List.map_cons, map_id_cellsAll i cs]
    rfl

theorem map_id_cellsAll (parent : NodeId) :
    (ls : List (Live L)) → (cellsAll parent ls).map Cell.id = (subtrees ls).map id
  | [] => rfl
  | l :: ls => by
    rw [cellsAll, List.map_append, map_id_cells parent l, map_id_cellsAll parent ls, subtrees_cons,
      List.map_append]
    rfl

end

theorem map_id_fan (i : NodeId) (k : NodeKind) (parent : Option NodeId) (ls : Listeners L)
    (cs : List (Live L)) :
    (fan i k parent ls cs).map Cell.id = i :: (subtrees cs).map id :=
  congrArg (i :: ·) (map_id_cellsAll i cs)

theorem length_cellsAll (parent : NodeId) (ls : List (Live L)) :
    (cellsAll parent ls).length = (subtrees ls).length := by
  rw [← List.length_map (f := Cell.id), map_id_cellsAll, List.length_map]

mutual

theorem exists_mem_cells (parent : NodeId) {n : Live L} : (l : Live L) → n ∈ l.subtree →
    ∃ p, ⟨n.id, ⟨n.kind, some p, n.children.map id⟩, n.listeners⟩ ∈ l.cells parent
  | text i ls t, h => by
    rw [subtree_text, List.mem_singleton] at h
    subst h
    exact ⟨parent, List.mem_cons_self⟩
  | element i ls tag as cs, h => by
    rcases List.mem_cons.1 h with rfl | h
    · exact ⟨parent, List.mem_cons_self⟩
    · obtain ⟨p, hp⟩ := exists_mem_cellsAll i cs h
      exact ⟨p, List.mem_cons_of_mem _ hp⟩

/-- Each node of a tree has its cell. -/
theorem exists_mem_cellsAll (parent : NodeId) {n : Live L} :
    (ls : List (Live L)) → n ∈ subtrees ls →
    ∃ p, ⟨n.id, ⟨n.kind, some p, n.children.map id⟩, n.listeners⟩ ∈ cellsAll parent ls
  | [], h => by cases h
  | l :: ls, h => by
    rw [subtrees_cons] at h
    rcases List.mem_append.1 h with h | h
    · obtain ⟨p, hp⟩ := exists_mem_cells parent l h
      exact ⟨p, List.mem_append_left _ hp⟩
    · obtain ⟨p, hp⟩ := exists_mem_cellsAll parent ls h
      exact ⟨p, List.mem_append_right _ hp⟩

end

theorem attrs_kind (n : Live L) : n.kind.attrs = n.attrs := by
  cases n <;> rfl

end Live

end LiveMarkup
