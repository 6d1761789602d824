import LiveMarkup.Proofs.Arena.Run
import LiveMarkup.Proofs.Document.Grows

/-!
# Arenas that operations can make

The tables of an arena write the tree down more than once.  `Arena.WellFormed` says that they agree:
nodes and the slots above them name one another, all nodes hang from the root, and no other node has
listeners.  The cells of a tree have these properties, because each of its edges is written down
from both of its ends; so every arena that operations make has them (`wellFormed_run`).  An identity
is given out once, so one that is gone stays away.
-/

namespace LiveMarkup

namespace Arena

variable {L : Type}

/-- Whether the nodes above a node lead up to the root. -/
inductive Reaches (a : Arena L) : NodeId → Prop
  | root : a.Reaches rootId
  | step {i p : NodeId} : a.parent? i = some p → a.Reaches p → a.Reaches i

/-- Whether what an arena keeps of its nodes is a tree below the root. -/
structure WellFormed (a : Arena L) : Prop where
  kind?_root : a.kind? rootId = some .root
  parent?_root : a.parent? rootId = none
  eq_root : ∀ i, a.kind? i = some .root → i = rootId
  named_above : ∀ i, a.contains i = true → i ≠ rootId →
    ∃ p k, a.parent? i = some p ∧ a.kind? p = some k ∧ k.isText = false ∧
      (a.childrenOf p).count i = 1
  live_below : ∀ p, ∀ i ∈ a.childrenOf p, a.contains i = true ∧ a.parent? i = some p
  reaches_root : ∀ i, a.contains i = true → a.Reaches i
  size_eq : ∃ below, a.descendants? rootId = some below ∧ below.Nodup ∧ a.size = 1 + below.length
  live_of_listeners : ∀ i ∈ a.listeners, a.contains i = true

end Arena

/-! ### Edges -/

namespace Live

variable {L : Type} {parent p : NodeId} {ts : List (Live L)} {n l : Live L}

/-- Whether a node is in some trees that hang from a node, right below another node. -/
inductive Hangs (parent : NodeId) (ts : List (Live L)) : NodeId → Live L → Prop
  | top {n : Live L} : n ∈ ts → Hangs parent ts parent n
  | step {p : NodeId} {n l : Live L} : Hangs parent ts p n → l ∈ n.children → Hangs parent ts n.id l

/-- The cell of a node right below another one. -/
def cell (p : NodeId) (n : Live L) : Cell L :=
  ⟨n.id, ⟨n.kind, some p, n.children.map id⟩, n.listeners⟩

theorem Hangs.trans {q : NodeId} (h : Hangs parent ts p n) (h' : Hangs n.id n.children q l) :
    Hangs parent ts q l := by
  induction h' with
  | top hl => exact .step h hl
  | step _ hl ih => exact .step ih hl

theorem Hangs.mono {ts' : List (Live L)} (h : Hangs parent ts p n) (hsub : ts ⊆ ts') :
    Hangs parent ts' p n := by
  induction h with
  | top hn => exact .top (hsub hn)
  | step _ hl ih => exact .step ih hl

theorem cells_subset_of_mem (h : l ∈ ts) : l.cells parent ⊆ cellsAll parent ts := by
  obtain ⟨before, after, rfl⟩ := List.append_of_mem h
  rw [cellsAll_append, cellsAll]
  exact List.subset_append_of_subset_right _ (List.subset_append_left _ _)

theorem Hangs.cells_subset (h : Hangs parent ts p n) : n.cells p ⊆ cellsAll parent ts := by
  induction h with
  | top hn => exact cells_subset_of_mem hn
  | step _ hl ih =>
    rw [cells_eq_fan] at ih
    exact List.Subset.trans (cells_subset_of_mem hl) (List.subset_of_cons_subset ih)

mutual

theorem exists_hangs_cells (parent : NodeId) {c : Cell L} : (l : Live L) → c ∈ l.cells parent →
    ∃ p n, Hangs parent [l] p n ∧ c = cell p n
  | text i ls t, h => ⟨parent, _, .top (List.mem_singleton.2 rfl), List.mem_singleton.1 h⟩
  | element i ls tag as cs, h => by
    have htop : Hangs parent [element i ls tag as cs] parent (element i ls tag as cs) :=
      .top (List.mem_singleton.2 rfl)
    rcases List.mem_cons.1 h with rfl | h
    · exact ⟨parent, _, htop, rfl⟩
    · obtain ⟨p, n, hn, hc⟩ := exists_hangs i cs h
      exact ⟨p, n, htop.trans hn, hc⟩

/-- A cell of a tree is that of one of its nodes. -/
theorem exists_hangs (parent : NodeId) {c : Cell L} :
    (ts : List (Live L)) → c ∈ cellsAll parent ts →
    ∃ p n, Hangs parent ts p n ∧ c = cell p n
  | [], h => by cases h
  | t :: ts, h => by
    rcases List.mem_append.1 h with h | h
    · obtain ⟨p, n, hn, hc⟩ := exists_hangs_cells parent t h
      exact ⟨p, n, hn.mono (by simp), hc⟩
    · obtain ⟨p, n, hn, hc⟩ := exists_hangs parent ts h
      exact ⟨p, n, hn.mono (List.subset_cons_self _ _), hc⟩

end

theorem Hangs.cell_mem (h : Hangs parent ts p n) : cell p n ∈ cellsAll parent ts := by
  have hsub := h.cells_subset
  rw [cells_eq_fan] at hsub
  exact hsub List.mem_cons_self

theorem subtree_sublist_of_mem {l : Live L} :
    (ts : List (Live L)) → l ∈ ts → l.subtree.Sublist (subtrees ts)
  | [], h => by cases h
  | t :: ts, h => by
    rw [subtrees_cons]
    rcases List.mem_cons.1 h with rfl | h
    · exact List.sublist_append_left _ _
    · exact (subtree_sublist_of_mem ts h).trans (List.sublist_append_right _ _)

/-- A node and the nodes below it are among all nodes, in their order. -/
theorem Hangs.subtree_sublist (h : Hangs parent ts p n) : n.subtree.Sublist (subtrees ts) := by
  induction h with
  | top hn => exact subtree_sublist_of_mem ts hn
  | step _ hl ih =>
    rw [subtree_eq] at ih
    exact (subtree_sublist_of_mem _ hl).trans ((List.sublist_cons_self _ _).trans ih)

/-- A node right below a node of some trees is in them too. -/
theorem mem_subtrees_of_mem_children (hn : n ∈ subtrees ts) (hl : l ∈ n.children) :
    l ∈ subtrees ts := by
  have hsub := subtree_subset_of_mem ts hn
  rw [subtree_eq] at hsub
  exact hsub (List.mem_cons_of_mem _ (mem_subtrees_of_mem hl))

end Live

namespace Arena

variable {L : Type} {a : Arena L} {d : Document L}

namespace Represents

/-- A node that is not the root hangs below it. -/
theorem exists_hangs (h : a.Represents d) {i : NodeId} (hi : a.contains i = true)
    (hroot : i ≠ rootId) :
    ∃ p n, Live.Hangs rootId d.children p n ∧ n.id = i := by
  obtain ⟨n, hn, hid⟩ := List.mem_map.1 ((h.contains_iff.1 hi).resolve_left hroot)
  obtain ⟨p, hp⟩ := Live.exists_mem_cellsAll rootId d.children hn
  obtain ⟨q, m, hm, hc⟩ := Live.exists_hangs rootId d.children hp
  exact ⟨q, m, hm, (congrArg Cell.id hc).symm.trans hid⟩

/-- The slot of a node that hangs below the root. -/
theorem getElem?_hangs (h : a.Represents d) {p : NodeId} {n : Live L}
    (hn : Live.Hangs rootId d.children p n) :
    a.nodes[n.id]? = some ⟨n.kind, some p, n.children.map Live.id⟩ :=
  Holds.getElem?_eq h (List.mem_cons_of_mem _ hn.cell_mem)

theorem contains_hangs (h : a.Represents d) {p : NodeId} {n : Live L}
    (hn : Live.Hangs rootId d.children p n) :
    a.contains n.id = true := by
  rw [contains_iff_isSome, h.getElem?_hangs hn]
  rfl

theorem parent?_hangs (h : a.Represents d) {p : NodeId} {n : Live L}
    (hn : Live.Hangs rootId d.children p n) :
    a.parent? n.id = some p := by
  rw [parent?, h.getElem?_hangs hn]
  rfl

theorem nodup_children (h : a.Represents d) {ts : List (Live L)}
    (hts : ts.Sublist (Live.subtrees d.children)) :
    (ts.map Live.id).Nodup :=
  (List.nodup_cons.1 h.nodup).2.sublist (hts.map Live.id)

/-- The node above a node names it once. -/
theorem named_above (h : a.Represents d) {p : NodeId} {n : Live L}
    (hn : Live.Hangs rootId d.children p n) :
    ∃ k, a.kind? p = some k ∧ k.isText = false ∧ (a.childrenOf p).count n.id = 1 := by
  cases hn with
  | top hn =>
    refine ⟨.root, h.kind?_root, rfl, ?_⟩
    rw [Holds.childrenOf_eq h List.mem_cons_self]
    exact List.count_eq_one_of_mem (h.nodup_children (Live.sublist_subtrees _))
      (List.mem_map_of_mem hn)
  | @step q m _ hm hl =>
    have hslot := h.getElem?_hangs hm
    have hsub : m.children.Sublist (Live.subtrees d.children) := by
      have hsubtree := hm.subtree_sublist
      rw [Live.subtree_eq] at hsubtree
      exact (Live.sublist_subtrees _).trans ((List.sublist_cons_self _ _).trans hsubtree)
    refine ⟨m.kind, by rw [kind?, hslot]; rfl, ?_, ?_⟩
    · cases m with
      | text i ls t => cases hl
      | element i ls tag as cs => rfl
    · rw [childrenOf, hslot]
      exact List.count_eq_one_of_mem (h.nodup_children hsub) (List.mem_map_of_mem hl)

/-- A node that is named hangs below the node that names it. -/
theorem hangs_of_mem (h : a.Represents d) {p i : NodeId} (hi : i ∈ a.childrenOf p) :
    ∃ n, Live.Hangs rootId d.children p n ∧ n.id = i := by
  by_cases hroot : p = rootId
  · subst hroot
    rw [Holds.childrenOf_eq h List.mem_cons_self] at hi
    obtain ⟨n, hn, hid⟩ := List.mem_map.1 hi
    exact ⟨n, .top hn, hid⟩
  · have hp : a.contains p = true := by
      by_contra hp
      rw [contains_iff_isSome, Option.not_isSome_iff_eq_none] at hp
      rw [childrenOf, hp] at hi
      cases hi
    obtain ⟨q, m, hm, rfl⟩ := h.exists_hangs hp hroot
    rw [childrenOf, h.getElem?_hangs hm] at hi
    obtain ⟨n, hn, hid⟩ := List.mem_map.1 hi
    exact ⟨n, .step hm hn, hid⟩

theorem reaches (h : a.Represents d) {p : NodeId} {n : Live L}
    (hn : Live.Hangs rootId d.children p n) :
    a.Reaches n.id := by
  induction hn with
  | top hn => exact .step (h.parent?_hangs (.top hn)) .root
  | step hn hl ih => exact .step (h.parent?_hangs (.step hn hl)) ih

/-- An arena that represents a document is well-formed. -/
theorem wellFormed (h : a.Represents d) : a.WellFormed where
  kind?_root := h.kind?_root
  parent?_root := Holds.parent?_eq h List.mem_cons_self
  eq_root _ := h.eq_root
  named_above i hi hroot := by
    obtain ⟨p, n, hn, rfl⟩ := h.exists_hangs hi hroot
    obtain ⟨k, hnamed⟩ := h.named_above hn
    exact ⟨p, k, h.parent?_hangs hn, hnamed⟩
  live_below p i hi := by
    obtain ⟨n, hn, rfl⟩ := h.hangs_of_mem hi
    exact ⟨h.contains_hangs hn, h.parent?_hangs hn⟩
  reaches_root i hi := by
    by_cases hroot : i = rootId
    · exact hroot ▸ .root
    · obtain ⟨p, n, hn, rfl⟩ := h.exists_hangs hi hroot
      exact h.reaches hn
  size_eq := by
    refine ⟨_, Holds.descendants?_root h, (List.nodup_cons.1 h.nodup).2, ?_⟩
    rw [Holds.size_eq h, Document.cells, Live.fan, List.length_cons, Live.length_cellsAll,
      Document.ids, List.length_map, Nat.add_comm]
  live_of_listeners i hi := by
    by_contra hnot
    rw [Holds.contains_iff h] at hnot
    rw [Std.TreeMap.mem_iff_isSome_getElem?, (Holds.not_mem h i hnot).2] at hi
    cases hi

end Represents

/-! ### Runs -/

theorem Op.grows (d : Document L) (op : Op L) : d.Grows (op.runDocument d).2 := by
  cases op with
  | append p n => exact Document.grows_insert p _ n
  | insert p index n => exact Document.grows_insert p index n
  | replace old n => exact Document.grows_replace old n
  | remove i => exact Document.grows_remove i
  | setText i value => exact Document.grows_setText i value
  | setAttribute i name value => exact Document.grows_setAttribute i name value
  | removeAttribute i name => exact Document.grows_removeAttribute i name
  | addListener i kind l => exact Document.grows_addListener i kind l
  | reconcile p new => exact Document.grows_reconcile p new
  | bind r make => exact Document.grows_bind r make

theorem grows_runDocument (d : Document L) (ops : List (Op L)) : d.Grows (runDocument d ops).2 := by
  induction ops generalizing d with
  | nil => exact .refl d
  | cons op ops ih => exact (op.grows d).trans (ih _)

/-- A node that is gone does not come back. -/
theorem Represents.gone {d' d'' : Document L} {a' a'' : Arena L} {i : NodeId} (h : a.Represents d)
    (h' : a'.Represents d') (h'' : a''.Represents d'') (hgrows : d.Grows d')
    (hgrows' : d'.Grows d'') (hi : a.contains i = true) (hgone : a'.contains i = false) :
    a''.contains i = false := by
  rw [← Bool.not_eq_true, h'.contains_iff, not_or] at hgone
  rw [← Bool.not_eq_true, h''.contains_iff, not_or]
  have hmem := (h.contains_iff.1 hi).resolve_left hgone.1
  have hlt : i < d.next := by
    obtain ⟨c, hc, rfl⟩ := List.mem_map.1 ((Holds.contains_iff h).1 hi)
    exact (Holds.mem h c hc).1
  exact ⟨hgone.1, hgrows'.gone (Nat.lt_of_lt_of_le hlt hgrows.next_le) hgone.2⟩

/-- Every run of operations on the empty arena ends, and the arena that it leaves is well-formed.
If it is gone on with, a node that was there and is there no longer does not come back, whatever
operations follow. -/
theorem wellFormed_run (ops : List (Op L)) :
    ∃ replies a, empty.run ops = some (replies, a) ∧ a.WellFormed ∧
      ∀ ops', ∃ replies' a', a.run ops' = some (replies', a') ∧ a'.WellFormed ∧
        ∀ ops'', ∃ replies'' a'', a'.run ops'' = some (replies'', a'') ∧
          ∀ i, a.contains i = true → a'.contains i = false → a''.contains i = false := by
  obtain ⟨a, hrun, ha⟩ := represents_empty.run ops
  refine ⟨_, a, hrun, ha.wellFormed, fun ops' => ?_⟩
  obtain ⟨a', hrun', ha'⟩ := ha.run ops'
  refine ⟨_, a', hrun', ha'.wellFormed, fun ops'' => ?_⟩
  obtain ⟨a'', hrun'', ha''⟩ := ha'.run ops''
  exact ⟨_, a'', hrun'',
    fun i => ha.gone ha' ha'' (grows_runDocument _ ops') (grows_runDocument _ ops'')⟩

/-- What was removed stays away when something else is appended. -/
theorem wellFormed_run_removed : ∃ a a' a'' : Arena String,
    (∃ replies, empty.run [.append rootId (.element "b" [] [.text "x"])] = some (replies, a)) ∧
    (∃ replies, a.run [.remove 1] = some (replies, a')) ∧
    (∃ replies, a'.run [.append rootId (.text "y")] = some (replies, a'')) ∧
    a.contains 2 = true ∧ a'.contains 2 = false ∧ a''.contains 2 = false := by
  obtain ⟨_, a, hrun, -, h⟩ :=
    wellFormed_run (L := String) [.append rootId (.element "b" [] [.text "x"])]
  obtain ⟨_, a', hrun', -, h'⟩ := h [.remove 1]
  obtain ⟨_, a'', hrun'', hgone⟩ := h' [.append rootId (.text "y")]
  obtain ⟨_, ha, hrep⟩ :=
    represents_empty.run (L := String) [.append rootId (.element "b" [] [.text "x"])]
  rw [hrun] at ha
  cases ha
  obtain ⟨_, ha', hrep'⟩ := hrep.run [.remove 1]
  rw [hrun'] at ha'
  cases ha'
  have hmem : a.contains 2 = true := hrep.contains_iff.2 (by decide +kernel)
  have hnot : a'.contains 2 = false := by
    rw [← Bool.not_eq_true, hrep'.contains_iff]
    decide +kernel
  exact ⟨a, a', a'', ⟨_, hrun⟩, ⟨_, hrun'⟩, ⟨_, hrun''⟩, hmem, hnot, hgone 2 hmem hnot⟩

end Arena

end LiveMarkup
