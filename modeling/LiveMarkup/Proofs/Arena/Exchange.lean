import LiveMarkup.Proofs.Arena.Run
import LiveMarkup.Proofs.Document.Grows

/-!
# Subtrees that come and go

Adding, replacing and removing a subtree are one thing seen from the rest of the tree: some nodes
go, others come, and what is right below one node is changed (`Arena.Exchanges`).  Where the cells
of two arenas differ just in the cells of a subtree and in what one cell names, this is so
(`Holds.exchanges`).  `edits_subtrees` says for each operation which nodes go and come and what is
right below the one node then, and that a failed operation leaves the arena as it is.
-/

namespace LiveMarkup

namespace Arena

open Live (fan cellsAll)

variable {L : Type}

/-- Whether an arena is another one without some nodes and with others, which are new, while all
nodes that stay have the same kind, the same node above them and the same listeners, and the same
nodes right below them unless they are `p`. -/
structure Exchanges (a a' : Arena L) (p : NodeId) (gone new : List NodeId) : Prop where
  gone_live : ∀ i ∈ gone, a.contains i = true
  new_fresh : ∀ i ∈ new, a.contains i = false ∧ a.next ≤ i
  contains_iff : ∀ i, a'.contains i = true ↔ (a.contains i = true ∧ i ∉ gone) ∨ i ∈ new
  kept : ∀ i, a.contains i = true → i ∉ gone →
    a'.kind? i = a.kind? i ∧ a'.parent? i = a.parent? i ∧ a'.listenersOf i = a.listenersOf i ∧
      (i ≠ p → a'.childrenOf i = a.childrenOf i)

variable {a a' : Arena L} {next next' p : NodeId}

/-- A node whose cells in two arenas differ in the nodes right below it at most. -/
theorem Holds.same {i : NodeId} {k : NodeKind} {q : Option NodeId} {js js' : List NodeId}
    {ls : Listeners L} {cs cs' : List (Cell L)} (h : a.Holds next cs) (h' : a'.Holds next' cs')
    (hc : ⟨i, ⟨k, q, js⟩, ls⟩ ∈ cs) (hc' : ⟨i, ⟨k, q, js'⟩, ls⟩ ∈ cs') :
    a'.kind? i = a.kind? i ∧ a'.parent? i = a.parent? i ∧ a'.listenersOf i = a.listenersOf i :=
  ⟨(h'.kind?_eq hc').trans (h.kind?_eq hc).symm, (h'.parent?_eq hc').trans (h.parent?_eq hc).symm,
    (h'.mem _ hc').2.2.trans (h.mem _ hc).2.2.symm⟩

/-- Arenas whose cells differ in those of some nodes, and in what the cell of another node names. -/
theorem Holds.exchanges {k : NodeKind} {q : Option NodeId} {js js' : List NodeId} {ls : Listeners L}
    {gone new cs : List (Cell L)} (h : a.Holds next (gone ++ ⟨p, ⟨k, q, js⟩, ls⟩ :: cs))
    (h' : a'.Holds next' (new ++ ⟨p, ⟨k, q, js'⟩, ls⟩ :: cs))
    (hfresh : ∀ i ∈ new.map Cell.id, next ≤ i) :
    a.Exchanges a' p (gone.map Cell.id) (new.map Cell.id) := by
  have hcontains {i : NodeId} : a.contains i = true ↔ i ∈ gone.map Cell.id ∨ i = p ∨
    i ∈ cs.map Cell.id := by
    rw [h.contains_iff, List.map_append, List.mem_append, List.map_cons, List.mem_cons]
  have hstays {i : NodeId} : (a.contains i = true ∧ i ∉ gone.map Cell.id) ↔ i = p ∨
    i ∈ cs.map Cell.id := by
    have hnd := h.nodup
    rw [List.map_append, List.nodup_append] at hnd
    refine ⟨fun ⟨hi, hgone⟩ => (hcontains.1 hi).resolve_left hgone, fun hi =>
      ⟨hcontains.2 (Or.inr hi), fun hgone => ?_⟩⟩
    exact hnd.2.2 i hgone i (List.mem_cons.2 hi) rfl
  refine ⟨fun i hi => hcontains.2 (Or.inl hi), fun i hi => ?_, fun i => ?_, fun i hi hgone => ?_⟩
  · have hle := hfresh i hi
    refine ⟨?_, h.next_eq ▸ hle⟩
    rw [← Bool.not_eq_true, h.contains_iff]
    intro hmem
    obtain ⟨c, hc, rfl⟩ := List.mem_map.1 hmem
    exact Nat.not_le_of_lt (h.mem c hc).1 hle
  · rw [hstays, h'.contains_iff, List.map_append, List.mem_append, List.map_cons, List.mem_cons]
    exact or_comm
  · rcases hstays.1 ⟨hi, hgone⟩ with rfl | hi
    · obtain ⟨hkind, hparent, hls⟩ := h.same h' (List.mem_append_right gone List.mem_cons_self)
        (List.mem_append_right new List.mem_cons_self)
      exact ⟨hkind, hparent, hls, fun hne => absurd rfl hne⟩
    · obtain ⟨c, hc, rfl⟩ := List.mem_map.1 hi
      have hmem {xs : List (Cell L)} {x : Cell L} : c ∈ xs ++ x :: cs :=
        List.mem_append_right _ (List.mem_cons_of_mem _ hc)
      obtain ⟨hkind, hparent, hls⟩ := h.same h' hmem hmem
      exact ⟨hkind, hparent, hls,
        fun _ => (h'.childrenOf_eq hmem).trans (h.childrenOf_eq hmem).symm⟩

/-! ### Operations -/

/-- Whether a node is in an arena and may have others right below it. -/
def Takes (a : Arena L) (p : NodeId) : Prop := ∃ k, a.kind? p = some k ∧ k.isText = false

/-- Whether an operation that gives an arena and an identity puts a copy of a node under this
identity among the nodes right below another one, and changes nothing else. -/
def Inserts (a : Arena L) (p : NodeId) (index : Nat) (n : Node)
    (result : Option NodeId × Arena L) : Prop :=
  ∃ j a' below, result = (some j, a') ∧ a'.node? j = some (some n) ∧
    a'.descendants? j = some below ∧
    a.Exchanges a' p [] (j :: below) ∧
    a'.childrenOf p = Document.insertAt (min index (a.childrenOf p).length) j (a.childrenOf p)

/-- Whether an operation puts a copy of a node in the place of a node and all nodes below that
one. -/
def Replaces (a : Arena L) (i : NodeId) (n : Node) (result : Option NodeId × Arena L) : Prop :=
  ∃ p below j a' below' before after, a.parent? i = some p ∧ a.descendants? i = some below ∧
    result = (some j, a') ∧ a'.node? j = some (some n) ∧ a'.descendants? j = some below' ∧
    a.Exchanges a' p (i :: below) (j :: below') ∧
    a.childrenOf p = before ++ i :: after ∧ a'.childrenOf p = before ++ j :: after

/-- Whether an operation removes a node and all nodes below it. -/
def Removes (a : Arena L) (i : NodeId) (result : Bool × Arena L) : Prop :=
  ∃ p below a' before after, a.parent? i = some p ∧ a.descendants? i = some below ∧
    result = (true, a') ∧
    a.Exchanges a' p (i :: below) [] ∧ a.childrenOf p = before ++ i :: after ∧
    a'.childrenOf p = before ++ after

section Subtree

variable {cs : List (Cell L)} {l : Live L} {n : Node}

/-- The content of a planted node is read back. -/
theorem Holds.node?_plant {next'' : NodeId} (hl : Live.plant next n = (l, next'))
    (h : a.Holds next'' (fan l.id l.kind (some p) l.listeners l.children ++ cs)) :
    a.node? l.id = some (some n) := by
  have hnode := Live.node_plant (L := L) next n
  rw [hl] at hnode
  rw [← hnode]
  exact h.node?_eq

theorem next_le_of_mem_fan (hl : Live.plant next n = (l, next')) (q : Option NodeId) :
    ∀ i ∈ (fan l.id l.kind q l.listeners l.children).map Cell.id, next ≤ i := by
  rw [Live.map_id_fan, ← Live.ids_eq]
  exact fun i hi => Live.le_of_mem_plant hl hi

end Subtree

namespace Represents

variable {d : Document L} {i : NodeId}

theorem inserts (h : a.Represents d) (htakes : a.Takes p) (index : Nat) (n : Node) :
    a.Inserts p index n (a.insert p index n) := by
  obtain ⟨k, hk, htext⟩ := htakes
  obtain ⟨q, ls, rest, hopen, -⟩ := h.exists_fan hk htext
  rcases hl : Live.plant (L := L) d.next n with ⟨l, next'⟩
  obtain ⟨hnew, hinsert⟩ := hopen.insert hl htext index
  have hclosed := hinsert.perm (Live.fan_middle ..)
  refine ⟨l.id, _, _, Prod.ext hnew rfl, hclosed.node?_plant hl, hclosed.descendants?_eq, ?_, ?_⟩
  · have hold : a.Holds d.next ([] ++ ⟨p, ⟨k, q, (d.childrenOf p).map Live.id⟩, ls⟩ ::
        (cellsAll p ((d.childrenOf p).take index ++ (d.childrenOf p).drop index) ++ rest)) := by
      rw [List.take_append_drop]
      exact hopen
    have hexchanges := hold.exchanges hclosed (next_le_of_mem_fan hl _)
    rw [Live.map_id_fan] at hexchanges
    exact hexchanges
  · rw [hopen.childrenOf_eq List.mem_cons_self, Document.insertAt_min]
    exact (hinsert.childrenOf_eq List.mem_cons_self).trans (Document.map_insertAt ..)

theorem replaces (h : a.Represents d) (hi : a.contains i = true) (hroot : i ≠ rootId) (n : Node) :
    a.Replaces i n (a.replace i n) := by
  obtain ⟨F, rfl, htext, -, hF, -⟩ := h.exists_focus ((h.contains_iff.1 hi).resolve_left hroot)
  rcases hl : Live.plant (L := L) d.next n with ⟨l, next'⟩
  obtain ⟨hnew, hreplace⟩ := Holds.replace hl hF hroot htext
  have hold := hF.perm (F.cells_singleton _)
  have hclosed := hreplace.perm (Live.fan_middle ..)
  refine ⟨F.parent, _, l.id, _, _, F.before.map Live.id, F.after.map Live.id,
    hold.parent?_eq List.mem_cons_self, hold.descendants?_eq, Prod.ext hnew rfl,
    hclosed.node?_plant hl, hclosed.descendants?_eq, ?_, ?_, ?_⟩
  · have hexchanges := hold.exchanges hclosed (next_le_of_mem_fan hl _)
    rw [Live.map_id_fan, Live.map_id_fan] at hexchanges
    exact hexchanges
  · rw [hF.childrenOf_eq List.mem_cons_self]
    exact List.map_append
  · rw [hreplace.childrenOf_eq List.mem_cons_self]
    exact List.map_append

theorem removes (h : a.Represents d) (hi : a.contains i = true) (hroot : i ≠ rootId) :
    a.Removes i (a.remove i) := by
  obtain ⟨F, rfl, -, -, hF, -⟩ := h.exists_focus ((h.contains_iff.1 hi).resolve_left hroot)
  obtain ⟨hdone, hremove⟩ := Holds.remove hF hroot
  have hold := hF.perm (F.cells_singleton _)
  refine ⟨F.parent, _, _, F.before.map Live.id, F.after.map Live.id,
    hold.parent?_eq List.mem_cons_self, hold.descendants?_eq, Prod.ext hdone rfl, ?_, ?_, ?_⟩
  · have hexchanges : a.Exchanges _ _ _ (([] : List (Cell L)).map Cell.id) :=
      hold.exchanges hremove nofun
    rw [Live.map_id_fan] at hexchanges
    exact hexchanges
  · rw [hF.childrenOf_eq List.mem_cons_self]
    exact List.map_append
  · rw [hremove.childrenOf_eq List.mem_cons_self]
    exact List.map_append

theorem insert_of_not_takes (h : a.Represents d) (htakes : ¬ a.Takes p) (index : Nat) (n : Node) :
    a.insert p index n = (none, a) := by
  rcases h.takes_cases p with ⟨k, hk, htext, -⟩ | ⟨-, hfail, -⟩
  · exact absurd ⟨k, hk, htext⟩ htakes
  · exact hfail index n

theorem replace_of_not_below (h : a.Represents d)
    (hi : ¬ (a.contains i = true ∧ i ≠ rootId)) (n : Node) :
    a.replace i n = (none, a) := by
  rcases h.below_cases i with ⟨hroot, F, rfl, -, -, hF, -⟩ | ⟨hparent, -⟩
  · have hcell := hF.perm (F.cells_singleton _)
    exact absurd ⟨hcell.contains_iff.2 List.mem_cons_self, hroot⟩ hi
  · rw [Arena.replace, hparent]

end Represents

theorem remove_of_not_below (a : Arena L) {i : NodeId} (hi : ¬ (a.contains i = true ∧ i ≠ rootId)) :
    a.remove i = (false, a) := by
  rw [not_and_or, not_not, Bool.not_eq_true, or_comm] at hi
  rw [remove, if_pos hi]

/-- In every arena that operations make: a node is put in below another one just if that one is
there and no text, and it is put in at the place that was asked for, or at the end if that place is
beyond it; a node is replaced or removed just if it is there and not the root, together with all
nodes below it; and an operation that fails changes nothing. -/
theorem edits_subtrees (ops : List (Op L)) : ∃ replies a, empty.run ops = some (replies, a) ∧
    (∀ p index n, (a.Takes p ∧ a.Inserts p index n (a.insert p index n)) ∨
      (¬ a.Takes p ∧ a.insert p index n = (none, a))) ∧
    (∀ p n, (a.Takes p ∧ a.Inserts p (a.childrenOf p).length n (a.append p n)) ∨
      (¬ a.Takes p ∧ a.append p n = (none, a))) ∧
    (∀ i n, ((a.contains i = true ∧ i ≠ rootId) ∧ a.Replaces i n (a.replace i n)) ∨
      (¬ (a.contains i = true ∧ i ≠ rootId) ∧ a.replace i n = (none, a))) ∧
    (∀ i, ((a.contains i = true ∧ i ≠ rootId) ∧ a.Removes i (a.remove i)) ∨
      (¬ (a.contains i = true ∧ i ≠ rootId) ∧ a.remove i = (false, a))) := by
  obtain ⟨a, hrun, ha⟩ := represents_empty.run ops
  refine ⟨_, a, hrun, fun p index n => ?_, fun p n => ?_, fun i n => ?_, fun i => ?_⟩
  · by_cases htakes : a.Takes p
    · exact Or.inl ⟨htakes, ha.inserts htakes index n⟩
    · exact Or.inr ⟨htakes, ha.insert_of_not_takes htakes index n⟩
  · by_cases htakes : a.Takes p
    · exact Or.inl ⟨htakes, append_eq a p n ▸ ha.inserts htakes _ n⟩
    · exact Or.inr ⟨htakes, append_eq a p n ▸ ha.insert_of_not_takes htakes _ n⟩
  · by_cases hi : a.contains i = true ∧ i ≠ rootId
    · exact Or.inl ⟨hi, ha.replaces hi.1 hi.2 n⟩
    · exact Or.inr ⟨hi, ha.replace_of_not_below hi n⟩
  · by_cases hi : a.contains i = true ∧ i ≠ rootId
    · exact Or.inl ⟨hi, ha.removes hi.1 hi.2⟩
    · exact Or.inr ⟨hi, remove_of_not_below a hi⟩

end Arena

end LiveMarkup
