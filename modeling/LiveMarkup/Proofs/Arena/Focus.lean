import LiveMarkup.Proofs.Arena.Cells

/-!
# Trees opened around a node

`Live.editIn` looks for a node through a whole tree, while a step of an arena goes to its cell at
once.  A `Live.Focus` is the tree as such a step sees it: the node above with its children, and all
other cells apart.  `Document.exists_focus` opens the tree of a document around a node, for all
edits of the node at the same time: what is put in its place goes among the children of the node
above, and the other cells stay the same.
-/

namespace LiveMarkup

namespace Live

variable {L : Type}

/-! ### Editing -/

mutual

theorem edit_of_not_mem {i : NodeId} (f : Live L → List (Live L)) :
    (l : Live L) → i ∉ l.ids → l.edit i f = [l]
  | text j ls t, h => by
    rw [edit, if_neg fun e => h (by simp [ids, id, e])]
  | element j ls tag as cs, h => by
    rw [ids, subtree_element, List.map_cons, List.mem_cons, not_or] at h
    have hj : j ≠ i := Ne.symm h.1
    rw [edit, if_neg hj, editIn_of_not_mem f cs h.2]

theorem editIn_of_not_mem {i : NodeId} (f : Live L → List (Live L)) :
    (ls : List (Live L)) → i ∉ (subtrees ls).map id → editIn i f ls = ls
  | [], _ => rfl
  | l :: ls, h => by
    rw [subtrees_cons, List.map_append, List.mem_append, not_or] at h
    rw [editIn, edit_of_not_mem f l h.1, editIn_of_not_mem f ls h.2, List.singleton_append]

end

mutual

/-- A node may be put in its own place. -/
theorem edit_self (i : NodeId) : (l : Live L) → (l.edit i fun n => [n]) = [l]
  | text j ls t => by
    rw [edit, ite_self]
  | element j ls tag as cs => by
    rw [edit, editIn_self i cs, ite_self]

theorem editIn_self (i : NodeId) : (ls : List (Live L)) → (editIn i (fun n => [n]) ls) = ls
  | [] => rfl
  | l :: ls => by rw [editIn, edit_self i l, editIn_self i ls, List.singleton_append]

end

theorem edit_self_id (f : Live L → List (Live L)) : (l : Live L) → l.edit l.id f = f l
  | text .. => if_pos rfl
  | element .. => if_pos rfl

/-- A tree opened around a node: the node above it with its kind, the one above that and its
listeners, the nodes beside it, and the cells of all nodes that are neither above nor beside nor
below it. -/
structure Focus (L : Type) where
  parent : NodeId
  kind : NodeKind
  above : Option NodeId
  listeners : Listeners L
  before : List (Live L)
  node : Live L
  after : List (Live L)
  rest : List (Cell L)

/-- The cells of the tree with other nodes in the place of the one that it is opened around. -/
def Focus.cells (F : Focus L) (ns : List (Live L)) : List (Cell L) :=
  fan F.parent F.kind F.above F.listeners (F.before ++ (ns ++ F.after)) ++ F.rest

/-- The cells of the tree without those of a node in the place that it is opened at and of all nodes
below it. -/
def Focus.beside (F : Focus L) (i : NodeId) : List (Cell L) :=
  Live.beside F.parent F.kind F.above F.listeners F.before i F.after F.rest

theorem Focus.cells_singleton (F : Focus L) (n : Live L) :
    (F.cells [n]).Perm (fan n.id n.kind (some F.parent) n.listeners n.children ++ F.beside n.id) :=
  fan_middle ..

/-- The focus in a tree with more cells. -/
def Focus.extend (F : Focus L) (cs : List (Cell L)) : Focus L := { F with rest := F.rest ++ cs }

theorem Focus.cells_extend (F : Focus L) (cs : List (Cell L)) (ns : List (Live L)) :
    (F.extend cs).cells ns = F.cells ns ++ cs := (List.append_assoc ..).symm

mutual

/-- A node with another one somewhere below it can be opened around that one. -/
theorem exists_focus_below (parent i : NodeId) : (l : Live L) → l.ids.Nodup → i ∈ l.ids → l.id ≠ i →
    ∃ F : Focus L, F.node.id = i ∧ F.kind.isText = false ∧ F.node ∈ l.subtree ∧
      ∀ f, ∃ l', l.edit i f = [l'] ∧ l'.id = l.id ∧ (l'.cells parent).Perm (F.cells (f F.node))
  | text j ls t, _, hmem, hne => absurd (List.mem_singleton.1 hmem).symm hne
  | element j ls tag as cs, hnd, hmem, hne => by
    have hnd' : ((subtrees cs).map id).Nodup := (List.nodup_cons.1 hnd).2
    have hmem' : i ∈ (subtrees cs).map id := (List.mem_cons.1 hmem).resolve_left (Ne.symm hne)
    have hedit : ∀ f, (element j ls tag as cs).edit i f = [element j ls tag as (editIn i f cs)] :=
      fun f => if_neg hne
    rcases exists_focus_in j i cs hnd' hmem' with
      ⟨before, n, after, hid, hcs, hf⟩ | ⟨F, hid, hk, hn, hf⟩
    · refine ⟨⟨j, .element tag as, some parent, ls, before, n, after, []⟩, hid, rfl, ?_,
        fun f => ⟨_, hedit f, rfl, ?_⟩⟩
      · exact List.mem_cons_of_mem _ (mem_subtrees_of_mem (by simp [hcs]))
      · rw [hf f]
        simp [Focus.cells, cells_eq_fan, id, kind, listeners, children]
    · refine ⟨F.extend [⟨j, ⟨.element tag as, some parent, cs.map id⟩, ls⟩], hid, hk,
        List.mem_cons_of_mem _ hn, fun f => ⟨_, hedit f, rfl, ?_⟩⟩
      obtain ⟨hids, hperm⟩ := hf f
      rw [Focus.cells_extend, cells, hids]
      exact (hperm.cons _).trans (List.perm_append_singleton _ _).symm

/-- One of several trees that has a node is that node, or can be opened around it. -/
theorem exists_focus_in (parent i : NodeId) : (cs : List (Live L)) → ((subtrees cs).map id).Nodup →
    i ∈ (subtrees cs).map id →
    (∃ before n after, n.id = i ∧ cs = before ++ n :: after ∧
      ∀ f, editIn i f cs = before ++ (f n ++ after)) ∨
      ∃ F : Focus L, F.node.id = i ∧ F.kind.isText = false ∧ F.node ∈ subtrees cs ∧
        ∀ f, (editIn i f cs).map id = cs.map id ∧ (cellsAll parent (editIn i f cs)).Perm
          (F.cells (f F.node))
  | [], _, hmem => by cases hmem
  | l :: ls, hnd, hmem => by
    rw [subtrees_cons, List.map_append] at hnd hmem
    obtain ⟨hndl, hndls, hdisj⟩ := List.nodup_append.1 hnd
    by_cases hl : i ∈ l.ids
    · have hls : i ∉ (subtrees ls).map id := fun h => hdisj i hl i h rfl
      have hedit : ∀ f, editIn i f (l :: ls) = l.edit i f ++ ls := fun f => by
        rw [editIn, editIn_of_not_mem f ls hls]
      by_cases hli : l.id = i
      · subst hli
        exact Or.inl ⟨[], l, ls, rfl, rfl, fun f => by rw [hedit, edit_self_id]; rfl⟩
      · obtain ⟨F, hid, hk, hn, hf⟩ := exists_focus_below parent i l hndl hl hli
        refine Or.inr ⟨F.extend (cellsAll parent ls), hid, hk, ?_, fun f => ?_⟩
        · rw [subtrees_cons]
          exact List.mem_append_left _ hn
        · obtain ⟨l', hl', hid', hperm⟩ := hf f
          rw [hedit, hl', List.singleton_append, List.map_cons, List.map_cons, hid', cellsAll,
            Focus.cells_extend]
          exact ⟨rfl, hperm.append_right _⟩
    · have hls : i ∈ (subtrees ls).map id := (List.mem_append.1 hmem).resolve_left hl
      have hedit : ∀ f, editIn i f (l :: ls) = l :: editIn i f ls := fun f => by
        rw [editIn, edit_of_not_mem f l hl, List.singleton_append]
      rcases exists_focus_in parent i ls hndls hls with
        ⟨before, n, after, hid, hcs, hf⟩ | ⟨F, hid, hk, hn, hf⟩
      · exact Or.inl ⟨l :: before, n, after, hid, by rw [hcs, List.cons_append],
          fun f => by rw [hedit, hf]; rfl⟩
      · refine Or.inr ⟨F.extend (l.cells parent), hid, hk, ?_, fun f => ?_⟩
        · rw [subtrees_cons]
          exact List.mem_append_right _ hn
        · obtain ⟨hids, hperm⟩ := hf f
          rw [hedit, List.map_cons, List.map_cons, hids, cellsAll, Focus.cells_extend]
          exact ⟨rfl, (hperm.append_left _).trans List.perm_append_comm⟩

end

end Live

/-! ### Documents -/

namespace Document

variable {L : Type} (d : Document L)

/-- The cells of the root and of all nodes below it. -/
def cells : List (Cell L) := Live.fan rootId .root none d.listeners d.children

theorem map_id_cells : d.cells.map Cell.id = rootId :: d.ids := Live.map_id_fan ..

theorem edit_self (i : NodeId) : (d.edit i fun n => [n]) = d := by
  rw [edit, Live.editIn_self]

variable {d} {i : NodeId}

/-- The tree of a document can be opened around every node in it. -/
theorem exists_focus (hnd : d.ids.Nodup) (hi : i ∈ d.ids) :
    ∃ F : Live.Focus L, F.node.id = i ∧ F.kind.isText = false ∧ F.node ∈ Live.subtrees d.children ∧
      ∀ f, (d.edit i f).cells.Perm (F.cells (f F.node)) := by
  rcases Live.exists_focus_in rootId i d.children hnd hi with
    ⟨before, n, after, hid, hcs, hf⟩ | ⟨F, hid, hk, hn, hf⟩
  · refine ⟨⟨rootId, .root, none, d.listeners, before, n, after, []⟩, hid, rfl, ?_, fun f => ?_⟩
    · exact Live.mem_subtrees_of_mem (by simp [hcs])
    · rw [cells, edit, hf f]
      simp [Live.Focus.cells]
  · refine ⟨F.extend [⟨rootId, ⟨.root, none, d.children.map Live.id⟩, d.listeners⟩], hid, hk,
      hn, fun f => ?_⟩
    obtain ⟨hids, hperm⟩ := hf f
    rw [Live.Focus.cells_extend, cells, Live.fan, edit, hids]
    exact (hperm.cons _).trans (List.perm_append_singleton _ _).symm

end Document

end LiveMarkup
