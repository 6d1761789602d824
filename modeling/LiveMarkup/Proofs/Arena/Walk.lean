import LiveMarkup.Proofs.Arena.Edits

/-!
# Walks over cells

Where an arena has the cells of a tree, its walks end, because there are as many slots as nodes.
`Holds.descendants?_eq` says that `Arena.descendants?` meets the nodes below a node in preorder, and
`Holds.node?_eq` that `Arena.node?` reads the content of a node back.
-/

namespace LiveMarkup

namespace Arena

namespace Holds

open Live (fan cellsAll)

variable {L : Type} {a : Arena L} {next : NodeId} {cs : List (Cell L)}

/-! ### Identities -/

mutual

/-- A node on the stack is met with all nodes below it before the stack is looked at again. -/
theorem walk_cells (h : a.Holds next cs) (parent : NodeId) (steps : Nat)
    (met stack : List NodeId) : (l : Live L) →
    l.cells parent ⊆ cs →
      a.walk (steps + l.subtree.length) met (l.id :: stack) = a.walk steps (met ++ l.ids) stack
  | .text i ls t, hsub => by
    have hchildren : a.childrenOf i = [] := h.childrenOf_eq (hsub List.mem_cons_self)
    rw [Live.subtree_text, List.length_singleton, Live.id, walk, hchildren]
    rfl
  | .element i ls tag as ts, hsub => by
    have hchildren : a.childrenOf i = ts.map Live.id := h.childrenOf_eq (hsub List.mem_cons_self)
    rw [Live.subtree_element, List.length_cons, ← Nat.add_assoc, Live.id, walk, hchildren,
      walk_cellsAll h i steps _ stack ts (List.subset_of_cons_subset hsub), List.append_assoc]
    rfl

theorem walk_cellsAll (h : a.Holds next cs) (parent : NodeId) (steps : Nat)
    (met stack : List NodeId) :
    (ts : List (Live L)) → cellsAll parent ts ⊆ cs →
      a.walk (steps + (Live.subtrees ts).length) met (ts.map Live.id ++ stack) =
        a.walk steps (met ++ (Live.subtrees ts).map Live.id) stack
  | [], _ => by
    rw [Live.subtrees_nil, List.map_nil, List.append_nil]
    rfl
  | t :: ts, hsub => by
    rw [cellsAll, List.append_subset] at hsub
    have hlength : steps + (t.subtree ++ Live.subtrees ts).length =
        steps + (Live.subtrees ts).length + t.subtree.length := by
      rw [List.length_append]
      omega
    rw [Live.subtrees_cons, hlength, List.map_cons, List.cons_append,
      walk_cells h parent _ met _ t hsub.1, walk_cellsAll h parent steps _ stack ts hsub.2,
      List.map_append, List.append_assoc, Live.ids]

end

variable {i p : NodeId} {k : NodeKind} {q : Option NodeId} {ls : Listeners L} {ts : List (Live L)}
  {rest : List (Cell L)}

theorem length_lt_size (h : a.Holds next (fan i k q ls ts ++ rest)) :
    (Live.subtrees ts).length < a.size := by
  rw [h.size_eq, fan, List.cons_append, List.length_cons, List.length_append, Live.length_cellsAll]
  omega

/-- The nodes below a node are met in preorder. -/
theorem descendants?_eq (h : a.Holds next (fan i k q ls ts ++ rest)) :
    a.descendants? i = some ((Live.subtrees ts).map Live.id) := by
  have hchildren : a.childrenOf i = ts.map Live.id := h.childrenOf_eq List.mem_cons_self
  obtain ⟨steps, hsteps⟩ := Nat.exists_eq_add_of_le' (Nat.le_of_lt h.length_lt_size)
  have hwalk := h.walk_cellsAll i steps [] [] ts
    (List.subset_cons_of_subset _ (List.subset_append_left _ _))
  rw [List.append_nil, ← hsteps] at hwalk
  rw [descendants?, hchildren, hwalk, walk]
  rfl

/-! ### Contents -/

mutual

theorem nodeWithin?_eq (h : a.Holds next cs) (parent : NodeId) : (l : Live L) → {depth : Nat} →
    l.cells parent ⊆ cs → l.subtree.length ≤ depth → a.nodeWithin? depth l.id = some (some l.node)
  | .text i ls t, depth, hsub, hdepth => by
    have hkind : a.kind? i = some (.text t) := h.kind?_eq (hsub List.mem_cons_self)
    obtain ⟨depth, rfl⟩ := Nat.exists_eq_add_of_le' hdepth
    rw [Live.subtree_text, List.length_singleton, Live.id, nodeWithin?, hkind]
    rfl
  | .element i ls tag as ts, depth, hsub, hdepth => by
    have hcell := hsub List.mem_cons_self
    have hkind : a.kind? i = some (.element tag as) := h.kind?_eq hcell
    have hchildren : a.childrenOf i = ts.map Live.id := h.childrenOf_eq hcell
    obtain ⟨depth, rfl⟩ := Nat.exists_eq_add_of_le' (Nat.le_of_add_left_le hdepth)
    rw [Live.id, nodeWithin?, hkind, hchildren]
    dsimp only
    rw [nodesWithin_eq h i ts (List.subset_of_cons_subset hsub) (Nat.le_of_succ_le_succ hdepth)]
    simp [Live.node, List.filterMap_map]

/-- The contents of several nodes are read back. -/
theorem nodesWithin_eq (h : a.Holds next cs) (parent : NodeId) :
    (ts : List (Live L)) → {depth : Nat} →
    cellsAll parent ts ⊆ cs → (Live.subtrees ts).length ≤ depth →
      (ts.map Live.id).mapM (a.nodeWithin? depth) = some ((Live.nodes ts).map some)
  | [], _, _, _ => rfl
  | t :: ts, depth, hsub, hdepth => by
    rw [cellsAll, List.append_subset] at hsub
    rw [Live.subtrees_cons, List.length_append] at hdepth
    rw [List.map_cons, List.mapM_cons,
      nodeWithin?_eq h parent t hsub.1 (Nat.le_of_add_right_le hdepth),
      nodesWithin_eq h parent ts hsub.2 (Nat.le_of_add_left_le hdepth)]
    rfl

end

/-- The content of a node is read back. -/
theorem node?_eq {l : Live L}
    (h : a.Holds next (fan l.id l.kind (some p) l.listeners l.children ++ rest)) :
    a.node? l.id = some (some l.node) := by
  have hlength : l.subtree.length ≤ a.size := by
    have hlt := h.length_lt_size
    cases l <;> exact hlt
  rw [← Live.cells_eq_fan] at h
  exact h.nodeWithin?_eq p l (List.subset_append_left _ _) hlength

end Holds

end Arena

end LiveMarkup
