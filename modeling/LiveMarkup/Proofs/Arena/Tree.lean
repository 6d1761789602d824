import LiveMarkup.Proofs.Arena.Exchange
import LiveMarkup.Proofs.Arena.WellFormed

/-!
# The tree in a well-formed arena

A walk from the root of a well-formed arena meets all nodes, and it draws the tree that they form:
each node that the walk meets gets the nodes that were drawn for those named in its slot.  So an
arena is well-formed, with all its identities given out, just if it keeps the tree of a document
(`wellFormed_iff_represents`).  What is said of such arenas in the following modules is said of
tables alone.
-/

namespace LiveMarkup

namespace Arena

open Live (fan cellsAll)

variable {L : Type} {a : Arena L} {p i : NodeId}

/-- Whether all identities in an arena were given out, so that none of them is given out again. -/
def Issued (a : Arena L) : Prop := ∀ i, a.contains i = true → i < a.next

/-- Whether the slot of a live node and its listeners are as the node says. -/
structure Draws (a : Arena L) (n : Live L) : Prop where
  kind?_eq : a.kind? n.id = some n.kind
  childrenOf_eq : a.childrenOf n.id = n.children.map Live.id
  listenersOf_eq : a.listenersOf n.id = n.listeners

theorem exists_kind? (hi : a.contains i = true) : ∃ k, a.kind? i = some k := by
  obtain ⟨s, hs⟩ := Option.isSome_iff_exists.1 (contains_iff_isSome.1 hi)
  exact ⟨s.kind, by rw [kind?, hs]; rfl⟩

theorem contains_of_kind? {k : NodeKind} (hk : a.kind? i = some k) : a.contains i = true := by
  obtain ⟨s, hs, -⟩ := Option.map_eq_some_iff.1 hk
  rw [contains_iff_isSome, hs]
  rfl

theorem getElem?_of_kind? {k : NodeKind} (hk : a.kind? i = some k) :
    a.nodes[i]? = some ⟨k, a.parent? i, a.childrenOf i⟩ := by
  obtain ⟨s, hs, rfl⟩ := Option.map_eq_some_iff.1 hk
  rw [parent?, childrenOf, hs]
  rfl

namespace WellFormed

theorem ne_root (h : a.WellFormed) (hi : i ∈ a.childrenOf p) : i ≠ rootId := by
  rintro rfl
  have hparent := (h.live_below p rootId hi).2
  rw [h.parent?_root] at hparent
  cases hparent

/-- Nothing is right below a text. -/
theorem childrenOf_text (h : a.WellFormed) {t : String} (hk : a.kind? i = some (.text t)) :
    a.childrenOf i = [] := by
  refine List.eq_nil_iff_forall_not_mem.2 fun c hc => ?_
  obtain ⟨hin, hparent⟩ := h.live_below i c hc
  obtain ⟨p, k, hp, hkind, htext, -⟩ := h.named_above c hin (h.ne_root hc)
  rw [hparent] at hp
  cases hp
  rw [hk] at hkind
  cases hkind
  cases htext

/-- A node can be drawn when those right below it have been. -/
theorem exists_draws (h : a.WellFormed) (hi : i ∈ a.childrenOf p) {cs : List (Live L)}
    (hcs : cs.map Live.id = a.childrenOf i) : ∃ n, n.id = i ∧ n.children = cs ∧ a.Draws n := by
  obtain ⟨k, hk⟩ := exists_kind? (h.live_below p i hi).1
  cases k with
  | root => exact absurd (h.eq_root i hk) (h.ne_root hi)
  | text t =>
    rw [h.childrenOf_text hk, List.map_eq_nil_iff] at hcs
    subst hcs
    exact ⟨.text i (a.listenersOf i) t, rfl, rfl, hk, h.childrenOf_text hk, rfl⟩
  | element tag as => exact ⟨.element i (a.listenersOf i) tag as cs, rfl, rfl, hk, hcs.symm, rfl⟩

/-- The nodes that a walk meets are drawn as trees. -/
theorem exists_trees (h : a.WellFormed) {steps : Nat} {met stack below : List NodeId}
    (hwalk : a.walk steps met stack = some below) (hstack : ∀ i ∈ stack, ∃ p, i ∈ a.childrenOf p) :
    ∃ ts : List (Live L), ts.map Live.id = stack ∧ below = met ++ (Live.subtrees ts).map Live.id ∧
      ∀ n ∈ Live.subtrees ts, a.Draws n := by
  induction steps generalizing met stack with
  | zero =>
    cases stack with
    | nil =>
      cases hwalk
      exact ⟨[], rfl, by simp, by simp⟩
    | cons i stack => cases hwalk
  | succ steps ih =>
    cases stack with
    | nil =>
      cases hwalk
      exact ⟨[], rfl, by simp, by simp⟩
    | cons i stack =>
      obtain ⟨p, hp⟩ := hstack i List.mem_cons_self
      rw [walk] at hwalk
      obtain ⟨ts, hids, rfl, hdraws⟩ := ih hwalk fun j hj => by
        rcases List.mem_append.1 hj with hj | hj
        · exact ⟨i, hj⟩
        · exact hstack j (List.mem_cons_of_mem _ hj)
      obtain ⟨cs, rest, rfl, hcs, hrest⟩ := List.map_eq_append_iff.1 hids
      obtain ⟨n, rfl, rfl, hn⟩ := h.exists_draws hp hcs
      refine ⟨n :: rest, by rw [List.map_cons, hrest], ?_, ?_⟩
      · simp [Live.subtrees_append, Live.subtree_eq]
      · intro m hm
        rw [Live.subtrees_cons, Live.subtree_eq, List.cons_append, ← Live.subtrees_append] at hm
        rcases List.mem_cons.1 hm with rfl | hm
        · exact hn
        · exact hdraws m hm

/-- All nodes are the root or met by a walk from it. -/
theorem mem_of_reaches (h : a.WellFormed) {ts : List (Live L)}
    (hids : ts.map Live.id = a.childrenOf rootId) (hdraws : ∀ n ∈ Live.subtrees ts, a.Draws n)
    (hi : a.Reaches i) :
    i ∈ rootId :: (Live.subtrees ts).map Live.id := by
  induction hi with
  | root => exact List.mem_cons_self
  | @step i p hparent _ ih =>
    by_cases hroot : i = rootId
    · exact hroot ▸ List.mem_cons_self
    · have hin : a.contains i = true := by
        obtain ⟨s, hs, -⟩ := Option.bind_eq_some_iff.1 hparent
        rw [contains_iff_isSome, hs]
        rfl
      obtain ⟨q, k, hq, -, -, hcount⟩ := h.named_above i hin hroot
      rw [hparent] at hq
      cases hq
      have hmem : i ∈ a.childrenOf p := List.count_pos_iff.1 (by omega)
      refine List.mem_cons_of_mem _ ?_
      rcases List.mem_cons.1 ih with rfl | hp
      · rw [← hids] at hmem
        exact ((Live.sublist_subtrees ts).map Live.id).subset hmem
      · obtain ⟨m, hm, rfl⟩ := List.mem_map.1 hp
        rw [(hdraws m hm).childrenOf_eq] at hmem
        obtain ⟨n, hn, rfl⟩ := List.mem_map.1 hmem
        exact List.mem_map_of_mem (Live.mem_subtrees_of_mem_children hm hn)

/-- A drawn node that hangs from another one is named there. -/
theorem parent?_of_hangs (h : a.WellFormed) {ts : List (Live L)}
    (hids : ts.map Live.id = a.childrenOf rootId) (hdraws : ∀ n ∈ Live.subtrees ts, a.Draws n)
    {n : Live L} (hn : Live.Hangs rootId ts p n) :
    a.parent? n.id = some p := by
  refine (h.live_below p n.id ?_).2
  cases hn with
  | top hn =>
    rw [← hids]
    exact List.mem_map_of_mem hn
  | @step q m _ hm hl =>
    rw [(hdraws m (hm.subtree_sublist.subset (Live.mem_subtree_self m))).childrenOf_eq]
    exact List.mem_map_of_mem hl

/-- A well-formed arena keeps the tree of a document. -/
theorem exists_represents (h : a.WellFormed) (hissued : a.Issued) : ∃ d : Document L,
    a.Represents d := by
  obtain ⟨below, hwalk, hnodup, -⟩ := h.size_eq
  obtain ⟨ts, hids, rfl, hdraws⟩ := h.exists_trees hwalk fun i hi => ⟨rootId, hi⟩
  have hroot : rootId ∉ (Live.subtrees ts).map Live.id := by
    intro hmem
    obtain ⟨n, hn, hid⟩ := List.mem_map.1 hmem
    have hkind := (hdraws n hn).kind?_eq
    rw [hid, h.kind?_root] at hkind
    cases n <;> cases hkind
  have hcells : (Document.cells ⟨a.listenersOf rootId, ts, a.next⟩).map Cell.id =
      rootId :: (Live.subtrees ts).map Live.id := Document.map_id_cells _
  refine ⟨⟨a.listenersOf rootId, ts, a.next⟩, rfl, ?_, fun c hc => ?_, fun i hi => ?_⟩
  · rw [hcells]
    exact List.nodup_cons.2 ⟨hroot, hnodup⟩
  · rcases List.mem_cons.1 hc with rfl | hc
    · refine ⟨hissued _ (contains_of_kind? h.kind?_root),
        (getElem?_of_kind? h.kind?_root).trans ?_, rfl⟩
      rw [h.parent?_root, ← hids]
    · obtain ⟨p, n, hn, rfl⟩ := Live.exists_hangs rootId ts hc
      have hdraw := hdraws n (hn.subtree_sublist.subset (Live.mem_subtree_self n))
      refine ⟨hissued _ (contains_of_kind? hdraw.kind?_eq),
        (getElem?_of_kind? hdraw.kind?_eq).trans ?_, hdraw.listenersOf_eq⟩
      rw [h.parent?_of_hangs hids hdraws hn, hdraw.childrenOf_eq]
      rfl
  · rw [hcells] at hi
    have hnot : ¬ a.contains i = true :=
      fun hin => hi (h.mem_of_reaches hids hdraws (h.reaches_root i hin))
    refine ⟨?_, ?_⟩
    · rwa [contains_iff_isSome, Option.not_isSome_iff_eq_none] at hnot
    · rw [← Option.not_isSome_iff_eq_none, ← Std.TreeMap.mem_iff_isSome_getElem?]
      exact fun hls => hnot (h.live_of_listeners i hls)

end WellFormed

theorem Represents.issued {d : Document L} (h : a.Represents d) : a.Issued := by
  intro i hi
  obtain ⟨c, hc, rfl⟩ := List.mem_map.1 ((Holds.contains_iff h).1 hi)
  rw [Holds.next_eq h]
  exact (Holds.mem h c hc).1

/-- The arenas that keep the tree of a document are just those that are well-formed, with all their
identities given out. -/
theorem wellFormed_iff_represents : (a.WellFormed ∧ a.Issued) ↔ ∃ d : Document L, a.Represents d :=
  ⟨fun h => h.1.exists_represents h.2, fun ⟨_, h⟩ => ⟨h.wellFormed, h.issued⟩⟩

/-- Every run of operations on the empty arena leaves one that is well-formed, with all its
identities given out. -/
theorem issued_run (ops : List (Op L)) :
    ∃ replies a, empty.run ops = some (replies, a) ∧ a.WellFormed ∧ a.Issued := by
  obtain ⟨a, hrun, ha⟩ := represents_empty.run ops
  exact ⟨_, a, hrun, ha.wellFormed, ha.issued⟩

/-! ### The nodes right below a node -/

/-- The contents of the nodes right below a node. -/
def nodesOf? (a : Arena L) (i : NodeId) : Option (List Node) := (a.childrenOf i).mapM fun c =>
    (a.node? c).join

theorem mapM_join {α β : Type} {f : α → Option (Option β)} {xs : List α} {ys : List β}
    (h : xs.mapM f = some (ys.map some)) : xs.mapM (fun x => (f x).join) = some ys := by
  induction xs generalizing ys with
  | nil =>
    cases ys with
    | nil => rfl
    | cons y ys => cases h
  | cons x xs ih =>
    rw [List.mapM_cons] at h
    obtain ⟨y?, hy, h⟩ := Option.bind_eq_some_iff.1 h
    obtain ⟨ys?, hys, h⟩ := Option.bind_eq_some_iff.1 h
    cases ys with
    | nil => cases h
    | cons y ys =>
      cases h
      rw [List.mapM_cons, hy, ih hys]
      rfl

variable {next : NodeId} {k : NodeKind} {q : Option NodeId} {ls : Listeners L} {ts : List (Live L)}
  {rest : List (Cell L)}

theorem Holds.nodesOf?_eq (h : a.Holds next (fan p k q ls ts ++ rest)) :
    a.nodesOf? p = some (Live.nodes ts) := by
  have hchildren : a.childrenOf p = ts.map Live.id := h.childrenOf_eq List.mem_cons_self
  rw [nodesOf?, hchildren]
  exact mapM_join
    (h.nodesWithin_eq p ts (List.subset_cons_of_subset _ (List.subset_append_left _ _))
    (Nat.le_of_lt h.length_lt_size))

/-- A well-formed arena can be opened at a node that may have others right below it. -/
theorem WellFormed.exists_fan (h : a.WellFormed) (hissued : a.Issued) (htakes : a.Takes p) :
    ∃ k q ls ts rest, k.isText = false ∧ rootId ∉ (Live.subtrees ts).map Live.id ∧
      a.Holds a.next (fan p k q ls ts ++ rest) := by
  obtain ⟨d, hd⟩ := h.exists_represents hissued
  obtain ⟨k, hk, htext⟩ := htakes
  obtain ⟨q, ls, rest, hopen, -⟩ := hd.exists_fan hk htext
  rw [Holds.next_eq hd]
  exact ⟨k, q, ls, d.childrenOf p, rest, htext, hd.root_not_mem hopen, hopen⟩

/-- Nodes are patched below the node that an arena is opened at, and nothing else is. -/
theorem Holds.reconcile (h : a.Holds next (fan p k q ls ts ++ rest)) (hk : k.isText = false)
    (hroot : rootId ∉ (Live.subtrees ts).map Live.id) (new : List Node) :
    (a.reconcile p new).1 = (Live.patchAll next ts new).2.2 ∧
      (a.reconcile p new).2.Holds (Live.patchAll next ts new).2.1
        (fan p k q ls (Live.patchAll next ts new).1 ++ rest) := by
  have hchildren : a.childrenOf p = ts.map Live.id := h.childrenOf_eq List.mem_cons_self
  rw [Arena.reconcile, hchildren]
  exact Holds.patchEach hk [] ts new rfl hroot h

end Arena

end LiveMarkup
