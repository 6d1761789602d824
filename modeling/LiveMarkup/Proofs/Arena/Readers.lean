import LiveMarkup.Markup.Reference
import LiveMarkup.Proofs.Arena.Reconcile
import Mathlib.Logic.Relation

/-!
# Reading an arena

All that is read from an arena follows identities from slot to slot.  Where the arena represents a
document, each reader answers as that of the document, which goes through nodes inside one another,
for whatever identity it is asked (`Represents.descendants?_eq`, `Represents.textContent?_eq`,
`Represents.outerHtml?_eq` and so on).  So what is read is the tree that the slots draw
(`Arena.Shows`): `reads_as_tree` says that a node that was put in is read back, that a walk meets
the nodes below a node in preorder, and that the elements with a tag and the text of a node are
those of its tree.
-/

namespace LiveMarkup

namespace Node

mutual

/-- The text of a node, or that of the nodes right below it, one after the other. -/
def textContent : Node → String
  | text t => t
  | element _ _ children => textContentAll children

/-- The text of several nodes, one after the other. -/
def textContentAll : List Node → String
  | [] => ""
  | n :: ns => n.textContent ++ textContentAll ns

end

end Node

namespace Live

variable {L : Type}

mutual

theorem join_text?_subtree :
    (l : Live L) → String.join (l.subtree.filterMap text?) = l.node.textContent
  | text i ls t => by simp [text?, node, Node.textContent]
  | element i ls tag as cs => by
    rw [subtree_element, List.filterMap_cons_none rfl, join_text?_subtrees cs, node,
      Node.textContent]

/-- The texts met in preorder are those met by going down each tree. -/
theorem join_text?_subtrees : (ts : List (Live L)) →
    String.join ((subtrees ts).filterMap text?) = Node.textContentAll (nodes ts)
  | [] => rfl
  | t :: ts => by
    rw [subtrees_cons, List.filterMap_append, String.join_append, join_text?_subtree t,
      join_text?_subtrees ts, nodes, Node.textContentAll]

end

end Live

namespace Arena

open Live (fan cellsAll)

variable {L : Type} {a : Arena L} {d : Document L} {i j p : NodeId}
  {ts : List (Live L)} {n : Live L}

/-! ### Nodes that are drawn -/

namespace Draws

theorem tag?_eq (h : a.Draws n) : a.tag? n.id = n.tag? := by
  rw [tag?, h.kind?_eq]
  cases n <;> rfl

theorem text?_eq (h : a.Draws n) : a.text? n.id = n.text? := by
  rw [text?, h.kind?_eq]
  cases n <;> rfl

end Draws

theorem Holds.draws {next : NodeId} {cs : List (Cell L)} (h : a.Holds next cs)
    (hsub : cellsAll p ts ⊆ cs) (hn : n ∈ Live.subtrees ts) : a.Draws n := by
  obtain ⟨q, hcell⟩ := Live.exists_mem_cellsAll p ts hn
  exact ⟨h.kind?_eq (hsub hcell), h.childrenOf_eq (hsub hcell), (h.mem _ (hsub hcell)).2.2⟩

/-! ### Readers of arenas and documents -/

namespace Represents

/-- The tree can be opened at each of its nodes. -/
theorem exists_open (h : a.Represents d) (hi : a.contains i = true) :
    ∃ k q ls rest, a.Holds d.next (fan i k q ls (d.childrenOf i) ++ rest) := by
  by_cases hroot : i = rootId
  · subst hroot
    refine ⟨.root, none, d.listeners, [], ?_⟩
    rw [List.append_nil]
    exact h
  · obtain ⟨F, rfl, -, hfind, hF, -⟩ := h.exists_focus ((h.contains_iff.1 hi).resolve_left hroot)
    have hchildren : d.childrenOf F.node.id = F.node.children := by
      rw [Document.childrenOf, if_neg hroot, hfind]
      rfl
    rw [hchildren]
    exact ⟨_, _, _, _, hF.perm (F.cells_singleton _)⟩

/-- Nothing is below a node that is not there. -/
theorem childrenOf_of_gone (h : a.Represents d) (hi : ¬ a.contains i = true) :
    a.kind? i = none ∧ a.childrenOf i = [] ∧ d.childrenOf i = [] := by
  rw [h.contains_iff, not_or] at hi
  obtain ⟨hslot, hfind⟩ := h.of_not_mem hi.1 hi.2
  refine ⟨?_, ?_, ?_⟩
  · rw [kind?, hslot]
    rfl
  · rw [Arena.childrenOf, hslot]
    rfl
  · rw [Document.childrenOf, if_neg hi.1, hfind]
    rfl

theorem childrenOf_eq (h : a.Represents d) (i : NodeId) :
    a.childrenOf i = (d.childrenOf i).map Live.id := by
  by_cases hi : a.contains i = true
  · obtain ⟨k, q, ls, rest, hopen⟩ := h.exists_open hi
    exact hopen.childrenOf_eq List.mem_cons_self
  · obtain ⟨-, hchildren, hnone⟩ := h.childrenOf_of_gone hi
    rw [hchildren, hnone]
    rfl

theorem draws (h : a.Represents d) (i : NodeId) (hn : n ∈ Live.subtrees (d.childrenOf i)) :
    a.Draws n := by
  by_cases hi : a.contains i = true
  · obtain ⟨k, q, ls, rest, hopen⟩ := h.exists_open hi
    exact hopen.draws (List.subset_cons_of_subset _ (List.subset_append_left _ _)) hn
  · rw [(h.childrenOf_of_gone hi).2.2] at hn
    cases hn

theorem descendants?_eq (h : a.Represents d) (i : NodeId) :
    a.descendants? i = some (d.descendants i) := by
  by_cases hi : a.contains i = true
  · obtain ⟨k, q, ls, rest, hopen⟩ := h.exists_open hi
    exact hopen.descendants?_eq
  · obtain ⟨-, hchildren, hnone⟩ := h.childrenOf_of_gone hi
    rw [descendants?, hchildren, walk, Document.descendants, hnone]
    rfl

theorem elementsByTag?_eq (h : a.Represents d) (tag : String) :
    a.elementsByTag? tag = some (d.elementsByTag tag) := by
  have hroot : d.childrenOf rootId = d.children := if_pos rfl
  have htag : ∀ n ∈ Live.subtrees d.children, (a.tag? n.id == some tag) = (n.tag? == some tag) := by
    intro n hn
    rw [(h.draws rootId (hroot ▸ hn)).tag?_eq]
  rw [elementsByTag?, h.descendants?_eq, Option.map_some, Document.descendants, hroot,
    List.filter_map, Document.elementsByTag]
  exact congrArg (fun ns => some (ns.map Live.id)) (List.filter_congr htag)

theorem textContent?_eq (h : a.Represents d) (i : NodeId) :
    a.textContent? i = some (d.textContent i) := by
  have hbelow :
    (d.descendants i).filterMap a.text? =
      (Live.subtrees (d.childrenOf i)).filterMap Live.text? := by
    rw [Document.descendants, List.filterMap_map]
    exact List.filterMap_congr fun n hn => (h.draws i hn).text?_eq
  have htext : d.text? i = a.text? i := h.text?_eq
  rw [textContent?, Document.textContent, htext, h.descendants?_eq, Option.map_some, hbelow]
  cases a.text? i <;> rfl

theorem node?_eq (h : a.Represents d) (i : NodeId) : a.node? i = some (d.node? i) := by
  have hsize : a.size = (cellsAll rootId d.children).length + 1 := Holds.size_eq h
  by_cases hroot : i = rootId
  · rw [node?, hsize, nodeWithin?, hroot, h.kind?_root, Document.node?, if_pos rfl]
  · rw [Document.node?, if_neg hroot]
    by_cases hi : i ∈ d.ids
    · obtain ⟨F, rfl, -, hfind, hF, -⟩ := h.exists_focus hi
      rw [hfind]
      exact (hF.perm (F.cells_singleton _)).node?_eq
    · obtain ⟨hslot, hfind⟩ := h.of_not_mem hroot hi
      rw [node?, hsize, nodeWithin?, kind?, hslot, hfind]
      rfl

/-- The contents of the nodes right below a node are read one by one. -/
theorem mapM_node?_eq (h : a.Represents d) (i : NodeId) :
    (a.childrenOf i).mapM a.node? = some ((d.nodesOf i).map some) := by
  by_cases hi : a.contains i = true
  · obtain ⟨k, q, ls, rest, hopen⟩ := h.exists_open hi
    rw [h.childrenOf_eq]
    exact hopen.nodesWithin_eq i _ (List.subset_cons_of_subset _ (List.subset_append_left _ _))
      (Nat.le_of_lt hopen.length_lt_size)
  · obtain ⟨-, hchildren, hnone⟩ := h.childrenOf_of_gone hi
    rw [hchildren, Document.nodesOf, hnone]
    rfl

theorem nodesOf?_eq (h : a.Represents d) (i : NodeId) : a.nodesOf? i = some (d.nodesOf i) :=
  mapM_join (h.mapM_node?_eq i)

theorem innerHtml?_eq [EntityCodec] (h : a.Represents d) (i : NodeId) :
    a.innerHtml? i = some (d.innerHtml i) := by
  have htag : d.tag? i = a.tag? i := h.tag?_eq
  rw [innerHtml?, h.mapM_node?_eq, Option.map_some, Document.innerHtml, htag]
  simp

theorem outerHtml?_eq [EntityCodec] (h : a.Represents d) (i : NodeId) :
    a.outerHtml? i = some (d.outerHtml i) := by
  rw [outerHtml?, Document.outerHtml]
  by_cases hroot : i = rootId
  · rw [if_pos hroot, hroot, h.kind?_root]
    exact h.innerHtml?_eq rootId
  · rw [if_neg hroot, h.node?_eq]
    rcases hk : a.kind? i with _ | ⟨_ | ⟨tag, as⟩ | t⟩
    case some.root => exact absurd (h.eq_root hk) hroot
    all_goals rfl

end Represents

/-! ### The tree below a node -/

/-- Whether trees hang below a node: it names their tops, and each node in them is drawn by its
slot. -/
structure Shows (a : Arena L) (i : NodeId) (ts : List (Live L)) : Prop where
  childrenOf_eq : a.childrenOf i = ts.map Live.id
  draws : ∀ n ∈ Live.subtrees ts, a.Draws n

/-- Whether a node is somewhere below another one. -/
def Below (a : Arena L) (i j : NodeId) : Prop :=
  Relation.TransGen (fun p c => c ∈ a.childrenOf p) i j

namespace Shows

theorem below_of_hangs (h : a.Shows i ts) (hn : Live.Hangs i ts p n) : a.Below i n.id := by
  induction hn with
  | top hn =>
    refine .single ?_
    rw [h.childrenOf_eq]
    exact List.mem_map_of_mem hn
  | @step q m l hm hl ih =>
    have hm' : m ∈ Live.subtrees ts := hm.subtree_sublist.subset (Live.mem_subtree_self m)
    refine .tail ih ?_
    rw [(h.draws m hm').childrenOf_eq]
    exact List.mem_map_of_mem hl

/-- The nodes in the trees that hang below a node are those that can be reached from it. -/
theorem mem_iff_below (h : a.Shows i ts) : j ∈ (Live.subtrees ts).map Live.id ↔ a.Below i j := by
  constructor
  · intro hj
    obtain ⟨n, hn, rfl⟩ := List.mem_map.1 hj
    obtain ⟨q, hcell⟩ := Live.exists_mem_cellsAll i ts hn
    obtain ⟨p, m, hm, hc⟩ := Live.exists_hangs i ts hcell
    have hid : n.id = m.id := congrArg Cell.id hc
    rw [hid]
    exact h.below_of_hangs hm
  · -- a node that is reached is drawn, and so is each node that its slot names
    intro hj
    induction hj with
    | single hj =>
      rw [h.childrenOf_eq] at hj
      exact ((Live.sublist_subtrees ts).map Live.id).subset hj
    | tail _ hj ih =>
      obtain ⟨m, hm, rfl⟩ := List.mem_map.1 ih
      rw [(h.draws m hm).childrenOf_eq] at hj
      obtain ⟨n, hn, rfl⟩ := List.mem_map.1 hj
      exact List.mem_map_of_mem (Live.mem_subtrees_of_mem_children hm hn)

end Shows

mutual

/-- A slot can be drawn in one way only. -/
theorem eq_of_draws : (l l' : Live L) → l.id = l'.id → (∀ n ∈ l.subtree, a.Draws n) →
    (∀ n ∈ l'.subtree, a.Draws n) →
    l = l'
  | l, l', hid, h, h' => by
    have hl := h l (Live.mem_subtree_self l)
    have hl' := h' l' (Live.mem_subtree_self l')
    have hkind : some l.kind = some l'.kind := by rw [← hl.kind?_eq, ← hl'.kind?_eq, hid]
    have hlisteners : l.listeners = l'.listeners := by
      rw [← hl.listenersOf_eq, ← hl'.listenersOf_eq, hid]
    have hchildren : l.children.map Live.id = l'.children.map Live.id := by
      rw [← hl.childrenOf_eq, ← hl'.childrenOf_eq, hid]
    -- what a node is does not depend on what is below it, and that is the same by induction
    cases l with
    | text i ls t =>
      cases l' with
      | text i' ls' t' =>
        cases hid
        cases hkind
        cases hlisteners
        rfl
      | element i' ls' tag' as' cs' => cases hkind
    | element i ls tag as cs =>
      cases l' with
      | text i' ls' t' => cases hkind
      | element i' ls' tag' as' cs' =>
        have hcs := eq_of_drawsAll cs cs' hchildren (fun n hn => h n (List.mem_cons_of_mem _ hn))
          fun n hn => h' n (List.mem_cons_of_mem _ hn)
        cases hid
        cases hkind
        cases hlisteners
        rw [hcs]

theorem eq_of_drawsAll : (ts ts' : List (Live L)) → ts.map Live.id = ts'.map Live.id →
    (∀ n ∈ Live.subtrees ts, a.Draws n) → (∀ n ∈ Live.subtrees ts', a.Draws n) → ts = ts'
  | [], [], _, _, _ => rfl
  | [], _ :: _, hids, _, _ => by cases hids
  | _ :: _, [], hids, _, _ => by cases hids
  | t :: ts, t' :: ts', hids, h, h' => by
    rw [List.map_cons, List.map_cons, List.cons.injEq] at hids
    rw [Live.subtrees_cons, List.forall_mem_append] at h h'
    rw [eq_of_draws t t' hids.1 h.1 h'.1, eq_of_drawsAll ts ts' hids.2 h.2 h'.2]

end

/-- Just one list of trees hangs below a node. -/
theorem Shows.unique {ts' : List (Live L)} (h : a.Shows i ts) (h' : a.Shows i ts') : ts = ts' :=
  eq_of_drawsAll ts ts' (h.childrenOf_eq.symm.trans h'.childrenOf_eq) h.draws h'.draws

namespace Represents

theorem shows_iff (h : a.Represents d) : a.Shows i ts ↔ ts = d.childrenOf i := by
  have hshows : a.Shows i (d.childrenOf i) := ⟨h.childrenOf_eq i, fun _ hn => h.draws i hn⟩
  constructor
  · intro hts
    exact hts.unique hshows
  · rintro rfl
    exact hshows

/-- A node is not below itself, and a walk meets no node twice. -/
theorem nodup_below (h : a.Represents d) (hi : a.contains i = true) :
    (i :: d.descendants i).Nodup := by
  obtain ⟨k, q, ls, rest, hopen⟩ := h.exists_open hi
  have hnd := Holds.nodup hopen
  rw [List.map_append, Live.map_id_fan] at hnd
  exact (List.nodup_append.1 hnd).1

/-- The text of a node below the root is that of its content. -/
theorem exists_textContent (h : a.Represents d) (hi : a.contains i = true) (hroot : i ≠ rootId) :
    ∃ n, a.node? i = some (some n) ∧ a.textContent? i = some n.textContent := by
  have hsome : (d.find? i).isSome :=
    Document.isSome_find?_iff.2 ((h.contains_iff.1 hi).resolve_left hroot)
  obtain ⟨l, hl⟩ := Option.isSome_iff_exists.1 hsome
  refine ⟨l.node, ?_, ?_⟩
  · rw [h.node?_eq, Document.node?, if_neg hroot, hl]
    rfl
  · rw [h.textContent?_eq, Document.textContent, Document.text?, if_neg hroot, Document.childrenOf,
      if_neg hroot, hl]
    cases l with
    | text j ls t => rfl
    | element j ls tag as cs => exact congrArg some (Live.join_text?_subtrees cs)

theorem textContent?_root (h : a.Represents d) :
    a.textContent? rootId = some (Node.textContentAll (Live.nodes (d.childrenOf rootId))) := by
  rw [h.textContent?_eq, Document.textContent, Document.text?, if_pos rfl]
  exact congrArg some (Live.join_text?_subtrees _)

/-- A node that was put in is read back, and so is its markup. -/
theorem append_reads [EntityCodec] (h : a.Represents d) (htakes : a.Takes p) (n : Node) :
    ∃ j a', a.append p n = (some j, a') ∧ a'.node? j = some (some n) ∧
      a'.outerHtml? j = some n.html := by
  obtain ⟨j, a', below, hresult, hnode, -⟩ := h.inserts htakes (a.childrenOf p).length n
  have ha' : a'.Represents (d.append p n).2 := by
    have happend := (h.append (p := p) n).2
    rwa [append_eq, hresult] at happend
  have hdoc : (d.append p n).2.node? j = some n :=
    Option.some.inj ((ha'.node?_eq j).symm.trans hnode)
  -- the root has no content of its own
  have hroot : j ≠ rootId := by
    rintro rfl
    cases hdoc
  refine ⟨j, a', (append_eq a p n).trans hresult, hnode, ?_⟩
  rw [ha'.outerHtml?_eq, Document.outerHtml, if_neg hroot, hdoc]
  rfl

end Represents

/-- In a well-formed arena a node that is put in is read back.  Just one list of trees hangs below
each node, they are what is read back there, and a walk meets the nodes below it in the preorder of
these trees, each of them once.  So the elements with a tag are those of the trees below the root in
this order, and the text of a node is that of its content from the left to the right. -/
theorem reads_as_tree [EntityCodec] (h : a.WellFormed) (hissued : a.Issued) :
    (∀ p n, a.Takes p → ∃ j a', a.append p n = (some j, a') ∧ a'.node? j = some (some n) ∧
      a'.outerHtml? j = some n.html) ∧
    ∃ trees : NodeId → List (Live L),
      (∀ i, a.contains i = true → (∀ ts, a.Shows i ts ↔ ts = trees i) ∧
        a.nodesOf? i = some (Live.nodes (trees i)) ∧
        a.descendants? i = some ((Live.subtrees (trees i)).map Live.id) ∧
        (i :: (Live.subtrees (trees i)).map Live.id).Nodup ∧
        ∀ j, j ∈ (Live.subtrees (trees i)).map Live.id ↔ a.Below i j) ∧
      (∀ tag, a.elementsByTag? tag =
        some (((Live.subtrees (trees rootId)).filter fun n => n.tag? == some tag).map Live.id)) ∧
      (∀ i, a.contains i = true → i ≠ rootId →
        ∃ n, a.node? i = some (some n) ∧ a.textContent? i = some n.textContent) ∧
      a.textContent? rootId = some (Node.textContentAll (Live.nodes (trees rootId))) := by
  obtain ⟨d, hd⟩ := h.exists_represents hissued
  refine ⟨fun p n htakes => hd.append_reads htakes n, d.childrenOf, fun i hi => ?_, fun tag => ?_,
    fun i hi hroot => ?_, ?_⟩
  · exact ⟨fun ts => hd.shows_iff, hd.nodesOf?_eq i, hd.descendants?_eq i, hd.nodup_below hi,
      fun j => (hd.shows_iff.2 rfl).mem_iff_below⟩
  · rw [hd.elementsByTag?_eq, Document.childrenOf, if_pos rfl]
    rfl
  · exact hd.exists_textContent hi hroot
  · exact hd.textContent?_root

section

attribute [local instance] EntityCodec.common

/-- A page with two elements of one tag, and a text that is written with a reference. -/
theorem reads_as_tree_page :
    let page :=
      [Node.element "a" [] [.element "b" [] [.text "x"], .element "c" [] [.element "b" [] []]],
        .text "y"]
    let a := ofNodes page
    a.WellFormed ∧ a.Issued ∧ a.Takes 4 ∧ a.contains 1 = true ∧
      (∃ j a', a.append 4 (.element "p" [] [.text "<"]) = (some j, a') ∧
        a'.node? j = some (some (.element "p" [] [.text "<"])) ∧
        a'.outerHtml? j = some "<p>&lt;</p>") ∧
      a.descendants? 1 = some [2, 3, 4, 5] ∧ a.Below 1 5 ∧ ¬ a.Below 1 6 ∧
      a.elementsByTag? "b" = some [2, 5] ∧
      (∃ n, a.node? 1 = some (some n) ∧ a.textContent? 1 = some n.textContent) ∧
        a.textContent? rootId = some "xy" := by
  intro page a
  obtain ⟨hwf, hissued, -, -⟩ := ofNodes_spec page
  have hd := (represents_empty.reconcile (L := String) (p := rootId) page).2
  have htakes : a.Takes 4 := ⟨.element "c" [], hd.kind?_eq (by decide), rfl⟩
  have hin : a.contains 1 = true := hd.contains_iff.2 (by decide +kernel)
  obtain ⟨happend, trees, hbelow, htags, htext, hroot⟩ := reads_as_tree hwf hissued
  obtain ⟨hshows, -, hwalk, -, hiff⟩ := hbelow 1 hin
  have htrees := (hshows _).1 (hd.shows_iff.2 rfl)
  have htop := ((hbelow rootId (contains_of_kind? hd.kind?_root)).1 _).1 (hd.shows_iff.2 rfl)
  refine ⟨hwf, hissued, htakes, hin, happend 4 _ htakes, ?_, ?_, ?_, ?_,
    htext 1 hin (by decide), ?_⟩
  · rw [hwalk, ← htrees]
    rfl
  · rw [← hiff, ← htrees]
    decide +kernel
  · rw [← hiff, ← htrees]
    decide +kernel
  · rw [htags, ← htop]
    rfl
  · rw [hroot, ← htop]
    rfl

end

end Arena

end LiveMarkup
