import LiveMarkup.Proofs.Arena.Reconcile

/-!
# What becomes of identities

Reconciling matches the nodes right below a node with the new ones by their index, and those below
each pair of elements with the same tag in turn.  `Arena.Matches` has a rule for each way in which a
node can be faced: it says which identity stands in its place then, and what that means for all
nodes below it.  Nodes that stay keep their listeners, and what is not below the node is left alone
(`Arena.Rematches`).

The rules are read off the patch of the tree (`matches_patchAll`).  While its recursion goes down,
it is known which nodes stand in both arenas at the place that it has come to, and that of the nodes
that stood there before, no other ones are left (`Arena.Becomes`).
-/

namespace LiveMarkup

namespace Arena

open Live (fan cellsAll)

variable {L : Type}

/-! ### What may become of a node -/

section Rules

variable (a a' : Arena L)

/-- Whether a node and all nodes below it have the same slots and the same listeners in two
arenas. -/
def Untouched (i : NodeId) : Prop := ∃ below, a.descendants? i = some below ∧
    a'.descendants? i = some below ∧
  ∀ j ∈ i :: below, a'.nodes[j]? = a.nodes[j]? ∧ a'.listenersOf j = a.listenersOf j

/-- Whether a node and all nodes below it are gone, with their listeners. -/
def Drops (i : NodeId) : Prop := ∃ below, a.descendants? i = some below ∧
  ∀ j ∈ i :: below, a'.contains j = false ∧ a'.listenersOf j = []

/-- Whether there is a copy of a node now, under identities that were never given out before, and
without listeners. -/
def Plants (n : Node) (i : NodeId) : Prop := a'.node? i = some (some n) ∧
    ∃ below, a'.descendants? i = some below ∧
  ∀ j ∈ i :: below, a.next ≤ j ∧ a.contains j = false ∧ a'.contains j = true ∧ a'.listenersOf j = []

/-- Whether nodes became others when they faced new ones: texts stay, elements stay as they are if
they face a text, and go on with the nodes below them if they face an element with the same tag;
otherwise they are dropped for a copy of the new one.  Old nodes that face nothing are dropped, and
further new ones are copied. -/
inductive Matches : List NodeId → List Node → List NodeId → Prop
  | removed {is : List NodeId} : (∀ i ∈ is, Drops a a' i) → Matches is [] []
  | added {ns : List Node} {js : List NodeId} : List.Forall₂ (Plants a a') ns js → Matches [] ns js
  | text {i : NodeId} {t : String} {n : Node} {is js : List NodeId} {ns : List Node} :
    a.kind? i = some (.text t) → Matches is ns js → Matches (i :: is) (n :: ns) (i :: js)
  | facesText {i : NodeId} {tag t : String} {as : List Attr} {is js : List NodeId}
    {ns : List Node} :
    a.kind? i = some (.element tag as) → Untouched a a' i → Matches is ns js →
      Matches (i :: is) (.text t :: ns) (i :: js)
  | sameTag {i : NodeId} {tag : String} {as as' : List Attr} {cs ns : List Node}
    {is js : List NodeId} :
    a.kind? i = some (.element tag as) → Matches (a.childrenOf i) cs (a'.childrenOf i) →
    Matches is ns js →
      Matches (i :: is) (.element tag as' cs :: ns) (i :: js)
  | otherTag {i j : NodeId} {tag tag' : String} {as as' : List Attr} {cs ns : List Node}
    {is js : List NodeId} :
    a.kind? i = some (.element tag as) → tag ≠ tag' → Drops a a' i →
    Plants a a' (.element tag' as' cs) j →
      Matches is ns js → Matches (i :: is) (.element tag' as' cs :: ns) (j :: js)

/-- Whether an arena is another one in which the nodes below a node were matched with new ones: each
of them became what the rules say, those that are left keep their listeners, the node itself and all
that is not below it are the same, and new nodes are below it. -/
structure Rematches (p : NodeId) (new : List Node) : Prop where
  pairs : Matches a a' (a.childrenOf p) new (a'.childrenOf p)
  kept : ∀ i, a.contains i = true → a'.contains i = true → a'.listenersOf i = a.listenersOf i
  above : a'.kind? p = a.kind? p ∧ a'.parent? p = a.parent? p ∧ a'.listenersOf p = a.listenersOf p
  beside : ∃ below, a.descendants? p = some below ∧ ∀ i, a.contains i = true → i ∉ p :: below →
    a'.nodes[i]? = a.nodes[i]? ∧ a'.listenersOf i = a.listenersOf i
  fresh : ∃ below, a'.descendants? p = some below ∧ ∀ i, a'.contains i = true →
    a.contains i = true ∨ (a.next ≤ i ∧ i ∈ below)

end Rules

/-! ### Nodes at a place -/

/-- Whether nodes stand in an arena, with all nodes below them, right below another one. -/
def Carries (a : Arena L) (p : NodeId) (ts : List (Live L)) : Prop :=
  ∃ rest, a.Holds a.next (cellsAll p ts ++ rest)

variable {a a' : Arena L} {next next' p : NodeId} {ts : List (Live L)} {t n : Live L}

namespace Carries

theorem cons (h : a.Carries p (t :: ts)) : a.Carries p [t] ∧ a.Carries p ts := by
  obtain ⟨rest, h⟩ := h
  refine ⟨⟨cellsAll p ts ++ rest, ?_⟩, ⟨t.cells p ++ rest, h.perm (Live.cellsAll_cons ..)⟩⟩
  rw [cellsAll, List.append_assoc] at h
  rwa [cellsAll, cellsAll, List.append_nil]

theorem of_mem (h : a.Carries p ts) (ht : t ∈ ts) : a.Carries p [t] := by
  induction ts with
  | nil => cases ht
  | cons s ts ih =>
    rcases List.mem_cons.1 ht with rfl | ht
    · exact h.cons.1
    · exact ih h.cons.2 ht

/-- The arena can be opened at a node. -/
theorem exists_fan (h : a.Carries p [t]) :
    ∃ rest, a.Holds a.next (fan t.id t.kind (some p) t.listeners t.children ++ rest) := by
  obtain ⟨rest, h⟩ := h
  rw [cellsAll, cellsAll, List.append_nil, Live.cells_eq_fan] at h
  exact ⟨rest, h⟩

theorem of_fan {k : NodeKind} {ls : Listeners L} {rest : List (Cell L)} {q : Option NodeId}
    (h : a.Holds a.next (fan p k q ls ts ++ rest)) : a.Carries p ts :=
  ⟨_ :: rest, h.perm List.perm_middle.symm⟩

theorem children (h : a.Carries p [t]) : a.Carries t.id t.children := by
  obtain ⟨rest, h⟩ := h.exists_fan
  exact of_fan h

theorem kind?_eq (h : a.Carries p [t]) : a.kind? t.id = some t.kind := by
  obtain ⟨rest, h⟩ := h.exists_fan
  exact h.kind?_eq List.mem_cons_self

theorem childrenOf_eq (h : a.Carries p [t]) : a.childrenOf t.id = t.children.map Live.id := by
  obtain ⟨rest, h⟩ := h.exists_fan
  exact h.childrenOf_eq List.mem_cons_self

theorem descendants?_eq (h : a.Carries p [t]) :
    a.descendants? t.id = some ((Live.subtrees t.children).map Live.id) := by
  obtain ⟨rest, h⟩ := h.exists_fan
  exact h.descendants?_eq

theorem nodup (h : a.Carries p ts) : ((Live.subtrees ts).map Live.id).Nodup := by
  obtain ⟨rest, h⟩ := h
  have hnd := h.nodup
  rw [List.map_append, Live.map_id_cellsAll] at hnd
  exact hnd.of_append_left

theorem lt_next {i : NodeId} (h : a.Carries p ts) (hi : i ∈ (Live.subtrees ts).map Live.id) :
    i < a.next := by
  obtain ⟨rest, h⟩ := h
  rw [← Live.map_id_cellsAll p] at hi
  obtain ⟨c, hc, rfl⟩ := List.mem_map.1 hi
  exact (h.mem c (List.mem_append_left _ hc)).1

theorem contains {i : NodeId} (h : a.Carries p ts) (hi : i ∈ (Live.subtrees ts).map Live.id) :
    a.contains i = true := by
  obtain ⟨rest, h⟩ := h
  rw [h.contains_iff, List.map_append, Live.map_id_cellsAll]
  exact List.mem_append_left _ hi

theorem listenersOf_eq (h : a.Carries p ts) (hn : n ∈ Live.subtrees ts) :
    a.listenersOf n.id = n.listeners := by
  obtain ⟨rest, h⟩ := h
  obtain ⟨q, hq⟩ := Live.exists_mem_cellsAll p ts hn
  exact (h.mem _ (List.mem_append_left _ hq)).2.2

/-- The same nodes in two arenas. -/
theorem untouched (h : a.Carries p [t]) (h' : a'.Carries p [t]) : Untouched a a' t.id := by
  refine ⟨_, h.descendants?_eq, h'.descendants?_eq, fun j hj => ?_⟩
  obtain ⟨rest, h⟩ := h
  obtain ⟨rest', h'⟩ := h'
  rw [← Live.ids_eq, Live.ids, ← Live.subtrees_singleton, ← Live.map_id_cellsAll p] at hj
  obtain ⟨c, hc, rfl⟩ := List.mem_map.1 hj
  obtain ⟨-, hslot, hls⟩ := h.mem c (List.mem_append_left _ hc)
  obtain ⟨-, hslot', hls'⟩ := h'.mem c (List.mem_append_left _ hc)
  exact ⟨hslot'.trans hslot.symm, hls'.trans hls.symm⟩

theorem drops (h : a.Carries p [t]) (hwf : a'.WellFormed)
    (hgone : ∀ i ∈ t.ids, a'.contains i = false) :
    Drops a a' t.id := by
  refine ⟨_, h.descendants?_eq, fun j hj => ?_⟩
  rw [← Live.ids_eq] at hj
  refine ⟨hgone j hj, ?_⟩
  have hnot : j ∉ a'.listeners := fun hls => by
    have hin := hwf.live_of_listeners j hls
    rw [hgone j hj] at hin
    cases hin
  rw [listenersOf, Std.TreeMap.getElem?_eq_none hnot]
  rfl

theorem plants {m : Node} (h : a'.Carries p [t]) (hissued : a.Issued)
    (ht : Live.plant next m = (t, next')) (hle : a.next ≤ next) : Plants a a' m t.id := by
  obtain ⟨rest, hopen⟩ := h.exists_fan
  refine ⟨hopen.node?_plant ht, _, h.descendants?_eq, fun j hj => ?_⟩
  rw [← Live.ids_eq] at hj
  have hj' : a.next ≤ j := Nat.le_trans hle (Live.le_of_mem_plant ht hj)
  have hnot : a.contains j = false := by
    rw [← Bool.not_eq_true]
    exact fun hin => Nat.not_le_of_lt (hissued j hin) hj'
  obtain ⟨n, hn, rfl⟩ := List.mem_map.1 hj
  rw [← Live.subtrees_singleton] at hn
  refine ⟨hj', hnot, h.contains (List.mem_map_of_mem hn), ?_⟩
  have hrenewed := Live.renewed_plant (L := L) next m
  rw [ht, ← Live.subtrees_singleton] at hrenewed
  rw [h.listenersOf_eq hn]
  rcases hrenewed.kept_or_fresh n hn with ⟨o, ho, -⟩ | ⟨-, -, hls⟩
  · cases ho
  · exact hls

theorem forall₂_plants (hissued : a.Issued) {ns : List Node}
    (h : a'.Carries p (Live.plantAll next ns).1) (hle : a.next ≤ next) :
    List.Forall₂ (Plants a a') ns ((Live.plantAll (L := L) next ns).1.map Live.id) := by
  induction ns generalizing next with
  | nil => exact .nil
  | cons n ns ih =>
    rw [Live.plantAll] at h ⊢
    exact .cons (h.cons.1.plants hissued rfl hle)
      (ih h.cons.2 (Nat.le_trans hle (Live.le_plant rfl)))

end Carries

/-! ### Following the patch -/

/-- Whether nodes stand in an arena and others in their place in another arena, where none of the
identities is left elsewhere. -/
structure Becomes (a a' : Arena L) (p : NodeId) (os ts : List (Live L)) : Prop where
  old : a.Carries p os
  new : a'.Carries p ts
  left : ∀ i ∈ (Live.subtrees os).map Live.id, a'.contains i = true →
    i ∈ (Live.subtrees ts).map Live.id

namespace Becomes

variable {o : Live L} {os : List (Live L)}

/-- The first nodes and the others, if each of them has old identities of its own and new ones. -/
theorem cons (h : Becomes a a' p (o :: os) (t :: ts))
    (ht : ∀ i ∈ t.ids, i ∈ o.ids ∨ a.next ≤ i)
    (hts : ∀ i ∈ (Live.subtrees ts).map Live.id, i ∈ (Live.subtrees os).map Live.id ∨ a.next ≤ i) :
    Becomes a a' p [o] [t] ∧ Becomes a a' p os ts := by
  have hnd := h.old.nodup
  rw [Live.subtrees_cons, List.map_append, List.nodup_append] at hnd
  have hleft (i : NodeId) (hi : i ∈ o.ids ++ (Live.subtrees os).map Live.id)
    (hin : a'.contains i = true) :
      i < a.next ∧ (i ∈ t.ids ∨ i ∈ (Live.subtrees ts).map Live.id) := by
    rw [Live.ids, ← List.map_append, ← Live.subtrees_cons] at hi
    have hmem := h.left i hi hin
    rw [Live.subtrees_cons, List.map_append, List.mem_append] at hmem
    exact ⟨h.old.lt_next hi, hmem⟩
  refine ⟨⟨h.old.cons.1, h.new.cons.1, fun i hi hin => ?_⟩,
    ⟨h.old.cons.2, h.new.cons.2, fun i hi hin => ?_⟩⟩
  -- an identity that went over to the other side would be an old one there too, or a new one
  · rw [Live.subtrees_singleton] at hi ⊢
    obtain ⟨hlt, hmem⟩ := hleft i (List.mem_append_left _ hi) hin
    refine hmem.resolve_right fun hi' => ?_
    rcases hts i hi' with hi' | hle
    · exact hnd.2.2 i hi i hi' rfl
    · exact Nat.not_le_of_lt hlt hle
  · obtain ⟨hlt, hmem⟩ := hleft i (List.mem_append_right _ hi) hin
    refine hmem.resolve_left fun hi' => ?_
    rcases ht i hi' with hi' | hle
    · exact hnd.2.2 i hi' i hi rfl
    · exact Nat.not_le_of_lt hlt hle

/-- The nodes right below a node that stays. -/
theorem children (h : Becomes a a' p [o] [t]) (hid : t.id = o.id) :
    Becomes a a' o.id o.children t.children := by
  have hnew := h.new.children
  rw [hid] at hnew
  refine ⟨h.old.children, hnew, fun i hi hin => ?_⟩
  have hnd := h.old.nodup
  have hmem := h.left i
  rw [Live.subtrees_singleton, ← Live.ids, Live.ids_eq] at hnd hmem
  rw [Live.subtrees_singleton, ← Live.ids, Live.ids_eq, hid] at hmem
  rcases List.mem_cons.1 (hmem (List.mem_cons_of_mem _ hi) hin) with rfl | hi'
  · exact absurd hi (List.nodup_cons.1 hnd).1
  · exact hi'

/-- Nodes whose place is taken by new ones are gone. -/
theorem gone {i : NodeId} (h : Becomes a a' p os ts)
    (hts : ∀ i ∈ (Live.subtrees ts).map Live.id, a.next ≤ i)
    (hi : i ∈ (Live.subtrees os).map Live.id) : a'.contains i = false := by
  rw [← Bool.not_eq_true]
  exact fun hin => Nat.not_le_of_lt (h.old.lt_next hi) (hts i (h.left i hi hin))

theorem drops (h : Becomes a a' p os ts) (hwf : a'.WellFormed)
    (hts : ∀ i ∈ (Live.subtrees ts).map Live.id, a.next ≤ i) (ho : o ∈ os) : Drops a a' o.id :=
  (h.old.of_mem ho).drops hwf fun _ hi =>
  h.gone hts ((Live.subtree_sublist_of_mem os ho).map Live.id |>.subset hi)

end Becomes

mutual

theorem matches_patch (hissued : a.Issued) (hwf : a'.WellFormed) {p next : NodeId}
    (hle : a.next ≤ next) {is js : List NodeId} {ns : List Node} (hrest : Matches a a' is ns js) :
    (o : Live L) → (n : Node) →
    Becomes a a' p [o] [(o.patch next n).1] → Matches a a' (o.id :: is) (n :: ns)
    ((o.patch next n).1.id :: js)
  | .text i ls t, n, h => by
    rw [Live.patch_text]
    exact .text h.old.kind?_eq hrest
  | .element i ls tag as cs, .text t, h => by
    rw [Live.patch] at h ⊢
    exact .facesText h.old.kind?_eq (h.old.untouched h.new) hrest
  | .element i ls tag as cs, .element tag' as' cs', h => by
    rw [Live.patch] at h ⊢
    split_ifs at h ⊢ with htag
    · subst htag
      have hbelow := matches_patchAll hissued hwf hle cs cs' (h.children rfl)
      refine .sameTag h.old.kind?_eq ?_ hrest
      rw [h.old.childrenOf_eq]
      exact h.new.childrenOf_eq ▸ hbelow
    · refine .otherTag h.old.kind?_eq htag (h.drops hwf ?_ List.mem_cons_self)
        (h.new.plants hissued rfl hle) hrest
      intro i hi
      rw [Live.subtrees_singleton] at hi
      exact Nat.le_trans hle (Live.le_of_mem_plant rfl hi)

/-- What the patch of a tree does to the identities in it. -/
theorem matches_patchAll (hissued : a.Issued) (hwf : a'.WellFormed) {p next : NodeId}
    (hle : a.next ≤ next) :
    (os : List (Live L)) → (ns : List Node) → Becomes a a' p os (Live.patchAll next os ns).1 →
      Matches a a' (os.map Live.id) ns ((Live.patchAll next os ns).1.map Live.id)
  | [], ns, h => by
    rw [Live.patchAll] at h ⊢
    exact .added (h.new.forall₂_plants hissued hle)
  | o :: os, [], h => by
    rw [Live.patchAll] at h ⊢
    refine .removed fun i hi => ?_
    obtain ⟨o', ho', rfl⟩ := List.mem_map.1 hi
    exact h.drops hwf (by simp) ho'
  | o :: os, n :: ns, h => by
    have hhead := Live.renewed_patch next o n
    have htail := Live.renewed_patchAll (o.patch next n).2.1 os ns
    have hle' := Nat.le_trans hle hhead.le
    rw [Live.patchAll] at h ⊢
    obtain ⟨ho, hos⟩ :=
      h.cons (fun i hi => (hhead.id_cases hi).imp_right fun hi => Nat.le_trans hle hi.1)
      fun i hi => (htail.id_cases hi).imp_right fun hi => Nat.le_trans hle' hi.1
    exact matches_patch hissued hwf hle (matches_patchAll hissued hwf hle' os ns hos) o n ho

end

section Opened

variable {k : NodeKind} {q : Option NodeId} {ls : Listeners L} {rest : List (Cell L)}
  {new : List Node} {i : NodeId}

theorem Holds.mem_fan_iff (h : a.Holds next (fan p k q ls ts ++ rest)) :
    a.contains i = true ↔ i ∈ p :: (Live.subtrees ts).map Live.id ∨ i ∈ rest.map Cell.id := by
  rw [h.contains_iff, List.map_append, List.mem_append, Live.map_id_fan]

/-- No other cell has the identity of the node that an arena is opened at, or one of a node below
it. -/
theorem Holds.not_mem_rest (h : a.Holds next (fan p k q ls ts ++ rest))
    (hi : i ∈ p :: (Live.subtrees ts).map Live.id) : i ∉ rest.map Cell.id := by
  have hnd := h.nodup
  rw [List.map_append, Live.map_id_fan, List.nodup_append] at hnd
  exact fun hi' => hnd.2.2 i hi i hi' rfl

/-- The nodes below the node that an arena is opened at are replaced by what the patch makes of
them. -/
theorem Holds.becomes (h : a.Holds a.next (fan p k q ls ts ++ rest))
    (h' : a'.Holds next' (fan p k q ls (Live.patchAll a.next ts new).1 ++ rest)) :
    Becomes a a' p ts (Live.patchAll a.next ts new).1 := by
  refine ⟨.of_fan h, .of_fan (h'.next_eq.symm ▸ h'), fun i hi hin => ?_⟩
  have hi' : i ∈ p :: (Live.subtrees ts).map Live.id := List.mem_cons_of_mem _ hi
  have hmem := (h'.mem_fan_iff.1 hin).resolve_right (h.not_mem_rest hi')
  have hne : i ≠ p := by
    rintro rfl
    have hnd := h.nodup
    rw [List.map_append, Live.map_id_fan, List.cons_append, List.nodup_cons] at hnd
    exact hnd.1 (List.mem_append_left _ hi)
  exact (List.mem_cons.1 hmem).resolve_left hne

/-- A node that stays below the node that an arena is opened at keeps its listeners. -/
theorem Holds.listenersOf_patchAll (h : a.Holds a.next (fan p k q ls ts ++ rest))
    (h' : a'.Holds next' (fan p k q ls (Live.patchAll a.next ts new).1 ++ rest))
    (hi : i ∈ (Live.subtrees ts).map Live.id) (hin : a'.contains i = true) :
    a'.listenersOf i = a.listenersOf i := by
  have hbecomes := h.becomes h'
  obtain ⟨n, hn, rfl⟩ := List.mem_map.1 (hbecomes.left i hi hin)
  rw [hbecomes.new.listenersOf_eq hn]
  rcases (Live.renewed_patchAll a.next ts new).kept_or_fresh n hn with ⟨o, ho, hid, hls⟩ | ⟨hle, -⟩
  · rw [← hls, ← hid, hbecomes.old.listenersOf_eq ho]
  · exact absurd hle (Nat.not_le_of_lt (hbecomes.old.lt_next hi))

theorem Holds.rematches (h : a.Holds a.next (fan p k q ls ts ++ rest))
    (h' : a'.Holds next' (fan p k q ls (Live.patchAll a.next ts new).1 ++ rest))
    (hissued : a.Issued) (hwf : a'.WellFormed) : Rematches a a' p new := by
  have hbeside {i : NodeId} (hi : i ∈ rest.map Cell.id) :
      a'.nodes[i]? = a.nodes[i]? ∧ a'.listenersOf i = a.listenersOf i := by
    obtain ⟨c, hc, rfl⟩ := List.mem_map.1 hi
    obtain ⟨-, hslot, hls⟩ := h.mem c (List.mem_append_right _ hc)
    obtain ⟨-, hslot', hls'⟩ := h'.mem c (List.mem_append_right _ hc)
    exact ⟨hslot'.trans hslot.symm, hls'.trans hls.symm⟩
  have habove := h.same h' List.mem_cons_self List.mem_cons_self
  refine ⟨?_, fun i hi hi' => ?_, habove, ⟨_, h.descendants?_eq, fun i hi hnot => ?_⟩,
    ⟨_, h'.descendants?_eq, fun i hi => ?_⟩⟩
  · rw [h.childrenOf_eq List.mem_cons_self, h'.childrenOf_eq List.mem_cons_self]
    exact matches_patchAll hissued hwf (Nat.le_refl _) ts new (h.becomes h')
  · rcases h.mem_fan_iff.1 hi with hmem | hmem
    · rcases List.mem_cons.1 hmem with rfl | hmem
      · exact habove.2.2
      · exact h.listenersOf_patchAll h' hmem hi'
    · exact (hbeside hmem).2
  · exact hbeside ((h.mem_fan_iff.1 hi).resolve_left hnot)
  · rw [h.mem_fan_iff]
    rcases h'.mem_fan_iff.1 hi with hmem | hmem
    · rcases List.mem_cons.1 hmem with rfl | hmem
      · exact Or.inl (Or.inl List.mem_cons_self)
      · rcases (Live.renewed_patchAll a.next ts new).id_cases hmem with hold | hfresh
        · exact Or.inl (Or.inl (List.mem_cons_of_mem _ hold))
        · exact Or.inr ⟨hfresh.1, hmem⟩
    · exact Or.inl (Or.inr hmem)

end Opened

/-- Reconciling matches the nodes below a node with the new ones, and nothing else happens. -/
theorem rematches_reconcile (h : a.WellFormed) (hissued : a.Issued) (htakes : a.Takes p)
    (new : List Node) :
    Rematches a (a.reconcile p new).2 p new := by
  obtain ⟨k, q, ls, ts, rest, hk, hroot, hopen⟩ := h.exists_fan hissued htakes
  exact hopen.rematches (hopen.reconcile hk hroot new).2 hissued (h.reconcile hissued p new).1

/-- A text and an element with the same tag keep their identities, and an element with another tag
gets a new one. -/
theorem rematches_reconcile_page :
    let old := [Node.text "a", .element "b" [] [.text "c"], .element "i" [] []]
    let new := [Node.text "d", .element "b" [] [.text "c", .text "e"], .element "u" [] []]
    let a := ofNodes old
    let a' := (a.reconcile rootId new).2
    Rematches a a' rootId new ∧ a.childrenOf rootId = [1, 2, 4] ∧ a'.childrenOf rootId = [1, 2, 6] ∧
      a'.childrenOf 2 = [3, 5] := by
  intro old new a a'
  obtain ⟨hwf, hissued, htakes, -⟩ := ofNodes_spec old
  have ha := (represents_empty.reconcile (L := String) (p := rootId) old).2
  have ha' := (ha.reconcile (p := rootId) new).2
  refine ⟨rematches_reconcile hwf hissued htakes new, ?_, ?_, ?_⟩
  · exact Holds.childrenOf_eq ha List.mem_cons_self
  · exact Holds.childrenOf_eq ha' List.mem_cons_self
  · exact Holds.childrenOf_eq ha'
      (List.mem_cons_of_mem _ (List.mem_cons_of_mem _ List.mem_cons_self))

end Arena

end LiveMarkup
