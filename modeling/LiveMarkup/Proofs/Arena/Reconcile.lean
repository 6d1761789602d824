import LiveMarkup.Proofs.Arena.Simulation
import LiveMarkup.Proofs.Arena.Tree
import LiveMarkup.Proofs.Document.Compatible
import LiveMarkup.Proofs.Document.Slots
import LiveMarkup.Proofs.Document.Unambiguous

/-!
# What reconciling leaves in an arena

What is read below a node after `Arena.reconcile` is what patching makes of what was read there
before, whatever else is in the arena, and attributes are patched slot by slot just if no element
repeats a name (`reconcile_eq_patchAll`).  The arena is well-formed again, so this can be said of
one call after another.  Between compatible nodes nothing else is left than the new ones
(`nodesOf?_reconcileEach`).

A patch counts all that it does: as long as it has counted nothing, it has left the tables as they
were (`Arena.Tells`). Reconciling with the nodes that are there counts nothing just if they are
unambiguous, so this is when it leaves everything as it is (`reconcile_self`).
-/

namespace LiveMarkup

namespace Arena

open Live (fan)

variable {L : Type} {a a' : Arena L} {p i : NodeId} {old : List Node}

/-- An arena with nodes below the root. -/
def ofNodes (ns : List Node) : Arena String := (empty.reconcile rootId ns).2

theorem ofNodes_spec (ns : List Node) : (ofNodes ns).WellFormed ∧ (ofNodes ns).Issued ∧
    (ofNodes ns).Takes rootId ∧
    (ofNodes ns).nodesOf? rootId = some ns := by
  have hempty : (empty : Arena String).Holds 1 (fan rootId .root none [] [] ++ []) :=
    represents_empty
  have hd := (represents_empty.reconcile (L := String) (p := rootId) ns).2
  have hholds := (hempty.reconcile rfl (by simp) ns).2
  refine ⟨hd.wellFormed, hd.issued, ⟨.root, hd.kind?_root, rfl⟩, ?_⟩
  rw [ofNodes, hholds.nodesOf?_eq, Live.patchAll, Live.nodes_plantAll]

/-! ### One call after another -/

theorem WellFormed.reconcile (h : a.WellFormed) (hissued : a.Issued) (p : NodeId)
    (new : List Node) :
    (a.reconcile p new).2.WellFormed ∧ (a.reconcile p new).2.Issued := by
  obtain ⟨d, hd⟩ := h.exists_represents hissued
  have hd' := (hd.reconcile (p := p) new).2
  exact ⟨hd'.wellFormed, hd'.issued⟩

/-- Below a node there is what patching makes of what was there before, and nodes can still be put
there. -/
theorem nodesOf?_reconcile (h : a.WellFormed) (hissued : a.Issued) (htakes : a.Takes p)
    (hold : a.nodesOf? p = some old) (new : List Node) :
    (a.reconcile p new).1 = (Node.patchAll AttrPatch.byName old new).2 ∧
      (a.reconcile p new).2.nodesOf? p = some (Node.patchAll AttrPatch.byName old new).1 ∧
        (a.reconcile p new).2.Takes p := by
  obtain ⟨k, q, ls, ts, rest, hk, hroot, hopen⟩ := h.exists_fan hissued htakes
  have hts : Live.nodes ts = old := Option.some.inj (hopen.nodesOf?_eq.symm.trans hold)
  obtain ⟨hstats, hholds⟩ := hopen.reconcile hk hroot new
  have hpatch := Live.nodes_patchAll a.next ts new
  rw [hts] at hpatch
  rw [← hpatch]
  exact ⟨hstats, hholds.nodesOf?_eq, k, hholds.kind?_eq List.mem_cons_self, hk⟩

theorem exists_nodesOf? (h : a.WellFormed) (hissued : a.Issued) (htakes : a.Takes p) :
    ∃ old, a.nodesOf? p = some old := by
  obtain ⟨k, q, ls, ts, rest, -, -, hopen⟩ := h.exists_fan hissued htakes
  exact ⟨_, hopen.nodesOf?_eq⟩

/-- What is read below a node, and what is counted, is a function of what was read there before and
of the new nodes alone. It goes slot by slot, whatever the new nodes are, just if no element below
the node repeats the name of an attribute: otherwise a value goes to the first slot of the name that
it faces. -/
theorem reconcile_eq_patchAll (h : a.WellFormed) (hissued : a.Issued) (htakes : a.Takes p) :
    ∃ old, a.nodesOf? p = some old ∧
      (∀ new, (a.reconcile p new).1 = (Node.patchAll AttrPatch.byName old new).2 ∧
        (a.reconcile p new).2.nodesOf? p = some (Node.patchAll AttrPatch.byName old new).1) ∧
      ((∀ new, (a.reconcile p new).1 = (Node.patchAll AttrPatch.bySlot old new).2 ∧
          (a.reconcile p new).2.nodesOf? p = some (Node.patchAll AttrPatch.bySlot old new).1) ↔
        Node.AllDistinctNames old) := by
  obtain ⟨old, hold⟩ := exists_nodesOf? h hissued htakes
  have hname (new : List Node) := nodesOf?_reconcile h hissued htakes hold new
  refine ⟨old, hold, fun new => ⟨(hname new).1, (hname new).2.1⟩, ?_⟩
  rw [← Node.patchAll_eq_bySlot_iff]
  refine forall_congr' fun new => ?_
  rw [(hname new).1, (hname new).2.1, Option.some.injEq, Prod.ext_iff]
  exact and_comm

/-- A paragraph loses an attribute and its text, and the value of the first new attribute goes to
the name of the first old one. -/
theorem reconcile_eq_patchAll_paragraph :
    let a := ofNodes [.element "p" [⟨"id", "a"⟩, ⟨"class", "b"⟩] [.text "c"]]
    let new := [Node.element "p" [⟨"class", "d"⟩] [.element "i" [] []], .text "e"]
    (a.reconcile rootId new).1 = ⟨1, 1, 1, 0, 0, 1⟩ ∧
      (a.reconcile rootId new).2.nodesOf? rootId =
        some [.element "p" [⟨"id", "d"⟩] [.text ""], .text "e"] := by
  intro a new
  obtain ⟨hwf, hissued, htakes, hold⟩ :=
    ofNodes_spec [.element "p" [⟨"id", "a"⟩, ⟨"class", "b"⟩] [.text "c"]]
  obtain ⟨old, hold', -, hslots⟩ := reconcile_eq_patchAll hwf hissued htakes
  cases hold.symm.trans hold'
  obtain ⟨hstats, hread⟩ := hslots.2 (by simp [Node.AllDistinctNames, Node.DistinctNames]) new
  exact ⟨hstats.trans (by decide), hread.trans (by decide)⟩

/-- Where a name is repeated the last value that faces it ends up in its first slot, also if the new
nodes are those that are there. -/
theorem reconcile_ne_bySlot :
    let old := [Node.element "p" [⟨"a", "1"⟩, ⟨"a", "2"⟩] []]
    let new := [Node.element "p" [⟨"a", "3"⟩, ⟨"a", "4"⟩] []]
    let a := ofNodes old
    (a.WellFormed ∧ a.Issued ∧ a.Takes rootId ∧ a.nodesOf? rootId = some old) ∧
      (a.reconcile rootId new).2.nodesOf? rootId = some [.element "p" [⟨"a", "4"⟩, ⟨"a", "2"⟩] []] ∧
      (Node.patchAll AttrPatch.bySlot old new).1 = new ∧
      (a.reconcile rootId old).2.nodesOf? rootId = some [.element "p" [⟨"a", "2"⟩, ⟨"a", "2"⟩] []] ∧
      (Node.patchAll AttrPatch.bySlot old old).1 = old := by
  intro old new a
  obtain ⟨hwf, hissued, htakes, hold⟩ := ofNodes_spec old
  have hread (new : List Node) := (nodesOf?_reconcile hwf hissued htakes hold new).2.1
  exact ⟨⟨hwf, hissued, htakes, hold⟩, (hread new).trans (by decide), by decide,
    (hread old).trans (by decide), by decide⟩

/-- Brings the nodes below a node in line with one list of new nodes after the other. -/
def reconcileEach (a : Arena L) (p : NodeId) : List (List Node) → Arena L
  | [] => a
  | new :: news => (a.reconcile p new).2.reconcileEach p news

theorem nodesOf?_reconcileEach_of_chain (h : a.WellFormed) (hissued : a.Issued) (htakes : a.Takes p)
    (hold : a.nodesOf? p = some old) {news : List (List Node)}
    (hnews : List.IsChain Node.AllCompatible (old :: news)) :
    (a.reconcileEach p news).nodesOf? p = some ((old :: news).getLast (List.cons_ne_nil _ _)) := by
  induction news generalizing a old with
  | nil => exact hold
  | cons new news ih =>
    rw [List.isChain_cons_cons] at hnews
    obtain ⟨hwf, hissued'⟩ := h.reconcile hissued p new
    obtain ⟨-, hnew, htakes'⟩ := nodesOf?_reconcile h hissued htakes hold new
    rw [hnews.1.patchAll_eq] at hnew
    rw [reconcileEach, List.getLast_cons_cons]
    exact ih hwf hissued' htakes' hnew hnews.2

/-- The nodes below a node become the new ones if both are compatible, and the last ones of several
lists, each of which is compatible with the one before. -/
theorem nodesOf?_reconcileEach (h : a.WellFormed) (hissued : a.Issued) (htakes : a.Takes p) :
    ∃ old, a.nodesOf? p = some old ∧
      (∀ new, Node.AllCompatible old new → (a.reconcile p new).2.nodesOf? p = some new) ∧
      ∀ news, List.IsChain Node.AllCompatible (old :: news) →
        (a.reconcileEach p news).nodesOf? p =
          some ((old :: news).getLast (List.cons_ne_nil _ _)) := by
  obtain ⟨old, hold⟩ := exists_nodesOf? h hissued htakes
  refine ⟨old, hold, fun new hnew => ?_, fun news =>
    nodesOf?_reconcileEach_of_chain h hissued htakes hold⟩
  obtain ⟨-, hread, -⟩ := nodesOf?_reconcile h hissued htakes hold new
  rw [hread, hnew.patchAll_eq]

/-- A list gets an item and loses an attribute, and then its heading is gone. -/
theorem nodesOf?_reconcileEach_list :
    let item (t : String) := Node.element "li" [] [.text t]
    let a :=
      ofNodes [.element "h1" [] [.text "a"], .element "ul" [⟨"id", "l"⟩, ⟨"class", "x"⟩] [item "b"]]
    (a.reconcileEach rootId
      [[.element "h1" [] [.text "c"], .element "ul" [⟨"id", "m"⟩] [item "d", item "e"]],
        [.element "ul" [] []]]).nodesOf? rootId = some [.element "ul" [] []] := by
  intro item a
  obtain ⟨hwf, hissued, htakes, hold⟩ := ofNodes_spec
    [.element "h1" [] [.text "a"], .element "ul" [⟨"id", "l"⟩, ⟨"class", "x"⟩] [item "b"]]
  obtain ⟨old, hold', -, hlast⟩ := nodesOf?_reconcileEach hwf hissued htakes
  cases hold.symm.trans hold'
  refine hlast _ ?_
  simp [item, Node.AllCompatible, Node.Compatible, Attributes.SameNames]

/-! ### Counting -/

/-- Whether a patch that had counted `stats` when it came to an arena has gone through it without a
change, or has counted more. -/
def Tells (a : Arena L) (stats : PatchStats) (result : PatchStats × Arena L) : Prop :=
  result = (stats, a) ∨ stats.edits < result.1.edits

theorem Tells.trans {s : PatchStats} {r r' : PatchStats × Arena L} (h : Tells a s r)
    (h' : Tells r.2 r.1 r') :
    Tells a s r' := by
  rcases h with rfl | hlt
  · exact h'
  · rcases h' with rfl | hlt'
    · exact Or.inr hlt
    · exact Or.inr (Nat.lt_trans hlt hlt')

/-- The counts of two patches, one after the other, are added up.  If the first one has counted
nothing, the other one starts where it did. -/
theorem Tells.add {r : PatchStats × Arena L} (f : Arena L → PatchStats × Arena L)
    (h : Tells a .none r) (h' : Tells a .none (f a)) :
    Tells a .none (r.1 + (f r.2).1, (f r.2).2) := by
  rcases h with rfl | hlt
  · rcases h' with heq | hlt'
    · rw [heq]
      exact Or.inl rfl
    · right
      rw [PatchStats.edits_add]
      exact Nat.lt_add_left _ hlt'
  · right
    rw [PatchStats.edits_add]
    exact Nat.lt_add_right _ hlt

theorem tells_writeAttr (a : Arena L) (i : NodeId) (name value : String) (stats : PatchStats) :
    Tells a stats (a.writeAttr i name value stats) := by
  rw [writeAttr]
  split_ifs
  · exact Or.inl rfl
  · right
    simp only [PatchStats.edits]
    omega

/-- An attribute that is not there is removed without a change. -/
theorem eq_of_removeAttribute {name : String}
    (h : a.removeAttribute i name = (none, a')) : a' = a := by
  rw [removeAttribute] at h
  split at h
  · split at h <;> cases h
    rfl
  · cases h
    rfl

theorem tells_deleteAttr (a : Arena L) (i : NodeId) (name : String) (stats : PatchStats) :
    Tells a stats (a.deleteAttr i name stats) := by
  rcases hr : a.removeAttribute i name with ⟨_ | value, a'⟩
  · rw [deleteAttr, hr, eq_of_removeAttribute hr]
    exact Or.inl rfl
  · rw [deleteAttr, hr]
    right
    simp only [PatchStats.edits]
    omega

theorem tells_writeAttrs (a : Arena L) (i : NodeId) (stats : PatchStats) (new : List Attr) :
    Tells a stats (a.writeAttrs i stats new) := by
  induction new generalizing a stats with
  | nil => exact Or.inl rfl
  | cons n new ih => exact (tells_writeAttr a i n.name n.value stats).trans (ih _ _)

theorem tells_patchAttrs (a : Arena L) (i : NodeId) (stats : PatchStats) (old new : List Attr) :
    Tells a stats (a.patchAttrs i stats old new) := by
  induction old generalizing a stats new with
  | nil => exact tells_writeAttrs a i stats new
  | cons o old ih =>
    cases new with
    | nil => exact (tells_deleteAttr a i o.name stats).trans (ih _ _ _)
    | cons n new => exact (tells_writeAttr a i o.name n.value stats).trans (ih _ _ _)

theorem tells_syncText (a : Arena L) (i : NodeId) (current wanted : String) :
    Tells a .none (a.syncText i current wanted) := by
  rw [syncText]
  split_ifs
  · exact Or.inl rfl
  · exact Or.inr Nat.one_pos

theorem removeAll_cases (a : Arena L) (is : List NodeId) :
    a.removeAll is = (0, a) ∨ 0 < (a.removeAll is).1 := by
  induction is generalizing a with
  | nil => exact Or.inl rfl
  | cons i is ih =>
    rw [removeAll, remove]
    split_ifs
    · exact ih a
    · exact Or.inr (Nat.succ_pos _)

theorem append_cases (a : Arena L) (p : NodeId) (n : Node) :
    a.append p n = (none, a) ∨ (a.append p n).1.isSome := by
  rw [append_eq, insert]
  split
  · exact Or.inl rfl
  · exact Or.inl rfl
  · exact Or.inr rfl

theorem appendAll_cases (a : Arena L) (p : NodeId) (ns : List Node) :
    a.appendAll p ns = (0, a) ∨ 0 < (a.appendAll p ns).1 := by
  induction ns generalizing a with
  | nil => exact Or.inl rfl
  | cons n ns ih =>
    rw [appendAll]
    rcases append_cases a p n with heq | hsome
    · rw [heq]
      exact ih a
    · right
      dsimp only
      rw [if_pos hsome]
      exact Nat.succ_pos _

/-- An element can be replaced. -/
theorem WellFormed.swap_stats (h : a.WellFormed) (hissued : a.Issued) {tag : String}
    {as : List Attr} (hk : a.kind? i = some (.element tag as)) (n : Node) :
    (a.swap i n).1 = .replacement := by
  obtain ⟨d, hd⟩ := h.exists_represents hissued
  have hroot : i ≠ rootId := hd.ne_root hk (by simp)
  obtain ⟨_, _, _, _, _, _, _, -, -, hreplace, -⟩ := hd.replaces (contains_of_kind? hk) hroot n
  rw [swap, hreplace]

mutual

theorem tells_patchNode (h : a.WellFormed) (hissued : a.Issued) (i : NodeId) : (n : Node) →
    Tells a .none (a.patchNode i n)
  | .text t => by
    rw [patchNode]
    split
    · exact tells_syncText a i _ t
    · exact Or.inl rfl
  | .element tag as cs => by
    rw [patchNode]
    split
    · exact tells_syncText a i _ ""
    · next tag' as' hk =>
      split_ifs
      · exact (tells_patchAttrs a i .none as' as).add (fun a' =>
          a'.patchEach i (a'.childrenOf i) cs)
          (tells_patchEach h hissued i _ cs)
      · right
        rw [h.swap_stats hissued hk]
        decide
    · exact Or.inl rfl

/-- A patch counts all that it does. -/
theorem tells_patchEach (h : a.WellFormed) (hissued : a.Issued) (p : NodeId) :
    (is : List NodeId) → (ns : List Node) →
    Tells a .none (a.patchEach p is ns)
  | [], ns => by
    rw [patchEach]
    rcases appendAll_cases a p ns with heq | hpos
    · rw [heq]
      exact Or.inl rfl
    · right
      simp only [PatchStats.edits, PatchStats.ofInsertions, PatchStats.none]
      omega
  | i :: is, [] => by
    rw [patchEach]
    rcases removeAll_cases a (i :: is) with heq | hpos
    · rw [heq]
      exact Or.inl rfl
    · right
      simp only [PatchStats.edits, PatchStats.ofRemovals, PatchStats.none]
      omega
  | i :: is, n :: ns => by
    rw [patchEach]
    exact (tells_patchNode h hissued i n).add (fun a' =>
      a'.patchEach p is ns) (tells_patchEach h hissued p is ns)

end

/-- Reconciling that counts nothing leaves an arena as it is. -/
theorem reconcile_of_stats (h : a.WellFormed) (hissued : a.Issued) {new : List Node}
    (hnone : (a.reconcile p new).1 = .none) : (a.reconcile p new).2 = a := by
  rcases tells_patchEach h hissued p (a.childrenOf p) new with heq | hlt
  · exact congrArg Prod.snd heq
  · rw [← reconcile, hnone] at hlt
    exact absurd hlt (Nat.lt_irrefl _)

/-- Reconciling with the nodes that are there counts nothing just if no element has one name for two
values, and then leaves the arena as it is. -/
theorem reconcile_self (h : a.WellFormed) (hissued : a.Issued) (htakes : a.Takes p) :
    ∃ ns, a.nodesOf? p = some ns ∧ ((a.reconcile p ns).1 = .none ↔ Node.AllUnambiguous ns) ∧
      (Node.AllUnambiguous ns → (a.reconcile p ns).2 = a) := by
  obtain ⟨ns, hns⟩ := exists_nodesOf? h hissued htakes
  have hiff : (a.reconcile p ns).1 = .none ↔ Node.AllUnambiguous ns := by
    rw [(nodesOf?_reconcile h hissued htakes hns ns).1]
    exact Node.patchAll_self_stats_iff ns
  exact ⟨ns, hns, hiff, fun hu => reconcile_of_stats h hissued (hiff.2 hu)⟩

/-- An attribute may be repeated if its value is. -/
theorem reconcile_self_repeated :
    let same := [Node.element "p" [⟨"id", "a"⟩, ⟨"id", "a"⟩] [.text "b"]]
    let other := [Node.element "p" [⟨"id", "a"⟩, ⟨"id", "b"⟩] [.text "b"]]
    (ofNodes same).reconcile rootId same = (.none, ofNodes same) ∧
    ((ofNodes other).reconcile rootId other).1 ≠ .none := by
  intro same other
  constructor
  · obtain ⟨hwf, hissued, htakes, hns⟩ := ofNodes_spec same
    obtain ⟨ns, hns', hiff, hkept⟩ := reconcile_self hwf hissued htakes
    cases hns.symm.trans hns'
    have hu : Node.AllUnambiguous same := by
      simp [same, Node.AllUnambiguous, Node.Unambiguous, Attributes.Unambiguous]
    exact Prod.ext (hiff.2 hu) (hkept hu)
  · obtain ⟨hwf, hissued, htakes, hns⟩ := ofNodes_spec other
    obtain ⟨ns, hns', hiff, -⟩ := reconcile_self hwf hissued htakes
    cases hns.symm.trans hns'
    rw [Ne, hiff]
    simp [other, Node.AllUnambiguous, Node.Unambiguous, Attributes.Unambiguous]

end Arena

end LiveMarkup
