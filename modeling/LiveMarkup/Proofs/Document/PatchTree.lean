import LiveMarkup.Proofs.Document.Attributes

/-!
# Patching as a function of trees

`Node.patchAll` says what patching makes of a list of nodes, and what it counts, without identities,
listeners and documents.  Its parameter is the rule for attributes: the patch of a document goes by
names (`AttrPatch.byName`), which is going slot by slot (`AttrPatch.bySlot`) where no element
repeats a name. `Document.reconcile_eq_byName` says that this is all that `Document.reconcile` does
to the nodes below a node, whatever else is in the document.
-/

namespace LiveMarkup

namespace Node

mutual

/-- What patching makes of a node that faces a new one, and what it counts, given what it makes of
attributes. -/
def patch (rule : List Attr → List Attr → AttrPatch) : Node → Node → Node × PatchStats
  | text t, new =>
    (text (new.asText?.getD ""), if t = new.asText?.getD "" then .none else .textUpdate)
  | element tag as cs, text _ => (element tag as cs, .none)
  | element tag as cs, element tag' as' cs' =>
    if tag = tag' then
      (element tag (rule as as').attrs (patchAll rule cs cs').1,
        (rule as as').stats + (patchAll rule cs cs').2)
    else (element tag' as' cs', .replacement)

/-- What patching makes of a list of nodes, and what it counts, given what it makes of
attributes. -/
def patchAll (rule : List Attr → List Attr → AttrPatch) :
    List Node → List Node → List Node × PatchStats
  | [], new => (new, .ofInsertions new.length)
  | o :: os, [] => ([], .ofRemovals (o :: os).length)
  | o :: os, n :: ns =>
    ((patch rule o n).1 :: (patchAll rule os ns).1, (patch rule o n).2 + (patchAll rule os ns).2)

end

mutual

/-- Whether no element of a node repeats the name of an attribute. -/
def DistinctNames : Node → Prop
  | text _ => True
  | element _ as cs => (Attributes.names as).Nodup ∧ AllDistinctNames cs

/-- Whether no element of several nodes repeats the name of an attribute. -/
def AllDistinctNames : List Node → Prop
  | [] => True
  | n :: ns => n.DistinctNames ∧ AllDistinctNames ns

end

mutual

/-- Two rules that agree on attributes without repeated names patch nodes without repeated names
alike. -/
theorem patch_congr {rule rule' : List Attr → List Attr → AttrPatch}
    (h : ∀ old new, (Attributes.names old).Nodup → rule old new = rule' old new) :
    (o n : Node) → o.DistinctNames → o.patch rule n = o.patch rule' n
  | text t, n, _ => by rw [patch, patch]
  | element tag as cs, text t, _ => by rw [patch, patch]
  | element tag as cs, element tag' as' cs', hd => by
    rw [DistinctNames] at hd
    rw [patch, patch, h as as' hd.1, patchAll_congr h cs cs' hd.2]

theorem patchAll_congr {rule rule' : List Attr → List Attr → AttrPatch}
    (h : ∀ old new, (Attributes.names old).Nodup → rule old new = rule' old new) :
    (os ns : List Node) → AllDistinctNames os → patchAll rule os ns = patchAll rule' os ns
  | [], ns, _ => by rw [patchAll, patchAll]
  | o :: os, [], _ => by rw [patchAll, patchAll]
  | o :: os, n :: ns, hd => by
    rw [AllDistinctNames] at hd
    rw [patchAll, patchAll, patch_congr h o n hd.1, patchAll_congr h os ns hd.2]

end

end Node

/-! ### Live nodes -/

namespace Live

variable {L : Type}

mutual

theorem node_plant (next : NodeId) : (n : Node) → (plant next n : Live L × NodeId).1.node = n
  | .text t => by rw [plant, node]
  | .element tag as cs => by
    rw [plant]
    exact congrArg (Node.element tag as) (nodes_plantAll (next + 1) cs)

theorem nodes_plantAll (next : NodeId) :
    (ns : List Node) → nodes (plantAll next ns : List (Live L) × NodeId).1 = ns
  | [] => by rw [plantAll, nodes]
  | n :: ns => by
    rw [plantAll]
    exact congrArg₂ List.cons (node_plant next n) (nodes_plantAll _ ns)

end

@[simp] theorem nodes_nil : nodes ([] : List (Live L)) = [] := rfl

@[simp] theorem nodes_cons (l : Live L) (ls : List (Live L)) :
    nodes (l :: ls) = l.node :: nodes ls := rfl

@[simp] theorem length_nodes (ls : List (Live L)) : (nodes ls).length = ls.length := by
  induction ls with
  | nil => rfl
  | cons l ls ih => simp [ih]

mutual

/-- Patching a live node is patching its content. -/
theorem node_patch (next : NodeId) : (l : Live L) → (new : Node) →
    ((l.patch next new).1.node, (l.patch next new).2.2) = l.node.patch AttrPatch.byName new
  | text i ls t, new => by
    rw [patch, node, Node.patch]
    split_ifs with h
    · rw [node, ← h]
    · rw [node]
  | element i ls tag as cs, .text t => by rw [patch, node, Node.patch]
  | element i ls tag as cs, .element tag' as' cs' => by
    have hcs := nodes_patchAll next cs cs'
    rw [patch, node, Node.patch, ← hcs, ← AttrPatch.ofLists_eq]
    split_ifs with h
    · rfl
    · exact congrArg (·, PatchStats.replacement) (node_plant next (.element tag' as' cs'))

/-- Patching live nodes is patching their contents. -/
theorem nodes_patchAll (next : NodeId) : (ls : List (Live L)) → (new : List Node) →
    (nodes (patchAll next ls new).1, (patchAll next ls new).2.2) =
      Node.patchAll AttrPatch.byName (nodes ls) new
  | [], new => by
    rw [patchAll, nodes_nil, Node.patchAll]
    exact congrArg (·, PatchStats.ofInsertions new.length) (nodes_plantAll next new)
  | l :: ls, [] => by
    rw [patchAll, nodes_cons, Node.patchAll, nodes_nil]
    simp
  | l :: ls, n :: ns => by
    have hl := node_patch next l n
    have hls := nodes_patchAll (l.patch next n).2.1 ls ns
    rw [nodes_cons, Node.patchAll, ← hl, ← hls, patchAll, nodes_cons]

end

/-! ### Finding an edited node -/

/-- Two paths that lead nowhere, or to a node and to what was put in its place. -/
def SameTarget (f : Live L → Live L) (p q : Option (List (Live L))) : Prop :=
  (p = none ∧ q = none) ∨ ∃ n above above', p = some (n :: above) ∧ q = some (f n :: above')

theorem SameTarget.or {f : Live L → Live L} {p p' q q' : Option (List (Live L))}
    (h : SameTarget f p q) (h' : SameTarget f p' q') : SameTarget f (p.or p') (q.or q') := by
  rcases h with ⟨rfl, rfl⟩ | ⟨n, above, above', rfl, rfl⟩
  · exact h'
  · exact Or.inr ⟨n, above, above', rfl, rfl⟩

theorem pathIn?_append (i : NodeId) (above ls ls' : List (Live L)) :
    pathIn? i above (ls ++ ls') = (pathIn? i above ls).or (pathIn? i above ls') := by
  induction ls with
  | nil => rfl
  | cons l ls ih =>
    rw [List.cons_append, pathIn?, pathIn?, ih]
    cases l.pathTo? i above <;> rfl

theorem pathIn?_cons (i : NodeId) (above : List (Live L)) (l : Live L) (ls : List (Live L)) :
    pathIn? i above (l :: ls) = (l.pathTo? i above).or (pathIn? i above ls) := by
  rw [pathIn?]
  cases l.pathTo? i above <;> rfl

theorem pathIn?_singleton (i : NodeId) (above : List (Live L)) (l : Live L) :
    pathIn? i above [l] = l.pathTo? i above := by
  rw [pathIn?_cons, pathIn?, Option.or_none]

theorem pathTo?_self {i : NodeId} {l : Live L} (h : l.id = i) (above : List (Live L)) :
    l.pathTo? i above = some (l :: above) := by
  cases l <;> exact if_pos h

variable {i : NodeId} {f : Live L → Live L}

mutual

/-- What was put in the place of a node is found where the node was, if it has the same identity. -/
theorem sameTarget_edit (hf : ∀ l, (f l).id = l.id) (above above' : List (Live L)) :
    (l : Live L) → SameTarget f (l.pathTo? i above) (pathIn? i above' (l.edit i fun l => [f l]))
  | text j ls t => by
    rw [edit, pathTo?]
    split_ifs with h
    · rw [pathIn?_singleton, pathTo?_self (by rw [hf]; exact h)]
      exact Or.inr ⟨_, above, above', rfl, rfl⟩
    · rw [pathIn?_singleton, pathTo?, if_neg h]
      exact Or.inl ⟨rfl, rfl⟩
  | element j ls tag as cs => by
    rw [edit, pathTo?]
    split_ifs with h
    · rw [pathIn?_singleton, pathTo?_self (by rw [hf]; exact h)]
      exact Or.inr ⟨_, above, above', rfl, rfl⟩
    · rw [pathIn?_singleton, pathTo?, if_neg h]
      exact sameTarget_editIn hf _ _ cs

theorem sameTarget_editIn (hf : ∀ l, (f l).id = l.id) (above above' : List (Live L)) :
    (ls : List (Live L)) →
      SameTarget f (pathIn? i above ls) (pathIn? i above' (editIn i (fun l => [f l]) ls))
  | [] => Or.inl ⟨rfl, rfl⟩
  | l :: ls => by
    rw [pathIn?_cons, editIn, pathIn?_append]
    exact (sameTarget_edit hf above above' l).or (sameTarget_editIn hf above above' ls)

end

end Live

/-! ### Documents -/

namespace Document

variable {L : Type}

/-- An edited node is found again under its identity. -/
theorem find?_edit {d : Document L} {i : NodeId} {n : Live L} {f : Live L → Live L}
    (hf : ∀ l, (f l).id = l.id) (h : d.find? i = some n) :
    (d.edit i fun l => [f l]).find? i = some (f n) := by
  unfold find? path? edit at *
  rcases Live.sameTarget_editIn hf [] [] d.children with ⟨hp, -⟩ | ⟨m, above, above', hp, hq⟩
  · rw [hp] at h
    cases h
  · rw [hp] at h
    cases h
    rw [hq]
    rfl

theorem childrenOf_edit (d : Document L) {i : NodeId} (hi : i ≠ rootId) {n : Live L}
    (h : d.find? i = some n) {tag : String} (ht : n.tag? = some tag) (cs : List (Live L)) :
    (d.edit i fun p => [p.withChildren cs]).childrenOf i = cs := by
  rw [childrenOf, if_neg hi, find?_edit (by intro l; cases l <;> rfl) h]
  cases n with
  | text => cases ht
  | element => rfl

/-- The nodes below the root or below an element after a patch are what patching makes of the nodes
that were there, and so is what was counted. -/
theorem reconcile_eq_byName (d : Document L) (parent : NodeId) (new : List Node)
    (h : parent = rootId ∨ (d.tag? parent).isSome) :
    ((d.reconcile parent new).2.nodesOf parent, (d.reconcile parent new).1) =
      Node.patchAll AttrPatch.byName (d.nodesOf parent) new := by
  unfold reconcile nodesOf
  split_ifs with hr
  · subst hr
    exact Live.nodes_patchAll d.next d.children new
  · obtain ⟨tag, htag⟩ := Option.isSome_iff_exists.1 (h.resolve_left hr)
    rw [← Live.nodes_patchAll d.next, htag]
    rw [tag?, if_neg hr, Option.bind_eq_some_iff] at htag
    obtain ⟨n, hn, htag⟩ := htag
    exact congrArg (Live.nodes ·, _) (d.childrenOf_edit hr hn htag _)

end Document

end LiveMarkup
