import LiveMarkup.Document.Binder
import LiveMarkup.Document.Patch
import LiveMarkup.Proofs.Document.Bound

/-!
# Identities under operations

Whatever an operation does to a document, a node that is in it afterwards was in it before or has
got an identity that was not given out before (`Document.Grows`).  This can be said of runs of
operations too, so an identity that is gone does not come back (`Document.Grows.gone`).  All
operations but two change the tree by `Live.editIn`, which puts other nodes in the place of one; so
it is enough to look at what these bring in.
-/

namespace LiveMarkup

namespace Live

variable {L : Type} {i j : NodeId} {f : Live L → List (Live L)}

theorem subtrees_append (ts ts' : List (Live L)) :
    subtrees (ts ++ ts') = subtrees ts ++ subtrees ts' := by
  induction ts with
  | nil => rfl
  | cons t ts ih => rw [List.cons_append, subtrees_cons, subtrees_cons, ih, List.append_assoc]

theorem subtrees_singleton (n : Live L) : subtrees [n] = n.subtree := by
  rw [subtrees_cons, subtrees_nil, List.append_nil]

theorem subtree_eq (n : Live L) : n.subtree = n :: subtrees n.children := by
  cases n <;> rfl

theorem ids_eq (n : Live L) : n.ids = n.id :: (subtrees n.children).map id := by
  cases n <;> rfl

section Plant

variable {next next' : NodeId} {n : Node} {l : Live L}

theorem le_plant (hl : plant next n = (l, next')) : next ≤ next' := by
  have hrenewed := renewed_plant (L := L) next n
  rw [hl] at hrenewed
  exact hrenewed.le

/-- Planted nodes have identities that were not given out before. -/
theorem le_of_mem_plant (hl : plant next n = (l, next')) (hi : i ∈ l.ids) : next ≤ i := by
  have hrenewed := renewed_plant (L := L) next n
  rw [hl] at hrenewed
  rcases hrenewed.id_cases hi with hold | ⟨hle, -⟩
  · cases hold
  · exact hle

end Plant

mutual

theorem subtree_subset {n : Live L} : (l : Live L) → n ∈ l.subtree → n.subtree ⊆ l.subtree
  | text k ls t, h => by
    rw [subtree_text, List.mem_singleton] at h
    rw [h]
    exact List.Subset.refl _
  | element k ls tag as cs, h => by
    rcases List.mem_cons.1 h with rfl | h
    · exact List.Subset.refl _
    · exact List.subset_cons_of_subset _ (subtree_subset_of_mem cs h)

/-- What is below a node in some trees is in them. -/
theorem subtree_subset_of_mem {n : Live L} :
    (ts : List (Live L)) → n ∈ subtrees ts → n.subtree ⊆ subtrees ts
  | [], h => by cases h
  | t :: ts, h => by
    rw [subtrees_cons] at h ⊢
    rcases List.mem_append.1 h with h | h
    · exact List.subset_append_of_subset_left _ (subtree_subset t h)
    · exact List.subset_append_of_subset_right _ (subtree_subset_of_mem ts h)

end

mutual

theorem mem_ids_edit : (l : Live L) → i ∈ (subtrees (l.edit j f)).map id →
    i ∈ l.ids ∨ ∃ n ∈ l.subtree, n.id = j ∧ i ∈ (subtrees (f n)).map id
  | text k ls t, h => by
    rw [edit] at h
    split_ifs at h with hk
    · exact Or.inr ⟨_, List.mem_cons_self, hk, h⟩
    · exact Or.inl h
  | element k ls tag as cs, h => by
    rw [edit] at h
    split_ifs at h with hk
    · exact Or.inr ⟨_, List.mem_cons_self, hk, h⟩
    · rw [subtrees_singleton, subtree_element, List.map_cons, List.mem_cons] at h
      rcases h with h | h
      · exact Or.inl (h ▸ List.mem_cons_self)
      · rcases mem_ids_editIn cs h with h | ⟨n, hn, hrest⟩
        · exact Or.inl (List.mem_cons_of_mem _ h)
        · exact Or.inr ⟨n, List.mem_cons_of_mem _ hn, hrest⟩

/-- An identity that is in some trees after an edit was in them before or was brought in. -/
theorem mem_ids_editIn : (ts : List (Live L)) → i ∈ (subtrees (editIn j f ts)).map id →
    i ∈ (subtrees ts).map id ∨ ∃ n ∈ subtrees ts, n.id = j ∧ i ∈ (subtrees (f n)).map id
  | [], h => Or.inl h
  | t :: ts, h => by
    rw [editIn, subtrees_append, List.map_append] at h
    rw [subtrees_cons, List.map_append]
    rcases List.mem_append.1 h with h | h
    · rcases mem_ids_edit t h with h | ⟨n, hn, hrest⟩
      · exact Or.inl (List.mem_append_left _ h)
      · exact Or.inr ⟨n, List.mem_append_left _ hn, hrest⟩
    · rcases mem_ids_editIn ts h with h | ⟨n, hn, hrest⟩
      · exact Or.inl (List.mem_append_right _ h)
      · exact Or.inr ⟨n, List.mem_append_right _ hn, hrest⟩

end

end Live

namespace Document

variable {L : Type} {d d' d'' : Document L} {n : Live L} {i : NodeId}

/-- Whether each node of a document is one of another document or has got an identity that was not
given out then. -/
structure Grows (d d' : Document L) : Prop where
  next_le : d.next ≤ d'.next
  old_or_fresh : ∀ i ∈ d'.ids, i ∈ d.ids ∨ d.next ≤ i

namespace Grows

theorem refl (d : Document L) : d.Grows d := ⟨Nat.le_refl _, fun _ hi => Or.inl hi⟩

theorem trans (h : d.Grows d') (h' : d'.Grows d'') : d.Grows d'' where
  next_le := Nat.le_trans h.next_le h'.next_le
  old_or_fresh i hi := by
    rcases h'.old_or_fresh i hi with hi | hi
    · exact h.old_or_fresh i hi
    · exact Or.inr (Nat.le_trans h.next_le hi)

/-- An identity that was given out and is gone does not come back. -/
theorem gone (h : d.Grows d') (hi : i < d.next) (hnot : i ∉ d.ids) : i ∉ d'.ids := by
  intro hmem
  rcases h.old_or_fresh i hmem with hold | hfresh
  · exact hnot hold
  · exact Nat.not_le_of_lt hi hfresh

end Grows

/-- An edit brings in what is put in the place of a node. -/
theorem grows_edit {f : Live L → List (Live L)} {next : NodeId} (hle : d.next ≤ next)
    (hf : ∀ n ∈ Live.subtrees d.children, ∀ i ∈ (Live.subtrees (f n)).map Live.id,
      i ∈ d.ids ∨ d.next ≤ i)
    (j : NodeId) : d.Grows { d.edit j f with next := next } where
  next_le := hle
  old_or_fresh i hi := by
    rcases Live.mem_ids_editIn d.children hi with hi | ⟨n, hn, -, hi⟩
    · exact Or.inl hi
    · exact hf n hn i hi

theorem subset_ids (hn : n ∈ Live.subtrees d.children) : n.ids ⊆ d.ids :=
  List.map_subset _ (Live.subtree_subset_of_mem _ hn)

/-- A node that keeps its identity and what is below it brings nothing in. -/
theorem grows_edit_self {f : Live L → Live L} (hf : ∀ n, (f n).ids ⊆ n.ids) (j : NodeId) :
    d.Grows (d.edit j fun n => [f n]) := by
  refine grows_edit (f := fun n => [f n]) (Nat.le_refl _) (fun n hn i hi => Or.inl ?_) j
  rw [Live.subtrees_singleton] at hi
  exact subset_ids hn (hf n hi)

theorem subset_ids_children (hn : n ∈ Live.subtrees d.children) :
    (Live.subtrees n.children).map Live.id ⊆ d.ids := by
  have hsub := subset_ids hn
  rw [Live.ids_eq] at hsub
  exact List.subset_of_cons_subset hsub

theorem ids_withChildren_subset (ts : List (Live L)) (n : Live L) :
    (n.withChildren ts).ids ⊆ n.id :: (Live.subtrees ts).map Live.id := by
  cases n with
  | text i ls t => exact List.cons_subset_cons _ (List.nil_subset _)
  | element i ls tag as cs => exact List.Subset.refl _

theorem mem_ids_insertAt {index : Nat} {l : Live L} {ts : List (Live L)}
    (hi : i ∈ (Live.subtrees (insertAt index l ts)).map Live.id) :
    i ∈ l.ids ∨ i ∈ (Live.subtrees ts).map Live.id := by
  have hts : Live.subtrees ts = Live.subtrees (ts.take index) ++ Live.subtrees (ts.drop index) := by
    rw [← Live.subtrees_append, List.take_append_drop]
  rw [insertAt, Live.subtrees_append, Live.subtrees_cons] at hi
  rw [hts]
  simp only [List.map_append, List.mem_append] at hi ⊢
  rcases hi with hi | hi | hi
  · exact Or.inr (Or.inl hi)
  · exact Or.inl hi
  · exact Or.inr (Or.inr hi)

theorem grows_insert (p : NodeId) (index : Nat) (n : Node) : d.Grows (d.insert p index n).2 := by
  rcases hl : Live.plant (L := L) d.next n with ⟨l, next⟩
  have hle := Live.le_plant hl
  rw [insert, hl]
  dsimp only
  split_ifs
  · refine ⟨hle, fun i hi => ?_⟩
    rcases mem_ids_insertAt hi with hi | hi
    · exact Or.inr (Live.le_of_mem_plant hl hi)
    · exact Or.inl hi
  · split
    · refine grows_edit (f := fun p => [p.withChildren (insertAt index l p.children)]) hle
        (fun n hn i hi => ?_) p
      rw [Live.subtrees_singleton] at hi
      rcases List.mem_cons.1 (ids_withChildren_subset _ n hi) with rfl | hi
      · exact Or.inl (List.mem_map_of_mem hn)
      · rcases mem_ids_insertAt hi with hi | hi
        · exact Or.inr (Live.le_of_mem_plant hl hi)
        · exact Or.inl (subset_ids_children hn hi)
    · exact .refl d

theorem grows_replace (old : NodeId) (n : Node) : d.Grows (d.replace old n).2 := by
  rcases hl : Live.plant (L := L) d.next n with ⟨l, next⟩
  have hle := Live.le_plant hl
  rw [replace]
  split
  · rw [hl]
    refine grows_edit (f := fun _ => [l]) hle (fun n hn i hi => Or.inr ?_) old
    rw [Live.subtrees_singleton] at hi
    exact Live.le_of_mem_plant hl hi
  · exact .refl d

theorem grows_remove (i : NodeId) : d.Grows (d.remove i).2 := by
  rw [remove]
  split
  · exact grows_edit (f := fun _ => []) (Nat.le_refl _) (fun n hn i hi => by cases hi) i
  · exact .refl d

theorem grows_setText (i : NodeId) (value : String) : d.Grows (d.setText i value).2 := by
  rw [setText]
  split
  · refine grows_edit_self (f := fun n => .text n.id n.listeners value) (fun n => ?_) i
    rw [Live.ids_eq, Live.ids_eq]
    exact List.cons_subset_cons _ (List.nil_subset _)
  · exact .refl d

theorem ids_withAttrs_subset (as : List Attr) (n : Live L) : (n.withAttrs as).ids ⊆ n.ids := by
  cases n <;> exact List.Subset.refl _

theorem grows_setAttribute (i : NodeId) (name value : String) :
    d.Grows (d.setAttribute i name value) := by
  rw [setAttribute]
  split
  · exact grows_edit_self (fun n => ids_withAttrs_subset _ n) i
  · exact .refl d

theorem grows_removeAttribute (i : NodeId) (name : String) :
    d.Grows (d.removeAttribute i name).2 := by
  rw [removeAttribute]
  split
  · exact grows_edit_self (fun n => ids_withAttrs_subset _ n) i
  · exact .refl d

theorem grows_addListener (i : NodeId) (kind : String) (l : L) :
    d.Grows (d.addListener i kind l).2 := by
  rw [addListener]
  split_ifs
  · exact ⟨Nat.le_refl _, fun _ hi => Or.inl hi⟩
  · split
    · refine grows_edit_self (fun n => ?_) i
      cases n <;> exact List.Subset.refl _
    · exact .refl d

theorem grows_reconcile (p : NodeId) (new : List Node) : d.Grows (d.reconcile p new).2 := by
  have hpatch := Live.renewed_patchAll d.next (d.childrenOf p) new
  rw [reconcile]
  split_ifs with hroot
  · rw [childrenOf, if_pos hroot] at hpatch
    refine ⟨hpatch.le, fun i hi => ?_⟩
    exact (hpatch.id_cases hi).imp_right And.left
  · split
    · next tag htag =>
      rw [tag?, if_neg hroot] at htag
      obtain ⟨m, hm, -⟩ := Option.bind_eq_some_iff.1 htag
      have hchildren : d.childrenOf p = m.children := by
        rw [childrenOf, if_neg hroot, hm]
        rfl
      have hsub := subset_ids_children (mem_of_find? hm).1
      rw [← hchildren] at hsub
      refine grows_edit (f := fun p' => [p'.withChildren _]) hpatch.le (fun n hn i hi => ?_) p
      rw [Live.subtrees_singleton] at hi
      rcases List.mem_cons.1 (ids_withChildren_subset _ n hi) with rfl | hi
      · exact Or.inl (List.mem_map_of_mem hn)
      · exact (hpatch.id_cases hi).imp (fun hi => hsub hi) And.left
    · exact .refl d

theorem grows_bind (r : Registry) (make : String → String → L) : d.Grows (d.bind r make).2.1 where
  next_le := Nat.le_refl _
  old_or_fresh _ hi := Or.inl (d.ids_bind r make ▸ hi)

end Document

end LiveMarkup
