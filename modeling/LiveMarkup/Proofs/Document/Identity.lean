import LiveMarkup.Document.Patch
import LiveMarkup.Proofs.Document.PatchTree

/-!
# Identities under a patch

A patch keeps some nodes and plants others.  `Live.Renewed next old next' new` says what this means
for the nodes of two trees in preorder: a node of `new` is one of `old`, with its identity and its
listeners, or it got an identity from `next` to `next'` and has no listeners yet.  So identities
stay distinct, and one that is gone does not come back (`Live.renewed_patchAll`).
`Live.mem_of_pathIn?` and `Live.isSome_pathIn?_iff` tie looking up an identity to the nodes of the
tree.
-/

namespace LiveMarkup

namespace Live

variable {L : Type}

/-- What may become of the nodes of a tree, both trees in preorder, while identities from `next` to
`next'` are given out. -/
structure Renewed (next : NodeId) (old : List (Live L)) (next' : NodeId)
    (new : List (Live L)) : Prop where
  le : next ≤ next'
  kept_or_fresh : ∀ n ∈ new, (∃ o ∈ old, o.id = n.id ∧ o.listeners = n.listeners) ∨
    (next ≤ n.id ∧ n.id < next' ∧ n.listeners = [])
  nodup : (old.map id).Nodup → (∀ o ∈ old, o.id < next) → (new.map id).Nodup

namespace Renewed

variable {next next' next'' : NodeId} {old old' new new' : List (Live L)} {o n : Live L}

/-- An identity is an old one or one that was given out. -/
theorem id_cases (h : Renewed next old next' new) {i : NodeId} (hi : i ∈ new.map id) :
    i ∈ old.map id ∨ (next ≤ i ∧ i < next') := by
  obtain ⟨n, hn, rfl⟩ := List.mem_map.1 hi
  rcases h.kept_or_fresh n hn with ⟨o, ho, hid, -⟩ | ⟨hle, hlt, -⟩
  · left
    rw [← hid]
    exact List.mem_map_of_mem ho
  · exact Or.inr ⟨hle, hlt⟩

/-- All nodes may stay. -/
theorem refl (next : NodeId) (ns : List (Live L)) : Renewed next ns next ns where
  le := Nat.le_refl next
  kept_or_fresh n hn := Or.inl ⟨n, hn, rfl, rfl⟩
  nodup hnd _ := hnd

/-- All nodes may be removed. -/
theorem nil (next : NodeId) (old : List (Live L)) : Renewed next old next [] where
  le := Nat.le_refl next
  kept_or_fresh := by simp
  nodup := by simp

/-- Planted nodes may stand in the place of any others. -/
theorem replace (h : Renewed next [] next' new) (old : List (Live L)) :
    Renewed next old next' new where
  le := h.le
  kept_or_fresh n hn := by
    rcases h.kept_or_fresh n hn with ⟨o, ho, -⟩ | hfresh
    · cases ho
    · exact Or.inr hfresh
  nodup _ _ := h.nodup (by simp) (by simp)

/-- A node is planted with what is below it. -/
theorem fresh (h : Renewed (next + 1) [] next' new) (hid : n.id = next) (hl : n.listeners = []) :
    Renewed next [] next' (n :: new) where
  le := by
    have hle := h.le
    lia
  kept_or_fresh m hm := by
    have hle := h.le
    right
    rcases List.mem_cons.1 hm with rfl | hm
    · exact ⟨by lia, by lia, hl⟩
    · rcases h.kept_or_fresh m hm with ⟨o, ho, -⟩ | ⟨hge, hlt, hm⟩
      · cases ho
      · exact ⟨by lia, hlt, hm⟩
  nodup _ _ := by
    rw [List.map_cons, List.nodup_cons, hid]
    refine ⟨fun hmem => ?_, h.nodup (by simp) (by simp)⟩
    rcases h.id_cases hmem with hold | hnew
    · cases hold
    · lia

/-- A node stays, whatever happens below it. -/
theorem keep (h : Renewed next old next' new) (hid : o.id = n.id) (hl : o.listeners = n.listeners) :
    Renewed next (o :: old) next' (n :: new) where
  le := h.le
  kept_or_fresh m hm := by
    rcases List.mem_cons.1 hm with rfl | hm
    · exact Or.inl ⟨o, List.mem_cons_self, hid, hl⟩
    · rcases h.kept_or_fresh m hm with ⟨o', ho', heq⟩ | hfresh
      · exact Or.inl ⟨o', List.mem_cons_of_mem _ ho', heq⟩
      · exact Or.inr hfresh
  nodup hnd hlt := by
    rw [List.map_cons, List.nodup_cons] at hnd ⊢
    refine ⟨fun hmem => ?_, h.nodup hnd.2 fun o' ho' => hlt o' (List.mem_cons_of_mem _ ho')⟩
    rw [← hid] at hmem
    rcases h.id_cases hmem with hold | hnew
    · exact hnd.1 hold
    · have := hlt o List.mem_cons_self
      lia

/-- What happens to two groups of nodes, one after the other. -/
theorem append (h : Renewed next old next' new) (h' : Renewed next' old' next'' new') :
    Renewed next (old ++ old') next'' (new ++ new') where
  le := Nat.le_trans h.le h'.le
  kept_or_fresh n hn := by
    have hle := h.le
    have hle' := h'.le
    rcases List.mem_append.1 hn with hn | hn
    · rcases h.kept_or_fresh n hn with ⟨o, ho, heq⟩ | ⟨hge, hlt, hl⟩
      · exact Or.inl ⟨o, List.mem_append_left _ ho, heq⟩
      · exact Or.inr ⟨hge, by lia, hl⟩
    · rcases h'.kept_or_fresh n hn with ⟨o, ho, heq⟩ | ⟨hge, hlt, hl⟩
      · exact Or.inl ⟨o, List.mem_append_right _ ho, heq⟩
      · exact Or.inr ⟨by lia, hlt, hl⟩
  nodup hnd hlt := by
    have hle := h.le
    rw [List.map_append, List.nodup_append] at hnd
    obtain ⟨hold, hold', hdisj⟩ := hnd
    have hlt' : ∀ o ∈ old', o.id < next := fun o ho => hlt o (List.mem_append_right _ ho)
    have hlt'' : ∀ i ∈ old'.map id, i < next := by simpa using hlt'
    have hltOld : ∀ i ∈ old.map id, i < next := by
      simpa using fun o ho => hlt o (List.mem_append_left old' ho)
    rw [List.map_append, List.nodup_append]
    refine ⟨h.nodup hold fun o ho => hlt o (List.mem_append_left _ ho),
      h'.nodup hold' fun o ho => Nat.lt_of_lt_of_le (hlt' o ho) hle, ?_⟩
    intro i hi j hj hij
    subst hij
    -- an identity on both sides would be an old one on both sides, or given out before and after
    -- `next'`
    rcases h.id_cases hi with hi | hi <;> rcases h'.id_cases hj with hj | hj
    · exact hdisj i hi i hj rfl
    · have := hltOld i hi
      lia
    · have := hlt'' i hj
      lia
    · lia

end Renewed

mutual

theorem renewed_plant (next : NodeId) : (n : Node) →
    Renewed next [] (plant next n : Live L × NodeId).2 (plant next n : Live L × NodeId).1.subtree
  | .text t => by
    rw [plant]
    exact (Renewed.nil (next + 1) []).fresh rfl rfl
  | .element tag as cs => by
    rw [plant]
    exact (renewed_plantAll (next + 1) cs).fresh rfl rfl

theorem renewed_plantAll (next : NodeId) : (ns : List Node) →
    Renewed next [] (plantAll next ns : List (Live L) × NodeId).2
      (subtrees (plantAll next ns : List (Live L) × NodeId).1)
  | [] => by
    rw [plantAll]
    exact .nil next []
  | n :: ns => by
    have hn : Renewed next [] _ (plant next n : Live L × NodeId).1.subtree := renewed_plant next n
    rw [plantAll, subtrees_cons]
    exact hn.append (renewed_plantAll _ ns)

end

mutual

theorem renewed_patch (next : NodeId) : (l : Live L) → (new : Node) →
    Renewed next l.subtree (l.patch next new).2.1 (l.patch next new).1.subtree
  | text i ls t, new => by
    rw [patch]
    split_ifs
    · exact (Renewed.nil next []).keep rfl rfl
    · exact (Renewed.nil next []).keep rfl rfl
  | element i ls tag as cs, .text t => by
    rw [patch]
    exact .refl next _
  | element i ls tag as cs, .element tag' as' cs' => by
    rw [patch]
    split_ifs
    · exact (renewed_patchAll next cs cs').keep rfl rfl
    · exact (renewed_plant next (.element tag' as' cs')).replace _

/-- Patching keeps nodes with their identities and listeners, or plants new ones. -/
theorem renewed_patchAll (next : NodeId) : (ls : List (Live L)) → (new : List Node) →
    Renewed next (subtrees ls) (patchAll next ls new).2.1 (subtrees (patchAll next ls new).1)
  | [], new => by
    rw [patchAll]
    exact renewed_plantAll next new
  | l :: ls, [] => by
    rw [patchAll]
    exact .nil next _
  | l :: ls, n :: ns => by
    rw [patchAll, subtrees_cons, subtrees_cons]
    exact (renewed_patch next l n).append (renewed_patchAll _ ls ns)

end

/-! ### Looking up an identity -/

mutual

theorem isSome_pathTo?_iff (i : NodeId) (above : List (Live L)) :
    (l : Live L) → ((l.pathTo? i above).isSome ↔ i ∈ l.ids)
  | text j ls t => by
    rw [pathTo?, ids, subtree_text]
    split_ifs with h
    · simp [id, h]
    · simp [id, Ne.symm h]
  | element j ls tag as cs => by
    rw [pathTo?, ids, subtree_element, List.map_cons, List.mem_cons, id]
    split_ifs with h
    · simp [h]
    · rw [isSome_pathIn?_iff i _ cs]
      simp [Ne.symm h]

/-- Just the identities in a tree are found. -/
theorem isSome_pathIn?_iff (i : NodeId) (above : List (Live L)) :
    (ls : List (Live L)) → ((pathIn? i above ls).isSome ↔ i ∈ (subtrees ls).map id)
  | [] => by simp [pathIn?]
  | l :: ls => by
    rw [pathIn?_cons, subtrees_cons, List.map_append, List.mem_append,
      ← isSome_pathIn?_iff i above ls, ← ids, ← isSome_pathTo?_iff i above l]
    simp

end

mutual

theorem mem_of_pathTo? {i : NodeId} {above path : List (Live L)} :
    (l : Live L) → l.pathTo? i above = some path →
    (∃ n rest, path = n :: rest ∧ n.id = i) ∧ ∀ n ∈ path, n ∈ l.subtree ∨ n ∈ above
  | text j ls t, h => by
    rw [pathTo?] at h
    split_ifs at h with hj
    cases h
    exact ⟨⟨_, _, rfl, hj⟩, by simp⟩
  | element j ls tag as cs, h => by
    rw [pathTo?] at h
    split_ifs at h with hj
    · cases h
      exact ⟨⟨_, _, rfl, hj⟩, by simp +contextual⟩
    · obtain ⟨hhead, hmem⟩ := mem_of_pathIn? cs h
      refine ⟨hhead, fun n hn => ?_⟩
      rcases hmem n hn with hn | hn
      · simp [hn]
      · rcases List.mem_cons.1 hn with rfl | hn
        · simp
        · exact Or.inr hn

/-- A path starts at the node that was looked for, and all its nodes are in the tree or above it. -/
theorem mem_of_pathIn? {i : NodeId} {above path : List (Live L)} : (ls : List (Live L)) →
    pathIn? i above ls = some path →
      (∃ n rest, path = n :: rest ∧ n.id = i) ∧ ∀ n ∈ path, n ∈ subtrees ls ∨ n ∈ above
  | [], h => by cases h
  | l :: ls, h => by
    rw [pathIn?_cons, Option.or_eq_some_iff] at h
    rw [subtrees_cons]
    rcases h with h | ⟨-, h⟩
    · obtain ⟨hhead, hmem⟩ := mem_of_pathTo? l h
      refine ⟨hhead, fun n hn => ?_⟩
      rcases hmem n hn with hn | hn
      · simp [hn]
      · exact Or.inr hn
    · obtain ⟨hhead, hmem⟩ := mem_of_pathIn? ls h
      refine ⟨hhead, fun n hn => ?_⟩
      rcases hmem n hn with hn | hn
      · simp [hn]
      · exact Or.inr hn

end

end Live

namespace Document

variable {L : Type} {d : Document L} {i : NodeId}

theorem mem_of_path? {path : List (Live L)} (h : d.path? i = some path) :
    (∃ n rest, path = n :: rest ∧ n.id = i) ∧ ∀ n ∈ path, n ∈ Live.subtrees d.children := by
  obtain ⟨hhead, hmem⟩ := Live.mem_of_pathIn? d.children h
  exact ⟨hhead, fun n hn => (hmem n hn).resolve_right (by simp)⟩

theorem mem_of_find? {n : Live L} (h : d.find? i = some n) : n ∈ Live.subtrees d.children ∧
    n.id = i := by
  unfold find? at h
  obtain ⟨path, hpath, hhead⟩ := Option.bind_eq_some_iff.1 h
  obtain ⟨⟨m, rest, rfl, hid⟩, hmem⟩ := mem_of_path? hpath
  cases hhead
  exact ⟨hmem n List.mem_cons_self, hid⟩

theorem isSome_find?_iff : (d.find? i).isSome ↔ i ∈ d.ids := by
  unfold ids
  rw [← Live.isSome_pathIn?_iff i []]
  unfold find? path?
  rcases h : Live.pathIn? i [] d.children with _ | path
  · simp
  · obtain ⟨⟨n, rest, rfl, -⟩, -⟩ := mem_of_path? h
    simp

theorem contains_iff : d.contains i = true ↔ i = rootId ∨ i ∈ d.ids := by
  unfold contains
  rw [Bool.or_eq_true, beq_iff_eq, isSome_find?_iff]

end Document

end LiveMarkup
