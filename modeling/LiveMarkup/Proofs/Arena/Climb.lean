import LiveMarkup.Proofs.Arena.WellFormed

/-!
# Climbing to the root

A walk that goes on from each node to the one above it ends where there is none.  Nothing bounds
such a walk but the tree: `Climbs up i path` says that it does end, having met just the nodes of
`path`, and then it met none of them twice (`Climbs.nodup`).  In an arena that represents a document
a walk from any node of the tree ends at the root (`Represents.exists_climb`), and the listeners
that an event meets on its way are those of the nodes of this walk.
-/

namespace LiveMarkup

/-- Whether the walk from a node that goes on to what `up` gives meets the nodes of a list, one
after the other, and ends behind the last one. -/
inductive Climbs (up : NodeId → Option NodeId) : NodeId → List NodeId → Prop
  | last {i : NodeId} : up i = none → Climbs up i [i]
  | step {i p : NodeId} {path : List NodeId} :
      up i = some p → Climbs up p path → Climbs up i (i :: path)

namespace Climbs

variable {up : NodeId → Option NodeId} {i j : NodeId} {path path' : List NodeId}

theorem unique (h : Climbs up i path) (h' : Climbs up i path') : path' = path := by
  induction h generalizing path' with
  | last hnone =>
    cases h' with
    | last => rfl
    | step hsome _ =>
      rw [hnone] at hsome
      cases hsome
  | step hsome _ ih =>
    cases h' with
    | last hnone =>
      rw [hsome] at hnone
      cases hnone
    | step hsome' hrest =>
      rw [hsome] at hsome'
      cases hsome'
      rw [ih hrest]

/-- From a node that a walk meets the walk goes on as one that starts there. -/
theorem exists_of_mem (h : Climbs up i path) (hj : j ∈ path) : ∃ rest, Climbs up j rest ∧
    rest <:+ path := by
  induction h with
  | last hnone =>
    rw [List.mem_singleton] at hj
    subst hj
    exact ⟨_, .last hnone, List.suffix_refl _⟩
  | @step i p path hsome hrest ih =>
    rcases List.mem_cons.1 hj with rfl | hj
    · exact ⟨_, .step hsome hrest, List.suffix_refl _⟩
    · obtain ⟨rest, hclimbs, hsuffix⟩ := ih hj
      exact ⟨rest, hclimbs, hsuffix.trans (List.suffix_cons i path)⟩

/-- A walk that ends met no node twice: from there it would have gone on as it did before. -/
theorem nodup (h : Climbs up i path) : path.Nodup := by
  induction h with
  | last => exact List.nodup_singleton _
  | @step i p path hsome hrest ih =>
    refine List.nodup_cons.2 ⟨fun hmem => ?_, ih⟩
    obtain ⟨rest, hclimbs, hsuffix⟩ := hrest.exists_of_mem hmem
    have hlength := hsuffix.length_le
    rw [hclimbs.unique (.step hsome hrest) |>.symm, List.length_cons] at hlength
    omega

theorem head?_eq (h : Climbs up i path) : path.head? = some i := by cases h <;> rfl

theorem up_eq (h : Climbs up i (i :: j :: path)) : up i = some j := by
  cases h with
  | step hsome hrest =>
    have hhead := hrest.head?_eq
    cases hhead
    exact hsome

end Climbs

namespace Arena

variable {L : Type} {a : Arena L} {d : Document L} {i : NodeId}

namespace Represents

/-! ### The path to a node -/

mutual

theorem climbs_of_pathTo? (h : a.Represents d) {p : NodeId} {above path : List (Live L)} :
    (l : Live L) →
    Live.Hangs rootId d.children p l → Climbs a.parent? p (above.map Live.id ++ [rootId]) →
    l.pathTo? i above = some path → Climbs a.parent? i (path.map Live.id ++ [rootId])
  | .text j ls t, hl, habove, hpath => by
    rw [Live.pathTo?] at hpath
    split_ifs at hpath with hj
    cases hpath
    subst hj
    exact .step (h.parent?_hangs hl) habove
  | .element j ls tag as cs, hl, habove, hpath => by
    have hstep : Climbs a.parent? j ((.element j ls tag as cs :: above).map Live.id ++ [rootId]) :=
      .step (h.parent?_hangs hl) habove
    rw [Live.pathTo?] at hpath
    split_ifs at hpath with hj
    · cases hpath
      subst hj
      exact hstep
    · exact h.climbs_of_pathIn? cs (fun c hc => .step hl hc) hstep hpath

/-- A path that was found below a node leads on to the root as a walk from that node does. -/
theorem climbs_of_pathIn? (h : a.Represents d) {p : NodeId} {above path : List (Live L)} :
    (ls : List (Live L)) →
    (∀ l ∈ ls, Live.Hangs rootId d.children p l) → Climbs a.parent? p
      (above.map Live.id ++ [rootId]) →
    Live.pathIn? i above ls = some path → Climbs a.parent? i (path.map Live.id ++ [rootId])
  | [], _, _, hpath => by cases hpath
  | l :: ls, hls, habove, hpath => by
    rw [Live.pathIn?_cons, Option.or_eq_some_iff] at hpath
    rcases hpath with hpath | ⟨-, hpath⟩
    · exact h.climbs_of_pathTo? l (hls l List.mem_cons_self) habove hpath
    · exact h.climbs_of_pathIn? ls (fun l' hl' => hls l' (List.mem_cons_of_mem _ hl')) habove hpath

end

theorem climbs_root (h : a.Represents d) : Climbs a.parent? rootId [rootId] :=
  .last (Holds.parent?_eq h List.mem_cons_self)

theorem climbs_of_path? (h : a.Represents d) {path : List (Live L)}
    (hpath : d.path? i = some path) :
    Climbs a.parent? i (path.map Live.id ++ [rootId]) := by
  have hroot : Climbs a.parent? rootId (([] : List (Live L)).map Live.id ++ [rootId]) :=
    h.climbs_root
  exact h.climbs_of_pathIn? d.children (fun _ hl => .top hl) hroot hpath

theorem parent?_eq (h : a.Represents d) : d.parent? i = a.parent? i := by
  unfold Document.parent?
  split_ifs with hroot
  · rw [hroot, Holds.parent?_eq h List.mem_cons_self]
  · rcases hpath : d.path? i with _ | path
    · have hnot : i ∉ d.ids := by
        rw [← Document.isSome_find?_iff, Document.find?, hpath]
        simp
      rw [Arena.parent?, (h.of_not_mem hroot hnot).1]
      rfl
    · obtain ⟨⟨n, rest, rfl, rfl⟩, -⟩ := Document.mem_of_path? hpath
      have hclimbs := h.climbs_of_path? hpath
      -- the walk goes on at the next node of the path, or at the root behind its end
      cases rest with
      | nil => exact hclimbs.up_eq.symm
      | cons p rest => exact hclimbs.up_eq.symm

/-! ### Listeners on the way -/

theorem listenersOf_eq (h : a.Represents d) : d.listenersOf i = a.listenersOf i := by
  unfold Document.listenersOf
  split_ifs with hroot
  · rw [hroot]
    exact (Holds.mem h _ List.mem_cons_self).2.2.symm
  · by_cases hi : i ∈ d.ids
    · obtain ⟨F, rfl, -, hfind, hF, -⟩ := h.exists_focus hi
      rw [hfind]
      exact ((hF.perm (F.cells_singleton _)).mem _ List.mem_cons_self).2.2.symm
    · have hnot : i ∉ d.cells.map Cell.id := by
        rw [Document.map_id_cells, List.mem_cons, not_or]
        exact ⟨hroot, hi⟩
      rw [(h.of_not_mem hroot hi).2, Arena.listenersOf, (Holds.not_mem h i hnot).2]
      rfl

theorem listenersFor_node (h : a.Represents d) {n : Live L} (hn : n ∈ Live.subtrees d.children)
    (kind : String) :
    d.listenersFor n.id kind = (n.listeners.filter fun kl => kl.1 == kind).map Prod.snd := by
  obtain ⟨hroot, hnd⟩ := List.nodup_cons.1 h.nodup
  have hne : n.id ≠ rootId := fun e => hroot (e ▸ List.mem_map_of_mem hn)
  rw [Document.listenersFor, Document.listenersOf, if_neg hne, Document.find?_of_mem hnd hn]
  rfl

/-- From each node in the tree a walk leads up to the root, and an event that is dispatched there
meets the listeners of the nodes on the way. -/
theorem exists_climb (h : a.Represents d) (hi : d.contains i = true) :
    ∃ path, Climbs a.parent? i path ∧ path.getLast? = some rootId ∧
      ∀ kind, d.bubbling? i kind = some (path.flatMap fun j => d.listenersFor j kind) := by
  by_cases hroot : i = rootId
  · subst hroot
    exact ⟨[rootId], h.climbs_root, rfl,
      fun kind => by simp [Document.bubbling?, Document.listenersFor,
      Document.listenersOf]⟩
  · have hsome : (d.path? i).isSome := by
      rw [Document.path?, Live.isSome_pathIn?_iff]
      exact (Document.contains_iff.1 hi).resolve_left hroot
    obtain ⟨path, hpath⟩ := Option.isSome_iff_exists.1 hsome
    refine ⟨_, h.climbs_of_path? hpath, List.getLast?_concat .., fun kind => ?_⟩
    have hmem := (Document.mem_of_path? hpath).2
    rw [Document.bubbling?, if_neg hroot, hpath, List.flatMap_append, List.flatMap_map]
    have hpathEq : (path.flatMap fun n => d.listenersFor n.id kind) =
        path.flatMap fun n => (n.listeners.filter fun kl => kl.1 == kind).map Prod.snd :=
      List.flatMap_congr fun n hn => h.listenersFor_node (hmem n hn) kind
    rw [hpathEq]
    simp [Document.listenersFor, Document.listenersOf]

end Represents

end Arena

end LiveMarkup
