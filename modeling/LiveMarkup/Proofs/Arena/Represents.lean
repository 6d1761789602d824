import LiveMarkup.Proofs.Arena.Bind
import LiveMarkup.Proofs.Arena.Focus
import LiveMarkup.Proofs.Arena.Patch
import LiveMarkup.Proofs.Document.Counterpart

/-!
# Arenas and documents

An arena represents a document if it has just the cells of its tree and gives out the same identity
next.  Each operation then answers the same in both and leaves them so.  If the node that an
operation is about is in the tree, the tree is opened around it, and what the operation does to its
cells is what the edit does to the tree.
-/

namespace LiveMarkup

namespace Arena

open Live (fan cellsAll)

variable {L : Type}

/-- Whether an arena keeps the tree of a document. -/
def Represents (a : Arena L) (d : Document L) : Prop := a.Holds d.next d.cells

theorem represents_empty : (empty : Arena L).Represents .empty where
  next_eq := rfl
  nodup := List.nodup_singleton _
  mem c hc := by
    rw [List.mem_singleton.1 hc]
    exact ⟨Nat.zero_lt_one, Std.TreeMap.getElem?_insert_self, rfl⟩
  not_mem i hi := by
    have hne : i ≠ rootId := fun e => hi (e ▸ List.mem_cons_self)
    exact ⟨(getElem?_insert_ne _ hne _).trans Std.TreeMap.getElem?_emptyc,
      Std.TreeMap.getElem?_emptyc⟩

namespace Represents

variable {a : Arena L} {d : Document L} {i p : NodeId} {k : NodeKind}

/-! ### Reading -/

theorem nodup (h : a.Represents d) : (rootId :: d.ids).Nodup := by
  have hnd := Holds.nodup h
  rwa [Document.map_id_cells] at hnd

theorem contains_iff (h : a.Represents d) : a.contains i = true ↔ i = rootId ∨ i ∈ d.ids := by
  rw [Holds.contains_iff h, Document.map_id_cells, List.mem_cons]

theorem kind?_root (h : a.Represents d) : a.kind? rootId = some .root :=
  Holds.kind?_eq h List.mem_cons_self

/-- The tree can be opened around a node below the root. -/
theorem exists_focus (h : a.Represents d) (hi : i ∈ d.ids) :
    ∃ F : Live.Focus L, F.node.id = i ∧ F.kind.isText = false ∧ d.find? i = some F.node ∧
      a.Holds d.next (F.cells [F.node]) ∧ ∀ f, (d.edit i f).cells.Perm (F.cells (f F.node)) := by
  have hnd := (List.nodup_cons.1 h.nodup).2
  obtain ⟨F, hid, hk, hn, hf⟩ := Document.exists_focus hnd hi
  have hself := hf fun n => [n]
  rw [Document.edit_self] at hself
  refine ⟨F, hid, hk, ?_, Holds.perm h hself, hf⟩
  rw [← hid]
  exact Document.find?_of_mem hnd hn

theorem of_not_mem (h : a.Represents d) (hroot : i ≠ rootId) (hi : i ∉ d.ids) :
    a.nodes[i]? = none ∧ d.find? i = none := by
  have hnot : i ∉ d.cells.map Cell.id := by
    rw [Document.map_id_cells, List.mem_cons, not_or]
    exact ⟨hroot, hi⟩
  rw [← Option.not_isSome_iff_eq_none (o := d.find? i), Document.isSome_find?_iff]
  exact ⟨(Holds.not_mem h i hnot).1, hi⟩

theorem kind?_eq (h : a.Represents d) (hroot : i ≠ rootId) :
    a.kind? i = (d.find? i).map Live.kind := by
  by_cases hi : i ∈ d.ids
  · obtain ⟨F, rfl, -, hfind, hF, -⟩ := h.exists_focus hi
    rw [hfind]
    exact (hF.perm (F.cells_singleton _)).kind?_eq List.mem_cons_self
  · obtain ⟨hnodes, hfind⟩ := h.of_not_mem hroot hi
    rw [hfind, Arena.kind?, hnodes]
    rfl

theorem text?_eq (h : a.Represents d) : d.text? i = (a.kind? i).bind NodeKind.text? := by
  unfold Document.text?
  split_ifs with hroot
  · rw [hroot, h.kind?_root]
    rfl
  · rw [h.kind?_eq hroot]
    rcases d.find? i with _ | n
    · rfl
    · cases n <;> rfl

theorem tag?_eq (h : a.Represents d) : d.tag? i = (a.kind? i).bind NodeKind.tag? := by
  unfold Document.tag?
  split_ifs with hroot
  · rw [hroot, h.kind?_root]
    rfl
  · rw [h.kind?_eq hroot]
    rcases d.find? i with _ | n
    · rfl
    · cases n <;> rfl

theorem attribute?_eq (h : a.Represents d) (name : String) :
    d.attribute? i name = a.attribute? i name := by
  unfold Document.attribute? Document.attrs Arena.attribute? Arena.attrs
  split_ifs with hroot
  · rw [hroot, h.kind?_root]
    rfl
  · rw [h.kind?_eq hroot]
    rcases d.find? i with _ | n
    · rfl
    · cases n <;> rfl

theorem ne_root (h : a.Represents d) (hk : a.kind? i = some k) (hne : k ≠ .root) : i ≠ rootId := by
  rintro rfl
  rw [h.kind?_root] at hk
  cases hk
  exact hne rfl

theorem eq_root (h : a.Represents d) (hk : a.kind? i = some .root) : i = rootId := by
  by_contra hroot
  rw [h.kind?_eq hroot] at hk
  obtain ⟨n, -, hn⟩ := Option.map_eq_some_iff.1 hk
  cases n <;> cases hn

/-- The tree can be opened around a node that is not the root. -/
theorem exists_focus_of_kind? (h : a.Represents d) (hk : a.kind? i = some k) (hne : k ≠ .root) :
    ∃ (F : Live.Focus L) (n : Live L), n.id = i ∧ n.kind = k ∧ F.kind.isText = false ∧
      d.find? i = some n ∧
      a.Holds d.next (F.cells [n]) ∧ ∀ f, (d.edit i f).cells.Perm (F.cells (f n)) := by
  have hroot := h.ne_root hk hne
  rw [h.kind?_eq hroot] at hk
  obtain ⟨n, hn, rfl⟩ := Option.map_eq_some_iff.1 hk
  have hi : i ∈ d.ids := Document.isSome_find?_iff.1 (by rw [hn]; rfl)
  obtain ⟨F, hid, hF, hfind, hrest⟩ := h.exists_focus hi
  rw [hn] at hfind
  cases hfind
  exact ⟨F, F.node, hid, rfl, hF, hn, hrest⟩

theorem exists_focus_of_text (h : a.Represents d) {t : String} (hk : a.kind? i = some (.text t)) :
    ∃ (F : Live.Focus L) (ls : Listeners L), a.Holds d.next
      (⟨i, ⟨.text t, some F.parent, []⟩, ls⟩ :: F.beside i) ∧
      ∀ f, (d.edit i f).cells.Perm (F.cells (f (.text i ls t))) := by
  obtain ⟨F, n, hid, hkind, -, -, hF, hf⟩ := h.exists_focus_of_kind? hk (by simp)
  cases n with
  | text j ls t' =>
    cases hid
    cases hkind
    exact ⟨F, ls, hF.perm (F.cells_singleton _), hf⟩
  | element j ls tag as cs => cases hkind

theorem exists_focus_of_element (h : a.Represents d) {tag : String} {as : List Attr}
    (hk : a.kind? i = some (.element tag as)) :
    ∃ (F : Live.Focus L) (ls : Listeners L) (cs : List (Live L)),
      d.find? i = some (.element i ls tag as cs) ∧
      a.Holds d.next (fan i (.element tag as) (some F.parent) ls cs ++ F.beside i) ∧
      ∀ f, (d.edit i f).cells.Perm (F.cells (f (.element i ls tag as cs))) := by
  obtain ⟨F, n, hid, hkind, -, hfind, hF, hf⟩ := h.exists_focus_of_kind? hk (by simp)
  cases n with
  | text j ls t => cases hkind
  | element j ls tag' as' cs =>
    cases hid
    cases hkind
    exact ⟨F, ls, cs, hfind, hF.perm (F.cells_singleton _), hf⟩

end Represents

end Arena

end LiveMarkup
