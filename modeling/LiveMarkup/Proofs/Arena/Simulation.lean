import LiveMarkup.Proofs.Arena.Represents

/-!
# Operations on arenas and documents

An arena that represents a document gives the same answer to each operation, and represents the
changed document afterwards.  There is one lemma for each operation.  It opens the tree where the
operation works, and if there is no such place in the tree, both leave everything as it is.
-/

namespace LiveMarkup

namespace Arena

open Live (fan cellsAll)

variable {L : Type}

namespace Represents

variable {a : Arena L} {d : Document L} {i p : NodeId}

/-! ### Operations on one node -/

/-- A node keeps its place while its own cell is changed. -/
theorem of_edit {F : Live.Focus L} {f : Live L → List (Live L)} {n : Live L} {next : NodeId}
    (hf : (d.edit i f).cells.Perm (F.cells [n]))
    (h : a.Holds next (fan n.id n.kind (some F.parent) n.listeners n.children ++ F.beside n.id)) :
    a.Represents { d.edit i f with next := next } :=
  (h.perm (F.cells_singleton n).symm).perm hf.symm

theorem setText (h : a.Represents d) (value : String) :
    (a.setText i value).1 = (d.setText i value).1 ∧ (a.setText i value).2.Represents
    (d.setText i value).2 := by
  rw [Document.setText, h.text?_eq]
  rcases hk : a.kind? i with _ | ⟨_ | ⟨tag, as⟩ | t⟩
  case some.text =>
    obtain ⟨F, ls, hopen, hf⟩ := h.exists_focus_of_text hk
    obtain ⟨hdone, hset⟩ := hopen.setText value
    exact ⟨hdone, of_edit (n := .text i ls value) (hf _) hset⟩
  all_goals
    rw [Arena.setText, hk]
    exact ⟨rfl, h⟩

theorem setAttribute (h : a.Represents d) (name value : String) :
    (a.setAttribute i name value).Represents (d.setAttribute i name value) := by
  rw [Document.setAttribute, h.tag?_eq]
  rcases hk : a.kind? i with _ | ⟨_ | ⟨tag, as⟩ | t⟩
  case some.element =>
    obtain ⟨F, ls, cs, -, hopen, hf⟩ := h.exists_focus_of_element hk
    have hset := hopen.setAttribute name value
    exact of_edit (n := .element i ls tag _ cs) (hf _) hset
  all_goals
    rw [Arena.setAttribute, hk]
    exact h

theorem removeAttribute (h : a.Represents d) (name : String) :
    (a.removeAttribute i name).1 = (d.removeAttribute i name).1 ∧
      (a.removeAttribute i name).2.Represents (d.removeAttribute i name).2 := by
  rw [Document.removeAttribute, h.attribute?_eq, attribute?, attrs]
  rcases hk : a.kind? i with _ | ⟨_ | ⟨tag, as⟩ | t⟩
  case some.element =>
    obtain ⟨F, ls, cs, -, hopen, hf⟩ := h.exists_focus_of_element hk
    obtain ⟨hvalue, hremove⟩ := hopen.removeAttribute name
    dsimp only [Option.map_some, Option.getD_some, NodeKind.attrs]
    cases hget : Attributes.get? name as with
    | none =>
      rw [Arena.removeAttribute, hk]
      dsimp only
      rw [hget]
      exact ⟨rfl, h⟩
    | some value => exact ⟨hvalue.trans hget, of_edit (n := .element i ls tag _ cs) (hf _) hremove⟩
  all_goals
    rw [Arena.removeAttribute, hk]
    exact ⟨rfl, h⟩

theorem addListener (h : a.Represents d) (kind : String) (l : L) :
    (a.addListener i kind l).1 = (d.addListener i kind l).1 ∧
      (a.addListener i kind l).2.Represents (d.addListener i kind l).2 := by
  rw [Document.addListener]
  split_ifs with hroot
  · subst hroot
    exact Holds.addListener h kind l
  · by_cases hi : i ∈ d.ids
    · obtain ⟨F, hid, -, hfind, hF, hf⟩ := h.exists_focus hi
      obtain ⟨hdone, hadd⟩ := (hF.perm (F.cells_singleton _)).addListener kind l
      rw [hid] at hdone hadd
      have hchanged : (d.edit i fun n => [n.withListeners (n.listeners ++ [(kind, l)])]).cells.Perm
          (F.cells [F.node.withListeners (F.node.listeners ++ [(kind, l)])]) := hf _
      rw [hfind]
      refine ⟨hdone, of_edit hchanged ?_⟩
      cases hn : F.node <;> rw [hn] at hid hadd <;> cases hid <;> exact hadd
    · have hnot : ¬ a.contains i = true := by
        rw [h.contains_iff, not_or]
        exact ⟨hroot, hi⟩
      rw [(h.of_not_mem hroot hi).2, Arena.addListener, if_neg hnot]
      exact ⟨rfl, h⟩

/-! ### Operations on what is below a node -/

/-- The tree can be opened at a node that may have others right below it.  Other nodes are put there
by an edit of the document, or in the place of all nodes of the document. -/
theorem exists_fan (h : a.Represents d) {k : NodeKind} (hk : a.kind? p = some k)
    (htext : k.isText = false) :
    ∃ q ls rest, a.Holds d.next (fan p k q ls (d.childrenOf p) ++ rest) ∧
      ∀ {a' : Arena L} {next ts}, a'.Holds next (fan p k q ls ts ++ rest) →
        (p = rootId → a'.Represents { d with children := ts, next := next }) ∧
        (p ≠ rootId → ∀ f : List (Live L) → List (Live L), f (d.childrenOf p) = ts →
          a'.Represents
          { d.edit p fun n => [n.withChildren (f n.children)] with next := next }) := by
  cases k with
  | text t => cases htext
  | root =>
    obtain rfl := h.eq_root hk
    refine ⟨none, d.listeners, [], ?_, fun ha' => ⟨fun _ => ?_, fun hne => absurd rfl hne⟩⟩
    · rw [List.append_nil]
      exact h
    · rw [List.append_nil] at ha'
      exact ha'
  | element tag as =>
    have hroot := h.ne_root hk (by simp)
    obtain ⟨F, ls, cs, hfind, hopen, hf⟩ := h.exists_focus_of_element hk
    have hchildren : d.childrenOf p = cs := by
      rw [Document.childrenOf, if_neg hroot, hfind]
      rfl
    rw [hchildren]
    exact ⟨some F.parent, ls, F.beside p, hopen, fun ha' => ⟨fun heq => absurd heq hroot,
      fun _ f hts => of_edit (n := .element p ls tag as _) (hf _) (hts ▸ ha')⟩⟩

/-- Whether a node may have others right below it. -/
theorem takes_cases (h : a.Represents d) (p : NodeId) :
    (∃ k, a.kind? p = some k ∧ k.isText = false ∧ (p = rootId ∨ ∃ tag, d.tag? p = some tag)) ∨
      (a.childrenOf p = [] ∧ (∀ index n, a.insert p index n = (none, a)) ∧ p ≠ rootId ∧
        d.tag? p = none) := by
  rw [h.tag?_eq]
  rcases hk : a.kind? p with _ | ⟨_ | ⟨tag, as⟩ | t⟩
  · have hnodes : a.nodes[p]? = none := Option.map_eq_none_iff.1 hk
    refine Or.inr ⟨by rw [Arena.childrenOf, hnodes]; rfl,
      fun index n => by rw [Arena.insert, hk], ?_, rfl⟩
    rintro rfl
    rw [h.kind?_root] at hk
    cases hk
  · exact Or.inl ⟨_, rfl, rfl, Or.inl (h.eq_root hk)⟩
  · exact Or.inl ⟨_, rfl, rfl, Or.inr ⟨tag, rfl⟩⟩
  · obtain ⟨F, ls, hopen, -⟩ := h.exists_focus_of_text hk
    exact Or.inr ⟨hopen.childrenOf_eq List.mem_cons_self, fun index n => by rw [Arena.insert, hk],
      h.ne_root hk (by simp), rfl⟩

theorem insert (h : a.Represents d) (index : Nat) (n : Node) :
    (a.insert p index n).1 = (d.insert p index n).1 ∧
      (a.insert p index n).2.Represents (d.insert p index n).2 := by
  rcases hl : Live.plant (L := L) d.next n with ⟨l, next'⟩
  rw [Document.insert, hl]
  dsimp only
  rcases h.takes_cases p with ⟨k, hk, htext, hp⟩ | ⟨-, hfail, hroot, htag⟩
  · obtain ⟨q, ls, rest, hopen, hclose⟩ := h.exists_fan hk htext
    obtain ⟨hnew, hinsert⟩ := hopen.insert hl htext index
    obtain ⟨hatRoot, hbelow⟩ := hclose hinsert
    rw [hnew, Live.id_plant hl]
    split_ifs with hroot
    · subst hroot
      exact ⟨rfl, hatRoot rfl⟩
    · obtain ⟨tag, htag⟩ := hp.resolve_left hroot
      rw [htag]
      exact ⟨rfl, hbelow hroot _ rfl⟩
  · rw [hfail, if_neg hroot, htag]
    exact ⟨rfl, h⟩

theorem append (h : a.Represents d) (n : Node) :
    (a.append p n).1 = (d.append p n).1 ∧ (a.append p n).2.Represents (d.append p n).2 := by
  have hinsert := h.insert (p := p) (d.childrenOf p).length n
  have happend : a.append p n = a.insert p (d.childrenOf p).length n := by
    rw [append_eq]
    rcases h.takes_cases p with ⟨k, hk, htext, -⟩ | ⟨-, hfail, -⟩
    · obtain ⟨q, ls, rest, hopen, -⟩ := h.exists_fan hk htext
      rw [hopen.childrenOf_eq List.mem_cons_self]
      dsimp only
      rw [List.length_map]
    · rw [hfail, hfail]
  rw [happend]
  exact hinsert

/-- Nothing is put below a node that takes nothing. -/
theorem appendAll_of_fail (hfail : ∀ index n, a.insert p index n = (none, a)) (ns : List Node) :
    a.appendAll p ns = (0, a) := by
  induction ns with
  | nil => rfl
  | cons n ns ih =>
    rw [appendAll, append_eq, hfail]
    dsimp only
    rw [ih]
    rfl

/-- The root is below no node. -/
theorem root_not_mem (h : a.Represents d) {q : Option NodeId} {k : NodeKind} {ls : Listeners L}
    {ts : List (Live L)} {rest : List (Cell L)} (hopen : a.Holds d.next (fan p k q ls ts ++ rest)) :
    rootId ∉ (Live.subtrees ts).map Live.id := by
  intro hmem
  obtain ⟨n, hn, hid⟩ := List.mem_map.1 hmem
  obtain ⟨parent, hcell⟩ := Live.exists_mem_cellsAll p ts hn
  have hkind := hopen.kind?_eq (List.mem_append_left _ (List.mem_cons_of_mem _ hcell))
  rw [hid, h.kind?_root] at hkind
  cases n <;> cases hkind

theorem reconcile (h : a.Represents d) (new : List Node) :
    (a.reconcile p new).1 = (d.reconcile p new).1 ∧ (a.reconcile p new).2.Represents
    (d.reconcile p new).2 := by
  rw [Document.reconcile]
  rcases h.takes_cases p with ⟨k, hk, htext, hp⟩ | ⟨hchildren, hfail, hroot, htag⟩
  · obtain ⟨q, ls, rest, hopen, hclose⟩ := h.exists_fan hk htext
    have hchildren : a.childrenOf p = (d.childrenOf p).map Live.id :=
      hopen.childrenOf_eq List.mem_cons_self
    obtain ⟨hstats, heach⟩ :=
      Holds.patchEach htext [] (d.childrenOf p) new rfl (h.root_not_mem hopen) hopen
    obtain ⟨hatRoot, hbelow⟩ := hclose heach
    rw [Arena.reconcile, hchildren]
    split_ifs with hroot
    · subst hroot
      exact ⟨hstats, hatRoot rfl⟩
    · obtain ⟨tag, htag⟩ := hp.resolve_left hroot
      rw [htag]
      exact ⟨hstats, hbelow hroot (fun _ => _) rfl⟩
  · rw [if_neg hroot, htag, Arena.reconcile, hchildren, patchEach, appendAll_of_fail hfail]
    exact ⟨rfl, h⟩

/-! ### Operations on a subtree -/

/-- A node can be taken out and replaced if it is below the root. -/
theorem below_cases (h : a.Represents d) (i : NodeId) :
    (i ≠ rootId ∧ ∃ F : Live.Focus L, F.node.id = i ∧ F.kind.isText = false ∧
      d.find? i = some F.node ∧
      a.Holds d.next (F.cells [F.node]) ∧ ∀ f, (d.edit i f).cells.Perm (F.cells (f F.node))) ∨
      (a.parent? i = none ∧ (i = rootId ∨ a.contains i = false) ∧
        (if i = rootId then none else d.find? i) = none) := by
  by_cases hroot : i = rootId
  · subst hroot
    exact Or.inr ⟨Holds.parent?_eq h List.mem_cons_self, Or.inl rfl, rfl⟩
  · by_cases hi : i ∈ d.ids
    · exact Or.inl ⟨hroot, h.exists_focus hi⟩
    · obtain ⟨hnodes, hfind⟩ := h.of_not_mem hroot hi
      refine Or.inr ⟨by rw [Arena.parent?, hnodes]; rfl, Or.inr ?_, by rw [if_neg hroot, hfind]⟩
      rw [contains, Std.TreeMap.contains_eq_isSome_getElem?, hnodes]
      rfl

theorem replace (h : a.Represents d) (n : Node) :
    (a.replace i n).1 = (d.replace i n).1 ∧ (a.replace i n).2.Represents (d.replace i n).2 := by
  rw [Document.replace]
  rcases h.below_cases i with ⟨hroot, F, hid, hk, hfind, hF, hf⟩ | ⟨hparent, -, hnone⟩
  · rcases hl : Live.plant (L := L) d.next n with ⟨l, next'⟩
    obtain ⟨hnew, hreplace⟩ := Holds.replace hl hF (hid ▸ hroot) hk
    rw [hid] at hnew hreplace
    rw [if_neg hroot, hfind, hnew, Live.id_plant hl]
    exact ⟨rfl, hreplace.perm (hf fun _ => [l]).symm⟩
  · rw [hnone, Arena.replace, hparent]
    exact ⟨rfl, h⟩

theorem remove (h : a.Represents d) :
    (a.remove i).1 = (d.remove i).1 ∧ (a.remove i).2.Represents (d.remove i).2 := by
  rw [Document.remove]
  rcases h.below_cases i with ⟨hroot, F, hid, -, hfind, hF, hf⟩ | ⟨-, hdead, hnone⟩
  · obtain ⟨hdone, hremove⟩ := Holds.remove hF (hid ▸ hroot)
    rw [hid] at hdone hremove
    rw [if_neg hroot, hfind]
    exact ⟨hdone, hremove.perm (hf fun _ => []).symm⟩
  · rw [hnone, Arena.remove, if_pos hdead]
    exact ⟨rfl, h⟩

end Represents

end Arena

end LiveMarkup
