import LiveMarkup.Arena.Patch
import LiveMarkup.Proofs.Arena.Edits

/-!
# Patching cells

`Arena.reconcile` does to the cells of a tree what `Live.patchAll` does to the tree, and counts the
same.  The proof follows the recursion of the patch.  While the nodes right below one node are
patched from the left to the right, the cells are those of the nodes that have been patched,
followed by those of the nodes that have not (`Holds.patchEach`).
-/

namespace LiveMarkup

namespace Live

theorem patch_text {L : Type} (next i : NodeId) (ls : Listeners L) (t : String) (new : Node) :
    (text i ls t).patch next new = (text i ls (new.asText?.getD ""), next,
      if t = new.asText?.getD "" then PatchStats.none else .textUpdate) := by
  rw [patch]
  split_ifs with h
  · rw [← h]
  · rfl

end Live

namespace Arena

namespace Holds

open Live (plantAll fan cellsAll)

variable {L : Type} {a : Arena L} {next next' i p : NodeId} {cs rest : List (Cell L)}
  {ls : Listeners L} {k : NodeKind} {q : Option NodeId} {js : List NodeId} {tag : String}

/-! ### Attributes -/

section Attributes

variable {r : AttrPatch}

theorem writeAttr (h : a.Holds next (⟨i, ⟨.element tag r.attrs, q, js⟩, ls⟩ :: cs))
    (name value : String) :
    (a.writeAttr i name value r.stats).1 = (r.write name value).stats ∧
      (a.writeAttr i name value r.stats).2.Holds next
        (⟨i, ⟨.element tag (r.write name value).attrs, q, js⟩, ls⟩ :: cs) := by
  have hget : a.attribute? i name = Attributes.get? name r.attrs :=
    h.attribute?_eq List.mem_cons_self name
  rw [Arena.writeAttr, AttrPatch.write, hget]
  split_ifs
  · exact ⟨rfl, h⟩
  · exact ⟨rfl, h.setAttribute name value⟩

theorem deleteAttr (h : a.Holds next (⟨i, ⟨.element tag r.attrs, q, js⟩, ls⟩ :: cs))
    (name : String) :
    (a.deleteAttr i name r.stats).1 = (r.delete name).stats ∧
      (a.deleteAttr i name r.stats).2.Holds next
      (⟨i, ⟨.element tag (r.delete name).attrs, q, js⟩, ls⟩ :: cs) := by
  obtain ⟨hget, hremove⟩ := h.removeAttribute name
  rcases hr : a.removeAttribute i name with ⟨value, a'⟩
  rw [hr] at hget hremove
  rw [Arena.deleteAttr, hr, AttrPatch.delete, ← hget]
  cases value with
  | none =>
    dsimp only at hremove
    rw [Attributes.drop_of_not_mem (Attributes.get?_eq_none_iff.1 hget.symm)] at hremove
    exact ⟨rfl, hremove⟩
  | some value => exact ⟨rfl, hremove⟩

theorem writeAttrs (ns : List Attr) {a : Arena L} {r : AttrPatch}
    (h : a.Holds next (⟨i, ⟨.element tag r.attrs, q, js⟩, ls⟩ :: cs)) :
    (a.writeAttrs i r.stats ns).1 = (r.writeAll ns).stats ∧
      (a.writeAttrs i r.stats ns).2.Holds next
      (⟨i, ⟨.element tag (r.writeAll ns).attrs, q, js⟩, ls⟩ :: cs) := by
  induction ns generalizing a r with
  | nil => exact ⟨rfl, h⟩
  | cons n ns ih =>
    obtain ⟨hstats, hwrite⟩ := h.writeAttr n.name n.value
    rw [Arena.writeAttrs, AttrPatch.writeAll]
    dsimp only
    rw [hstats]
    exact ih hwrite

/-- The attributes of an element are patched in its cell. -/
theorem patchAttrs {r : AttrPatch} (os new : List Attr) {a : Arena L}
    (h : a.Holds next (⟨i, ⟨.element tag r.attrs, q, js⟩, ls⟩ :: cs)) :
    (a.patchAttrs i r.stats os new).1 = (AttrPatch.run os new r).stats ∧
      (a.patchAttrs i r.stats os new).2.Holds next
        (⟨i, ⟨.element tag (AttrPatch.run os new r).attrs, q, js⟩, ls⟩ :: cs) := by
  induction os generalizing new a r with
  | nil => exact h.writeAttrs new
  | cons o os ih =>
    cases new with
    | nil =>
      obtain ⟨hstats, hdelete⟩ := h.deleteAttr o.name
      rw [Arena.patchAttrs, AttrPatch.run]
      dsimp only
      rw [hstats]
      exact ih _ hdelete
    | cons n ns =>
      obtain ⟨hstats, hwrite⟩ := h.writeAttr o.name n.value
      rw [Arena.patchAttrs, AttrPatch.run]
      dsimp only
      rw [hstats]
      exact ih _ hwrite

theorem patchAttrs_ofLists {as : List Attr}
    (h : a.Holds next (⟨i, ⟨.element tag as, q, js⟩, ls⟩ :: cs)) (new : List Attr) :
    (a.patchAttrs i .none as new).1 = (AttrPatch.ofLists as new).stats ∧
      (a.patchAttrs i .none as new).2.Holds next
        (⟨i, ⟨.element tag (AttrPatch.ofLists as new).attrs, q, js⟩, ls⟩ :: cs) :=
  patchAttrs (r := ⟨as, 0, 0⟩) as new h

end Attributes

/-! ### Nodes -/

theorem syncText {t : String} (h : a.Holds next (⟨i, ⟨.text t, q, js⟩, ls⟩ :: cs))
    (wanted : String) :
    (a.syncText i t wanted).1 = (if t = wanted then PatchStats.none else .textUpdate) ∧
      (a.syncText i t wanted).2.Holds next (⟨i, ⟨.text wanted, q, js⟩, ls⟩ :: cs) := by
  rw [Arena.syncText]
  split_ifs with heq
  · exact ⟨rfl, heq ▸ h⟩
  · exact ⟨rfl, (h.setText wanted).2⟩

/-- A text node is patched in its cell, whatever it faces. -/
theorem patchNode_text {t : String} (h : a.Holds next (⟨i, ⟨.text t, q, js⟩, ls⟩ :: cs))
    (new : Node) :
    (a.patchNode i new).1 = (if t = new.asText?.getD "" then PatchStats.none else .textUpdate) ∧
      (a.patchNode i new).2.Holds next (⟨i, ⟨.text (new.asText?.getD ""), q, js⟩, ls⟩ :: cs) := by
  have hpatch : a.patchNode i new = a.syncText i t (new.asText?.getD "") := by
    cases new <;> rw [Arena.patchNode, h.kind?_eq List.mem_cons_self] <;> rfl
  rw [hpatch]
  exact h.syncText _

/-- The last nodes right below another one are removed. -/
theorem removeAll {before : List (Live L)} (os : List (Live L)) {a : Arena L}
    (h : a.Holds next (fan p k q ls (before ++ os) ++ rest)) (hroot : rootId ∉ os.map Live.id) :
    (a.removeAll (os.map Live.id)).1 = os.length ∧
      (a.removeAll (os.map Live.id)).2.Holds next (fan p k q ls before ++ rest) := by
  induction os generalizing a with
  | nil =>
    rw [List.append_nil] at h
    exact ⟨rfl, h⟩
  | cons o os ih =>
    rw [List.map_cons, List.mem_cons, not_or] at hroot
    obtain ⟨hdone, hremove⟩ := h.remove (Ne.symm hroot.1)
    obtain ⟨hcount, hrest⟩ := ih hremove hroot.2
    rw [List.map_cons, Arena.removeAll]
    dsimp only
    rw [hdone, hcount, if_pos rfl]
    exact ⟨rfl, hrest⟩

/-- Copies of nodes are put behind all nodes right below another one. -/
theorem appendAll (hk : k.isText = false) (ns : List Node) {a : Arena L} {next next' : NodeId}
    {ts new : List (Live L)} (hnew : plantAll next ns = (new, next'))
    (h : a.Holds next (fan p k q ls ts ++ rest)) :
    (a.appendAll p ns).1 = ns.length ∧ (a.appendAll p ns).2.Holds next'
    (fan p k q ls (ts ++ new) ++ rest) := by
  induction ns generalizing a next ts new with
  | nil =>
    cases hnew
    rw [List.append_nil]
    exact ⟨rfl, h⟩
  | cons n ns ih =>
    cases hnew
    obtain ⟨hdone, happend⟩ := h.append rfl hk
    obtain ⟨hcount, hrest⟩ := ih rfl happend
    rw [Arena.appendAll]
    dsimp only
    rw [hdone, hcount]
    rw [List.append_assoc] at hrest
    exact ⟨rfl, hrest⟩

theorem swap {before after : List (Live L)} {old l : Live L} {n : Node}
    (hl : Live.plant next n = (l, next'))
    (h : a.Holds next (fan p k q ls (before ++ old :: after) ++ rest)) (hroot : old.id ≠ rootId)
    (hk : k.isText = false) :
    (a.swap old.id n).1 = .replacement ∧
      (a.swap old.id n).2.Holds next' (fan p k q ls (before ++ l :: after) ++ rest) := by
  obtain ⟨hdone, hreplace⟩ := replace hl h hroot hk
  rcases hr : a.replace old.id n with ⟨i?, a'⟩
  rw [hr] at hdone hreplace
  cases hdone
  rw [Arena.swap, hr]
  exact ⟨rfl, hreplace⟩

mutual

/-- A node right below another one is patched, whatever stands before and after it. -/
theorem patchNode {p : NodeId} {k : NodeKind} {q : Option NodeId} {ls : Listeners L}
    {rest : List (Cell L)} (hk : k.isText = false) (before after : List (Live L)) :
    (o : Live L) → (new : Node) → {a : Arena L} →
    {next next' : NodeId} → {l : Live L} → {stats : PatchStats} →
    o.patch next new = (l, next', stats) →
    rootId ∉ o.ids → a.Holds next (fan p k q ls (before ++ o :: after) ++ rest) →
      (a.patchNode o.id new).1 = stats ∧
        (a.patchNode o.id new).2.Holds next' (fan p k q ls (before ++ l :: after) ++ rest)
  | .text i lsi t, new, a, next, _, _, _, hl, hroot, h => by
    rw [Live.patch_text] at hl
    cases hl
    obtain ⟨hstats, hsync⟩ := (h.perm (Live.fan_middle ..)).patchNode_text new
    have hclose :=
      (Live.fan_middle p k q ls before (.text i lsi (new.asText?.getD "")) after rest).symm
    exact ⟨hstats, hsync.perm hclose⟩
  | .element i lsi tag as cs, .text t, a, next, _, _, _, hl, hroot, h => by
    cases hl
    have hkind : a.kind? i = some (.element tag as) :=
      (h.perm (Live.fan_middle ..)).kind?_eq List.mem_cons_self
    rw [Live.id, Arena.patchNode, hkind]
    exact ⟨rfl, h⟩
  | .element i lsi tag as cs, .element tag' as' cs', a, next, _, _, _, hl, hroot, h => by
    have hopen :
      a.Holds next (fan i (.element tag as) (some p) lsi cs ++
        Live.beside p k q ls before i after rest) :=
      h.perm (Live.fan_middle ..)
    have hkind : a.kind? i = some (.element tag as) := hopen.kind?_eq List.mem_cons_self
    rw [Live.patch] at hl
    rw [Live.id, Arena.patchNode, hkind]
    dsimp only
    split_ifs at hl ⊢ with htag
    · cases hl
      have hroot' : rootId ∉ (Live.subtrees cs).map Live.id :=
        fun hmem => hroot (List.mem_cons_of_mem _ hmem)
      obtain ⟨hstats, hattrs⟩ := hopen.patchAttrs_ofLists as'
      have hchildren : (a.patchAttrs i .none as as').2.childrenOf i = cs.map Live.id :=
        hattrs.childrenOf_eq List.mem_cons_self
      obtain ⟨hstats', heach⟩ := patchEach rfl [] cs cs' rfl hroot' hattrs
      have hclose := (Live.fan_middle p k q ls before
        (.element i lsi tag (AttrPatch.ofLists as as').attrs (Live.patchAll next cs cs').1)
          after rest).symm
      rw [hchildren, hstats, hstats']
      exact ⟨rfl, heach.perm hclose⟩
    · cases hl
      exact swap rfl h (fun hi => hroot (hi ▸ List.mem_cons_self)) hk

/-- The last nodes right below another one are patched, and those that have been patched stay. -/
theorem patchEach {p : NodeId} {k : NodeKind} {q : Option NodeId} {ls : Listeners L}
    {rest : List (Cell L)} (hk : k.isText = false) (before : List (Live L)) :
    (os : List (Live L)) → (new : List Node) →
    {a : Arena L} → {next next' : NodeId} → {ts : List (Live L)} → {stats : PatchStats} →
    Live.patchAll next os new = (ts, next', stats) → rootId ∉ (Live.subtrees os).map Live.id →
    a.Holds next (fan p k q ls (before ++ os) ++ rest) →
      (a.patchEach p (os.map Live.id) new).1 = stats ∧
        (a.patchEach p (os.map Live.id) new).2.Holds next' (fan p k q ls (before ++ ts) ++ rest)
  | [], new, a, next, _, _, _, hts, hroot, h => by
    cases hts
    rw [List.append_nil] at h
    obtain ⟨hcount, happend⟩ := appendAll hk new rfl h
    rw [List.map_nil, Arena.patchEach]
    dsimp only
    rw [hcount]
    exact ⟨rfl, happend⟩
  | o :: os, [], a, next, _, _, _, hts, hroot, h => by
    cases hts
    obtain ⟨hcount, hremove⟩ := removeAll (o :: os) h fun hmem =>
      hroot (((Live.sublist_subtrees _).map Live.id).subset hmem)
    rw [List.map_cons] at hcount hremove
    rw [List.map_cons, Arena.patchEach, List.append_nil]
    dsimp only
    rw [hcount]
    exact ⟨rfl, hremove⟩
  | o :: os, n :: ns, a, next, _, _, _, hts, hroot, h => by
    cases hts
    rw [Live.subtrees_cons, List.map_append, List.mem_append, not_or] at hroot
    obtain ⟨hstats, hnode⟩ := patchNode hk before os o n rfl hroot.1 h
    rw [List.append_cons] at hnode
    obtain ⟨hstats', heach⟩ := patchEach hk _ os ns rfl hroot.2 hnode
    rw [List.map_cons, Arena.patchEach]
    dsimp only
    rw [hstats, hstats']
    rw [← List.append_cons] at heach
    exact ⟨rfl, heach⟩

end

end Holds

end Arena

end LiveMarkup
