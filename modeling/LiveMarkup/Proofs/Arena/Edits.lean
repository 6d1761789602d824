import LiveMarkup.Proofs.Arena.Cells
import LiveMarkup.Proofs.Document.Attributes

/-!
# Operations on cells

What each operation of an arena does to the cells that it finds.  Operations on one node change its
cell; those that put in or take out a subtree are described on the cells of the node above and of
all nodes right below it (`Live.fan`), next to any others.  `Holds.build` fills the slots of a new
subtree in the order of `Live.plant`, and `Holds.drain_cells` empties those of an old one, whatever
else is on the stack.
-/

namespace LiveMarkup

/-- The first place of a member. -/
theorem idxOf?_middle {i : NodeId} {is : List NodeId} (h : i ∉ is) (js : List NodeId) :
    (is ++ i :: js).idxOf? i = some is.length := by
  induction is with
  | nil => simp [List.idxOf?_cons]
  | cons j is ih =>
    rw [List.mem_cons, not_or] at h
    rw [List.cons_append, List.idxOf?_cons, if_neg (by simpa using Ne.symm h.1), ih h.2]
    rfl

namespace Live

theorem id_plant {L : Type} {next next' : NodeId} {n : Node} {l : Live L}
    (hl : plant next n = (l, next')) :
    l.id = next := by
  cases n <;> cases hl <;> rfl

theorem sublist_subtrees {L : Type} (ts : List (Live L)) : ts.Sublist (subtrees ts) := by
  induction ts with
  | nil => exact .slnil
  | cons t ts ih =>
    rw [subtrees_cons]
    exact (List.singleton_sublist.2 (mem_subtree_self t)).append ih

end Live

namespace Document

variable {α β : Type}

/-- A place beyond the end is the end. -/
theorem insertAt_min (index : Nat) (a : α) (as : List α) :
    insertAt (min index as.length) a as = insertAt index a as := by
  rcases Nat.le_total index as.length with h | h
  · rw [Nat.min_eq_left h]
  · rw [Nat.min_eq_right h, insertAt, insertAt, List.take_length, List.drop_length,
      List.take_of_length_le h, List.drop_of_length_le h]

theorem map_insertAt (f : α → β) (index : Nat) (a : α) (as : List α) :
    (insertAt index a as).map f = insertAt index (f a) (as.map f) := by
  simp [insertAt, List.map_take, List.map_drop]

theorem insertAt_length (a : α) (as : List α) : insertAt as.length a as = as ++ [a] := by
  rw [insertAt, List.take_length, List.drop_length]

theorem insertAt_append (a : α) (as bs : List α) :
    insertAt as.length a (as ++ bs) = as ++ a :: bs := by
  rw [insertAt, List.take_left, List.drop_left]

end Document

namespace Arena

/-- Behind all others is a place among them. -/
theorem append_eq {L : Type} (a : Arena L) (p : NodeId) (n : Node) :
    a.append p n = a.insert p (a.childrenOf p).length n := by
  rw [append, childrenOf]
  cases hslot : a.nodes[p]? with
  | none => rw [insert, kind?, hslot]; rfl
  | some s => rfl

namespace Holds

open Live (plant plantAll fan cellsAll)

variable {L : Type} {a : Arena L} {next i p : NodeId} {cs rest : List (Cell L)} {s : Slot}
  {ls : Listeners L}

/-! ### Reading -/

theorem getElem?_eq (h : a.Holds next cs) (hc : ⟨i, s, ls⟩ ∈ cs) : a.nodes[i]? = some s :=
  (h.mem _ hc).2.1

theorem kind?_eq (h : a.Holds next cs) (hc : ⟨i, s, ls⟩ ∈ cs) : a.kind? i = some s.kind := by
  rw [kind?, h.getElem?_eq hc]
  rfl

theorem childrenOf_eq (h : a.Holds next cs) (hc : ⟨i, s, ls⟩ ∈ cs) :
    a.childrenOf i = s.children := by
  rw [childrenOf, h.getElem?_eq hc]
  rfl

theorem parent?_eq (h : a.Holds next cs) (hc : ⟨i, s, ls⟩ ∈ cs) : a.parent? i = s.parent := by
  rw [parent?, h.getElem?_eq hc]
  rfl

theorem attribute?_eq (h : a.Holds next cs) (hc : ⟨i, s, ls⟩ ∈ cs) (name : String) :
    a.attribute? i name = Attributes.get? name s.kind.attrs := by
  rw [attribute?, attrs, h.kind?_eq hc]
  rfl

/-! ### One node -/

variable {q : Option NodeId} {js : List NodeId} {tag : String} {as : List Attr}

theorem setText {t : String} (h : a.Holds next (⟨i, ⟨.text t, q, js⟩, ls⟩ :: cs)) (value : String) :
    (a.setText i value).1 = true ∧ (a.setText i value).2.Holds next
    (⟨i, ⟨.text value, q, js⟩, ls⟩ :: cs) := by
  rw [Arena.setText, h.kind?_eq List.mem_cons_self]
  exact ⟨rfl, h.modify _⟩

theorem setAttribute (h : a.Holds next (⟨i, ⟨.element tag as, q, js⟩, ls⟩ :: cs))
    (name value : String) :
    (a.setAttribute i name value).Holds next
      (⟨i, ⟨.element tag (Attributes.put name value as), q, js⟩, ls⟩ :: cs) := by
  rw [Arena.setAttribute, h.kind?_eq List.mem_cons_self]
  exact h.modify _

theorem removeAttribute (h : a.Holds next (⟨i, ⟨.element tag as, q, js⟩, ls⟩ :: cs))
    (name : String) :
    (a.removeAttribute i name).1 = Attributes.get? name as ∧
      (a.removeAttribute i name).2.Holds next
        (⟨i, ⟨.element tag (Attributes.drop name as), q, js⟩, ls⟩ :: cs) := by
  rw [Arena.removeAttribute, h.kind?_eq List.mem_cons_self]
  dsimp only
  cases hget : Attributes.get? name as with
  | none =>
    rw [Attributes.drop_of_not_mem (Attributes.get?_eq_none_iff.1 hget)]
    exact ⟨rfl, h⟩
  | some value => exact ⟨rfl, h.modify _⟩

/-! ### New subtrees -/

theorem push {k : NodeKind} (h : a.Holds next (⟨p, ⟨k, q, js⟩, ls⟩ :: cs)) (j : NodeId) :
    (a.push p j).Holds next (⟨p, ⟨k, q, js ++ [j]⟩, ls⟩ :: cs) := h.modify _

mutual

/-- The slots of a new subtree are filled as those of the planted node. -/
theorem build (parent : NodeId) : (n : Node) → {a : Arena L} → {next next' : NodeId} →
    {l : Live L} →
    {cs : List (Cell L)} → plant next n = (l, next') → a.Holds next cs →
      (a.build parent n).1 = l.id ∧ (a.build parent n).2.Holds next' (l.cells parent ++ cs)
  | .text t, a, next, _, _, cs, hl, h => by
    cases hl
    exact ⟨h.next_eq, h.alloc _⟩
  | .element tag as children, a, next, _, _, cs, hl, h => by
    cases hl
    have hbelow := buildAll next (.element tag as) (some parent) [] [] children rfl (h.alloc _)
    rw [← h.next_eq] at hbelow ⊢
    exact ⟨rfl, hbelow⟩

/-- The slots of new subtrees are filled one after the other, and each is named in the slot
above. -/
theorem buildAll (p : NodeId) (k : NodeKind) (q : Option NodeId) (js : List NodeId)
    (ls : Listeners L) :
    (ns : List Node) → {a : Arena L} → {next next' : NodeId} → {ts : List (Live L)} →
    {cs : List (Cell L)} →
    plantAll next ns = (ts, next') → a.Holds next (⟨p, ⟨k, q, js⟩, ls⟩ :: cs) →
      (a.buildAll p ns).Holds next' (⟨p, ⟨k, q, js ++ ts.map Live.id⟩, ls⟩ :: (cellsAll p ts ++ cs))
  | [], a, next, _, _, cs, hts, h => by
    cases hts
    rw [Arena.buildAll, List.map_nil, List.append_nil]
    exact h
  | n :: ns, a, next, _, _, cs, hts, h => by
    cases hts
    obtain ⟨hid, hbuild⟩ := build p n rfl h
    have hpush := (hbuild.perm List.perm_middle).push (plant (L := L) next n).1.id
    have hrest := buildAll p k q _ ls ns rfl hpush
    rw [List.append_assoc] at hrest
    show (((a.build p n).2.push p (a.build p n).1).buildAll p ns).Holds _ _
    rw [hid]
    exact hrest.perm ((Live.cellsAll_cons ..).symm.cons _)

end

theorem place {k : NodeKind} (h : a.Holds next (⟨p, ⟨k, q, js⟩, ls⟩ :: cs)) (index : Nat)
    (j : NodeId) :
    (a.place p index j).Holds next (⟨p, ⟨k, q, Document.insertAt index j js⟩, ls⟩ :: cs) := by
  have hplace :=
    h.modify fun s =>
    { s with children := Document.insertAt (min index s.children.length) j s.children }
  rw [Document.insertAt_min] at hplace
  exact hplace

section Fan

variable {k : NodeKind} {ts before after : List (Live L)} {n : Node} {l : Live L} {next' : NodeId}

/-- A copy of a node is put among the nodes right below another one. -/
theorem insert (hl : plant next n = (l, next')) (h : a.Holds next (fan p k q ls ts ++ rest))
    (hk : k.isText = false) (index : Nat) : (a.insert p index n).1 = some l.id ∧
      (a.insert p index n).2.Holds next' (fan p k q ls (Document.insertAt index l ts) ++ rest) := by
  obtain ⟨hid, hbuild⟩ := build p n hl h
  have hplace := (hbuild.perm List.perm_middle).place index l.id
  have hcells := (Live.cellsAll_middle p (ts.take index) (ts.drop index) l rest).symm
  rw [List.take_append_drop] at hcells
  have hinsert :
    a.insert p index n = (some (a.build p n).1, (a.build p n).2.place p index (a.build p n).1) := by
    rw [Arena.insert, h.kind?_eq List.mem_cons_self]
    cases k with
    | text t => cases hk
    | root => rfl
    | element tag as => rfl
  rw [hinsert, hid]
  refine ⟨rfl, ?_⟩
  rw [fan, Document.map_insertAt]
  exact hplace.perm (hcells.cons _)

/-- A copy of a node is put behind all nodes right below another one. -/
theorem append (hl : plant next n = (l, next')) (h : a.Holds next (fan p k q ls ts ++ rest))
    (hk : k.isText = false) :
    (a.append p n).1 = some l.id ∧ (a.append p n).2.Holds next'
    (fan p k q ls (ts ++ [l]) ++ rest) := by
  have hinsert := insert hl h hk ts.length
  rw [Document.insertAt_length] at hinsert
  rw [append_eq, h.childrenOf_eq List.mem_cons_self]
  dsimp only
  rw [List.length_map]
  exact hinsert

/-! ### Old subtrees -/

theorem drain_cons {s : Slot} {stack : List NodeId} (h : a.nodes[i]? = some s) :
    a.drain (i :: stack) = (a.drop i).drain (s.children.reverse ++ stack) := by
  rw [drain]
  split
  · next s' hs =>
    rw [h] at hs
    cases hs
    rfl
  · next hnone =>
    rw [h] at hnone
    cases hnone

mutual

/-- A node on the stack is dropped with all nodes below it before the stack is looked at again. -/
theorem drain_cells (parent : NodeId) (stack : List NodeId) :
    (l : Live L) → {a : Arena L} → {cs : List (Cell L)} →
    a.Holds next (l.cells parent ++ cs) → ∃ a' : Arena L, a'.Holds next cs ∧
    a.drain (l.id :: stack) = a'.drain stack
  | .text i ls t, a, cs, h => ⟨a.drop i, h.drop, drain_cons (h.getElem?_eq List.mem_cons_self)⟩
  | .element i ls tag as children, a, cs, h => by
    obtain ⟨a', ha', hdrain⟩ := drain_cellsAll i stack children h.drop
    rw [Live.id, drain_cons (h.getElem?_eq List.mem_cons_self)]
    exact ⟨a', ha', hdrain⟩

/-- Several nodes on the stack are dropped with all nodes below them, the last one first. -/
theorem drain_cellsAll (parent : NodeId) (stack : List NodeId) :
    (ts : List (Live L)) → {a : Arena L} →
    {cs : List (Cell L)} → a.Holds next (cellsAll parent ts ++ cs) →
      ∃ a' : Arena L, a'.Holds next cs ∧
        a.drain ((ts.map Live.id).reverse ++ stack) = a'.drain stack
  | [], a, cs, h => ⟨a, h, rfl⟩
  | l :: ts, a, cs, h => by
    obtain ⟨a', ha', hdrain⟩ :=
      drain_cellsAll parent (l.id :: stack) ts (h.perm (Live.cellsAll_cons ..))
    obtain ⟨a'', ha'', hdrain'⟩ := drain_cells parent stack l ha'
    rw [List.map_cons, List.reverse_cons, List.append_assoc, List.singleton_append, hdrain]
    exact ⟨a'', ha'', hdrain'⟩

end

/-- The identities of siblings differ. -/
theorem not_mem_before (h : a.Holds next (fan p k q ls (before ++ l :: after) ++ rest)) :
    l.id ∉ before.map Live.id ∧ (before.map Live.id ++ l.id :: after.map Live.id).Nodup := by
  have hnd := h.nodup
  rw [List.map_append] at hnd
  have hfan := (List.nodup_append.1 hnd).1
  rw [Live.map_id_fan] at hfan
  have hsiblings := (List.nodup_cons.1 hfan).2.sublist ((Live.sublist_subtrees _).map Live.id)
  rw [List.map_append, List.map_cons] at hsiblings
  exact ⟨fun hl => (List.nodup_append.1 hsiblings).2.2 _ hl _ List.mem_cons_self rfl, hsiblings⟩

theorem unlink (h : a.Holds next (fan p k q ls (before ++ l :: after) ++ rest)) :
    (a.unlink p l.id).Holds next
      (⟨p, ⟨k, q, (before ++ after).map Live.id⟩, ls⟩ ::
        (cellsAll p (before ++ l :: after) ++ rest)) := by
  have hunlink := h.modify fun s => { s with children := s.children.filter fun c => c != l.id }
  obtain ⟨hbefore, hsiblings⟩ := h.not_mem_before
  have hids :
    ((before ++ l :: after).map Live.id).filter (fun c => c != l.id) =
      (before ++ after).map Live.id := by
    rw [List.map_append, List.map_cons, List.map_append, ← hsiblings.erase_eq_filter,
      List.erase_append_right _ hbefore, List.erase_cons_head]
  rw [← hids]
  exact hunlink

theorem getElem?_middle (h : a.Holds next (fan p k q ls (before ++ l :: after) ++ rest)) :
    a.nodes[l.id]? = some ⟨l.kind, some p, l.children.map Live.id⟩ :=
  (h.perm (Live.fan_middle ..)).getElem?_eq List.mem_cons_self

/-- A node is taken out from below another one with everything below it. -/
theorem remove (h : a.Holds next (fan p k q ls (before ++ l :: after) ++ rest))
    (hroot : l.id ≠ rootId) :
    (a.remove l.id).1 = true ∧ (a.remove l.id).2.Holds next
    (fan p k q ls (before ++ after) ++ rest) := by
  have hslot := h.getElem?_middle
  have hin : a.contains l.id = true := by
    rw [contains, Std.TreeMap.contains_eq_isSome_getElem?, hslot]; rfl
  have hparent : a.parent? l.id = some p := by rw [parent?, hslot]; rfl
  have hremove : a.remove l.id = (true, (a.unlink p l.id).drain [l.id]) := by
    rw [Arena.remove, if_neg (by simp [hroot, hin]), hparent]
  have hcells :
    (⟨p, ⟨k, q, (before ++ after).map Live.id⟩, ls⟩ ::
      (cellsAll p (before ++ l :: after) ++ rest)).Perm
      (l.cells p ++ (fan p k q ls (before ++ after) ++ rest)) := by
    exact .trans (.cons _ (Live.cellsAll_middle ..)) List.perm_middle.symm
  obtain ⟨a', ha', hdrain⟩ := drain_cells p [] l (h.unlink.perm hcells)
  rw [hremove, hdrain, drain]
  exact ⟨rfl, ha'⟩

/-- A copy of a node takes the place of one right below another. -/
theorem replace (hl : plant next n = (l, next')) {old : Live L}
    (h : a.Holds next (fan p k q ls (before ++ old :: after) ++ rest)) (hroot : old.id ≠ rootId)
    (hk : k.isText = false) :
    (a.replace old.id n).1 = some l.id ∧
      (a.replace old.id n).2.Holds next' (fan p k q ls (before ++ l :: after) ++ rest) := by
  obtain ⟨-, hremove⟩ := h.remove hroot
  have hinsert := insert hl hremove hk before.length
  rw [Document.insertAt_append] at hinsert
  have hparent : a.parent? old.id = some p := by rw [parent?, h.getElem?_middle]; rfl
  have hindex : (a.childrenOf p).idxOf? old.id = some before.length := by
    rw [h.childrenOf_eq List.mem_cons_self]
    dsimp only
    rw [List.map_append, List.map_cons, idxOf?_middle h.not_mem_before.1, List.length_map]
  rw [Arena.replace, hparent]
  dsimp only
  rw [hindex]
  exact hinsert

end Fan

end Holds

end Arena

end LiveMarkup
