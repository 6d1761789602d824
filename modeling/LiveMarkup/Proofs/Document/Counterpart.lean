import LiveMarkup.Proofs.Document.Bound
import LiveMarkup.Proofs.Document.Repatch
import Mathlib.Data.List.Nodup

/-!
# Counterparts of new nodes

After a patch with new nodes, live nodes stand where the new nodes stand (`Live.pairsAll`).  A live
element with the tag of its new element was planted in this patch and has just the new attributes,
or it was there before and has what the patch made of its attributes (`Live.tookFrom_patchAll`).  A
marker goes by its place, as every new attribute does: an element that had no marker takes it over
just if it had no more attributes than stand in front of the marker
(`Attributes.SoleMarker.get?_byName`).  If an old attribute faces the marker, its value goes to the
name of that one.
-/

namespace LiveMarkup

variable {L : Type}

/-! ### One name -/

namespace Attributes

theorem get?_drop_ne {name other : String} (h : other ≠ name) (as : List Attr) :
    get? other (drop name as) = get? other as := by
  induction as with
  | nil => rfl
  | cons a as ih =>
    rw [drop]
    by_cases ha : a.name = name
    · rw [if_pos ha, get?, if_neg fun e => h (e.symm.trans ha)]
    · rw [if_neg ha, get?, get?, ih]

/-- Removing other names leaves the value of a name. -/
theorem get?_dropAll {name : String} {gone : List Attr} (h : name ∉ names gone) (as : List Attr) :
    get? name (dropAll as gone) = get? name as := by
  induction gone generalizing as with
  | nil => rfl
  | cons g gone ih =>
    rw [names_cons, List.mem_cons, not_or] at h
    rw [dropAll, ih h.2, get?_drop_ne h.1]

/-- Of the values that are stored under a name the last one counts. -/
theorem get?_putAll (name : String) (as cs : List Attr) :
    get? name (putAll as cs) = (last? name cs).or (get? name as) := by
  induction cs generalizing as with
  | nil => rfl
  | cons c cs ih =>
    rw [putAll, ih, last?]
    rcases last? name cs with _ | v
    · by_cases hc : c.name = name
      · rw [if_pos hc, hc, get?_put_self]
        rfl
      · rw [if_neg hc, get?_put_ne (Ne.symm hc)]
    · rfl

theorem last?_append_cons {name value : String} {after : List Attr} (ha : name ∉ names after)
    (before : List Attr) :
    last? name (before ++ ⟨name, value⟩ :: after) = some value := by
  induction before with
  | nil =>
    rw [List.nil_append, last?, last?_eq_none_iff.2 ha]
    exact if_pos rfl
  | cons b before ih => rw [List.cons_append, last?, ih]

/-- A new attribute of a name that no other attribute has is stored under its name just if no old
attribute faces it. -/
theorem last?_faced {name value : String} {old before after : List Attr} (ho : name ∉ names old)
    (ha : name ∉ names after) : last? name (faced old (before ++ ⟨name, value⟩ :: after)) =
      if old.length ≤ before.length then some value else none := by
  induction old generalizing before with
  | nil => rw [faced_nil_left, last?_append_cons ha, List.length_nil, if_pos (Nat.zero_le _)]
  | cons o old ih =>
    rw [names_cons, List.mem_cons, not_or] at ho
    cases before with
    | nil =>
      rw [List.nil_append, faced_cons_cons, if_neg (by simp), last?_eq_none_iff, names_cons,
        List.mem_cons, not_or, names_faced, List.mem_append, not_or]
      refine ⟨ho.1, fun h => ho.2 (List.mem_of_mem_take h), fun h => ha ?_⟩
      rw [names, List.map_drop] at h
      exact List.mem_of_mem_drop h
    | cons b before =>
      rw [List.cons_append, faced_cons_cons, last?, ih ho.2, if_neg (Ne.symm ho.1),
        List.length_cons, List.length_cons]
      by_cases h : old.length ≤ before.length
      · rw [if_pos h, if_pos (Nat.succ_le_succ h)]
      · rw [if_neg h, if_neg fun hle => h (Nat.le_of_succ_le_succ hle)]

/-- Whether just one of some attributes is a marker, at a given slot and with a given value. -/
def SoleMarker (as : List Attr) (slot : Nat) (value : String) : Prop :=
  ∃ before after, as = before ++ ⟨eventAttribute, value⟩ :: after ∧ before.length = slot ∧
    eventAttribute ∉ names before ∧ eventAttribute ∉ names after

variable {as : List Attr} {slot : Nat} {value : String}

theorem SoleMarker.get?_eq (h : SoleMarker as slot value) :
    get? eventAttribute as = some value := by
  obtain ⟨before, after, rfl, -, hb, -⟩ := h
  rw [get?_append hb, get?, if_pos rfl]

/-- A patch gives the marker among new attributes to attributes that have none, unless one of these
faces it. -/
theorem SoleMarker.get?_byName (h : SoleMarker as slot value) {old : List Attr}
    (ho : eventAttribute ∉ names old) :
    get? eventAttribute (AttrPatch.byName old as).attrs = if old.length ≤ slot then
      some value else none := by
  obtain ⟨before, after, rfl, rfl, -, ha⟩ := h
  have hgone :
    eventAttribute ∉ names (old.drop (before ++ ⟨eventAttribute, value⟩ :: after).length) := by
    rw [names, List.map_drop]
    exact fun h => ho (List.mem_of_mem_drop h)
  show get? eventAttribute (dropAll _ _) = _
  rw [get?_dropAll hgone, get?_putAll, last?_faced ho ha, get?_eq_none_iff.2 ho, Option.or_none]

end Attributes

/-! ### Positions -/

namespace Live

mutual

/-- The nodes of a live tree and the new nodes that stand at the same positions in a new tree. -/
def pairs : Live L → Node → List (Live L × Node)
  | text i ls t, new => [(text i ls t, new)]
  | element i ls tag as cs, .text t => [(element i ls tag as cs, .text t)]
  | element i ls tag as cs, .element tag' as' cs' =>
    (element i ls tag as cs, .element tag' as' cs') :: pairsAll cs cs'

/-- The nodes of several live trees and the new nodes that stand at the same positions in new
trees. -/
def pairsAll : List (Live L) → List Node → List (Live L × Node)
  | [], _ => []
  | _ :: _, [] => []
  | l :: ls, n :: ns => l.pairs n ++ pairsAll ls ns

end

mutual

theorem mem_subtree_of_pairs {l : Live L} {n : Node} :
    (o : Live L) → (new : Node) → (l, n) ∈ o.pairs new → l ∈ o.subtree
  | text i ls t, new, h => by
    rw [pairs, List.mem_singleton] at h
    cases h
    simp
  | element i ls tag as cs, .text t, h => by
    rw [pairs, List.mem_singleton] at h
    cases h
    simp
  | element i ls tag as cs, .element tag' as' cs', h => by
    rw [pairs, List.mem_cons] at h
    rw [subtree_element, List.mem_cons]
    rcases h with h | h
    · cases h
      exact Or.inl rfl
    · exact Or.inr (mem_subtrees_of_pairsAll cs cs' h)

theorem mem_subtrees_of_pairsAll {l : Live L} {n : Node} :
    (os : List (Live L)) → (new : List Node) → (l, n) ∈ pairsAll os new → l ∈ subtrees os
  | [], _, h => by
    rw [pairsAll] at h
    cases h
  | _ :: _, [], h => by
    rw [pairsAll] at h
    cases h
  | o :: os, n' :: ns, h => by
    rw [pairsAll, List.mem_append] at h
    rw [subtrees_cons, List.mem_append]
    exact h.imp (mem_subtree_of_pairs o n') (mem_subtrees_of_pairsAll os ns)

end

/-- Where an element that stands for a new one has its attributes from: it was planted with them
under an identity from `next` on, or the patch made them of those of an old element. -/
def TookFrom (next : NodeId) (old : List (Live L)) (l : Live L) (tag : String)
    (as : List Attr) : Prop :=
  (next ≤ l.id ∧ l.attrs = as) ∨
    ∃ o ∈ old, o.id = l.id ∧ o.tag? = some tag ∧ l.attrs = (AttrPatch.byName o.attrs as).attrs

theorem TookFrom.mono {next next' : NodeId} {old old' : List (Live L)} {l : Live L} {tag : String}
    {as : List Attr} (h : TookFrom next' old l tag as) (hle : next ≤ next') (hsub : old ⊆ old') :
    TookFrom next old' l tag as := by
  rcases h with ⟨hid, has⟩ | ⟨o, ho, hrest⟩
  · exact Or.inl ⟨Nat.le_trans hle hid, has⟩
  · exact Or.inr ⟨o, hsub ho, hrest⟩

section Patch

variable {l : Live L} {tag : String} {as : List Attr} {cs : List Node}

mutual

theorem tookFrom_plant (next : NodeId) : (n : Node) →
    (l, .element tag as cs) ∈ (plant next n : Live L × NodeId).1.pairs n → TookFrom next [] l tag as
  | .text t, h => by
    rw [plant, pairs, List.mem_singleton] at h
    cases h
  | .element tag' as' cs', h => by
    rw [plant, pairs, List.mem_cons] at h
    rcases h with h | h
    · cases h
      exact Or.inl ⟨Nat.le_refl next, rfl⟩
    · exact (tookFrom_plantAll (next + 1) cs' h).mono (Nat.le_succ next) (List.Subset.refl [])

theorem tookFrom_plantAll (next : NodeId) : (ns : List Node) →
    (l, .element tag as cs) ∈ pairsAll (plantAll next ns : List (Live L) × NodeId).1 ns →
    TookFrom next [] l tag as
  | [], h => by
    rw [plantAll, pairsAll] at h
    cases h
  | n :: ns, h => by
    have hle : next ≤ (plant next n : Live L × NodeId).2 := (renewed_plant next n).le
    rw [plantAll, pairsAll, List.mem_append] at h
    rcases h with h | h
    · exact tookFrom_plant next n h
    · exact (tookFrom_plantAll _ ns h).mono hle (List.Subset.refl [])

end

mutual

theorem tookFrom_patch (next : NodeId) (htag : l.tag? = some tag) : (o : Live L) → (new : Node) →
    (l, .element tag as cs) ∈ (o.patch next new).1.pairs new → TookFrom next o.subtree l tag as
  | text i ls t, new, h => by
    -- a text stays a text, whatever faces it
    rw [patch] at h
    split_ifs at h
    · rw [pairs, List.mem_singleton] at h
      cases h
      cases htag
    · rw [pairs, List.mem_singleton] at h
      cases h
      cases htag
  | element i ls tag' as' cs', .text t, h => by
    rw [patch, pairs, List.mem_singleton] at h
    cases h
  | element i ls tag' as' cs', .element tag'' as'' cs'', h => by
    rw [patch] at h
    split_ifs at h with hsame
    · rw [pairs, List.mem_cons] at h
      rcases h with h | h
      · cases h
        exact Or.inr ⟨element i ls tag' as' cs', by simp, rfl, htag,
          congrArg AttrPatch.attrs (AttrPatch.ofLists_eq as' as)⟩
      · exact (tookFrom_patchAll next htag cs' cs'' h).mono (Nat.le_refl next) (by simp)
    · exact (tookFrom_plant next (.element tag'' as'' cs'') h).mono (Nat.le_refl next)
        (List.nil_subset _)

/-- An element that stands for a new one of its tag was planted with the attributes of that one, or
the patch made its attributes of those that it had. -/
theorem tookFrom_patchAll (next : NodeId) (htag : l.tag? = some tag) :
    (os : List (Live L)) → (new : List Node) →
    (l, .element tag as cs) ∈ pairsAll (patchAll next os new).1 new → TookFrom next
    (subtrees os) l tag as
  | [], new, h => by
    rw [patchAll] at h
    exact tookFrom_plantAll next new h
  | o :: os, [], h => by
    rw [patchAll, pairsAll] at h
    cases h
  | o :: os, n :: ns, h => by
    have hle := (renewed_patch next o n).le
    rw [patchAll, pairsAll, List.mem_append] at h
    rw [subtrees_cons]
    rcases h with h | h
    · exact (tookFrom_patch next htag o n h).mono (Nat.le_refl next) (List.subset_append_left _ _)
    · exact (tookFrom_patchAll _ htag os ns h).mono hle (List.subset_append_right _ _)

end

end Patch

section Bind

variable (make : String → String → L) {l : Live L} {n : Node}

mutual

theorem exists_pairs_of_bind (b : Binder) :
    (o : Live L) → (new : Node) → (l, n) ∈ (o.bind make b).1.pairs new →
    ∃ l', (l', n) ∈ o.pairs new ∧ l'.id = l.id ∧ l'.tag? = l.tag?
  | text i ls t, new, h => ⟨l, h, rfl, rfl⟩
  | element i ls tag as cs, .text t, h => by
    rw [Live.bind, pairs, List.mem_singleton] at h
    cases h
    exact ⟨_, List.mem_singleton.2 rfl, rfl, rfl⟩
  | element i ls tag as cs, .element tag' as' cs', h => by
    rw [Live.bind, pairs, List.mem_cons] at h
    rcases h with h | h
    · cases h
      exact ⟨_, List.mem_cons_self, rfl, rfl⟩
    · obtain ⟨l', hl', hrest⟩ := exists_pairsAll_of_bindAll _ cs cs' h
      exact ⟨l', List.mem_cons_of_mem _ hl', hrest⟩

/-- Reading markers leaves nodes where they are. -/
theorem exists_pairsAll_of_bindAll (b : Binder) : (os : List (Live L)) → (new : List Node) →
    (l, n) ∈ pairsAll (bindAll make b os).1 new → ∃ l', (l', n) ∈ pairsAll os new ∧ l'.id = l.id ∧
    l'.tag? = l.tag?
  | [], new, h => by
    rw [bindAll, pairsAll] at h
    cases h
  | o :: os, [], h => by
    rw [bindAll, pairsAll] at h
    cases h
  | o :: os, n' :: ns, h => by
    rw [bindAll, pairsAll, List.mem_append] at h
    rcases h with h | h
    · obtain ⟨l', hl', hrest⟩ := exists_pairs_of_bind b o n' h
      exact ⟨l', List.mem_append_left _ hl', hrest⟩
    · obtain ⟨l', hl', hrest⟩ := exists_pairsAll_of_bindAll _ os ns h
      exact ⟨l', List.mem_append_right _ hl', hrest⟩

end

end Bind

/-- Of the markers in a list of nodes a node is bound by its own alone. -/
theorem first?_markers_of_mem {ns : List (Live L)} (hnd : (ns.map id).Nodup)
    {n : Live L} (hn : n ∈ ns) (kind : String) :
    Binding.first? n.id kind
    (ns.filterMap marker?) = Binding.first? n.id kind n.marker?.toList := by
  obtain ⟨xs, ys, rfl⟩ := List.append_of_mem hn
  rw [List.map_append, List.map_cons, List.nodup_append, List.nodup_cons] at hnd
  obtain ⟨-, ⟨hys, -⟩, hdisj⟩ := hnd
  have hxs : n.id ∉ xs.map id := fun h => hdisj _ h _ List.mem_cons_self rfl
  have hcons : (n :: ys).filterMap marker? = n.marker?.toList ++ ys.filterMap marker? := by
    rcases hm : n.marker? with _ | m
    · rw [List.filterMap_cons_none hm]
      rfl
    · rw [List.filterMap_cons_some hm]
      rfl
  rw [List.filterMap_append, hcons, Binding.first?_append, Binding.first?_append,
    first?_markers_eq_none hxs, first?_markers_eq_none hys, Option.none_or, Option.or_none]

end Live

namespace Document

variable {d : Document L}

/-- A node is found under its identity where no two nodes have the same. -/
theorem find?_of_mem (hnd : d.ids.Nodup) {n : Live L} (hn : n ∈ Live.subtrees d.children) :
    d.find? n.id = some n := by
  have hsome : (d.find? n.id).isSome := isSome_find?_iff.2 (List.mem_map_of_mem hn)
  obtain ⟨m, hm⟩ := Option.isSome_iff_exists.1 hsome
  obtain ⟨hmem, hid⟩ := mem_of_find? hm
  rw [hm, List.inj_on_of_nodup_map hnd hmem hn hid]

end Document

end LiveMarkup
