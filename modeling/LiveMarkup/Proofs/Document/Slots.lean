import LiveMarkup.Proofs.Document.Repatch

/-!
# Patching slot by slot

A patch goes by the names of attributes.  As long as no element repeats a name, this is going slot
by slot (`AttrPatch.bySlot`).  If one does, new nodes of the same shape tell the two apart, in which
each attribute of an element has a value of its own (`Node.relabel`): the last value of a name ends
up in its first slot.  So patching is going slot by slot, whatever the new nodes are, just if no
element repeats a name (`Node.patchAll_eq_bySlot_iff`).
-/

namespace LiveMarkup

namespace Attributes

/-- The attributes with a value of its own for each of them. -/
def numbered : List Attr → List Attr
  | [] => []
  | a :: as => ⟨a.name, String.ofList (List.replicate as.length '*')⟩ :: numbered as

@[simp] theorem names_numbered (as : List Attr) : names (numbered as) = names as := by
  induction as with
  | nil => rfl
  | cons a as ih => rw [numbered, names_cons, names_cons, ih]

@[simp] theorem length_numbered (as : List Attr) : (numbered as).length = as.length := by
  induction as with
  | nil => rfl
  | cons a as ih => rw [numbered, List.length_cons, List.length_cons, ih]

theorem length_value_lt {as : List Attr} {name value : String}
    (h : last? name (numbered as) = some value) :
    value.toList.length < as.length := by
  induction as with
  | nil => cases h
  | cons a as ih =>
    rw [numbered, last?] at h
    rw [List.length_cons]
    rcases hlast : last? name (numbered as) with _ | v
    · rw [hlast] at h
      dsimp only at h
      split_ifs at h
      cases h
      simp
    · rw [hlast] at h
      cases h
      exact Nat.lt_succ_of_lt (ih hlast)

theorem zipWith_numbered (as : List Attr) :
    List.zipWith (fun o n => (⟨o.name, n.value⟩ : Attr)) as (numbered as) = numbered as := by
  induction as with
  | nil => rfl
  | cons a as ih => rw [numbered, List.zipWith_cons_cons, ih]

/-- Values that are stored one after the other get to slots of their own only if no name is
repeated. -/
theorem nodup_of_putAll_numbered {as : List Attr} (h : putAll as (numbered as) = numbered as) :
    (names as).Nodup := by
  induction as with
  | nil => exact List.nodup_nil
  | cons a as ih =>
    rw [numbered, putAll_cons, List.cons.injEq, Attr.mk.injEq, last?] at h
    obtain ⟨⟨-, hvalue⟩, hrest⟩ := h
    have hfree : a.name ∉ names as := by
      rw [← names_numbered, ← last?_eq_none_iff, Option.eq_none_iff_forall_ne_some]
      intro v hv
      rw [hv] at hvalue
      have hlt := length_value_lt hv
      rw [show v = _ from hvalue] at hlt
      simp at hlt
    have hother : (numbered as).filter (·.name ≠ a.name) = numbered as := by
      refine List.filter_eq_self.2 fun b hb => ?_
      have hname : b.name ∈ names as := names_numbered as ▸ List.mem_map_of_mem hb
      have hne : b.name ≠ a.name := fun heq => hfree (heq ▸ hname)
      simpa using hne
    rw [List.filter_cons_of_neg (by simp), hother] at hrest
    exact List.nodup_cons.2 ⟨hfree, ih hrest⟩

/-- Going by names is going slot by slot only if no old name is repeated. -/
theorem nodup_of_byName_eq {as : List Attr}
    (h : (AttrPatch.byName as (numbered as)).attrs = (AttrPatch.bySlot as (numbered as)).attrs) :
    (names as).Nodup := by
  apply nodup_of_putAll_numbered
  rw [AttrPatch.byName, AttrPatch.bySlot] at h
  dsimp only at h
  rwa [faced, zipWith_numbered, List.drop_of_length_le (Nat.le_of_eq (length_numbered as)),
    List.drop_of_length_le (Nat.le_of_eq (length_numbered as).symm), List.append_nil,
    dropAll, putAll] at h

end Attributes

namespace Node

mutual

/-- A node of the same shape, in which the attributes of an element differ in their values. -/
def relabel : Node → Node
  | text t => text t
  | element tag as cs => element tag (Attributes.numbered as) (relabelAll cs)

def relabelAll : List Node → List Node
  | [] => []
  | n :: ns => n.relabel :: relabelAll ns

end

mutual

theorem distinctNames_of_patch_relabel : (n : Node) →
    (n.patch AttrPatch.byName n.relabel).1 = (n.patch AttrPatch.bySlot n.relabel).1 →
    n.DistinctNames
  | text t, _ => by
    rw [DistinctNames]
    trivial
  | element tag as cs, h => by
    rw [relabel, patch, patch, if_pos rfl, if_pos rfl, Node.element.injEq] at h
    rw [DistinctNames]
    exact ⟨Attributes.nodup_of_byName_eq h.2.1, allDistinctNames_of_patchAll_relabelAll cs h.2.2⟩

theorem allDistinctNames_of_patchAll_relabelAll : (ns : List Node) →
    (patchAll AttrPatch.byName ns (relabelAll ns)).1 =
      (patchAll AttrPatch.bySlot ns (relabelAll ns)).1 →
      AllDistinctNames ns
  | [], _ => by
    rw [AllDistinctNames]
    trivial
  | n :: ns, h => by
    rw [relabelAll, patchAll, patchAll, List.cons.injEq] at h
    rw [AllDistinctNames]
    exact ⟨distinctNames_of_patch_relabel n h.1, allDistinctNames_of_patchAll_relabelAll ns h.2⟩

end

/-- Nodes are patched slot by slot, whatever the new nodes are, just if no element repeats the name
of an attribute. -/
theorem patchAll_eq_bySlot_iff (old : List Node) :
    (∀ new, patchAll AttrPatch.byName old new = patchAll AttrPatch.bySlot old new) ↔
      AllDistinctNames old := by
  constructor
  · intro h
    exact allDistinctNames_of_patchAll_relabelAll old (congrArg Prod.fst (h (relabelAll old)))
  · intro h new
    exact patchAll_congr (fun _ new hd => AttrPatch.byName_of_nodup new hd) old new h

end Node

end LiveMarkup
