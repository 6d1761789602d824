import LiveMarkup.Proofs.Document.PatchTree

/-!
# Patching with compatible nodes

Lists of nodes are `Node.AllCompatible` if at each index that both of them have, texts face texts,
and elements with the same tag repeat no attribute name, have the same names in the slots that both
of them have, and have compatible children.  How long the lists are, of nodes and of attributes, is
left open.  Storing a value in a slot then finds the attribute in that slot, so patching turns one
list into the other (`Node.AllCompatible.patchAll_eq`).
-/

namespace LiveMarkup

namespace Attributes

/-- Whether two lists of attributes have the same name in each slot that both of them have. -/
def SameNames (old new : List Attr) : Prop := ∀ on ∈ old.zip new, on.1.name = on.2.name

theorem sameNames_cons {o n : Attr} {old new : List Attr} :
    SameNames (o :: old) (n :: new) ↔ o.name = n.name ∧ SameNames old new := by
  simp [SameNames]

theorem zipWith_of_sameNames {old new : List Attr} (h : SameNames old new) :
    List.zipWith (fun o n => (⟨o.name, n.value⟩ : Attr)) old new = new.take old.length := by
  induction old generalizing new with
  | nil => rfl
  | cons o old ih =>
    cases new with
    | nil => rfl
    | cons n new =>
      rw [sameNames_cons] at h
      rw [List.zipWith_cons_cons, ih h.2, List.length_cons, List.take_succ_cons, h.1]

/-- Attributes of new names go behind the others. -/
theorem putAll_of_disjoint {as cs : List Attr} (hd : (names cs).Nodup)
    (h : ∀ name ∈ names cs, name ∉ names as) :
    putAll as cs = as ++ cs := by
  induction cs generalizing as with
  | nil => simp [putAll]
  | cons c cs ih =>
    rw [names_cons, List.nodup_cons] at hd
    have hput : put c.name c.value as = as ++ [c] := by
      have hbehind := put_append c.value (h c.name (by simp)) []
      rwa [List.append_nil] at hbehind
    rw [putAll, hput, ih hd.2, List.append_assoc, List.singleton_append]
    intro name hname
    have hne : name ≠ c.name := fun e => hd.1 (e ▸ hname)
    simp [hne, h name (by simp [hname])]

/-- Attributes with the same names in common slots become the new ones. -/
theorem byName_of_sameNames {old new : List Attr} (hd : (names old).Nodup) (hd' : (names new).Nodup)
    (h : SameNames old new) : (AttrPatch.byName old new).attrs = new := by
  rw [AttrPatch.byName_of_nodup new hd]
  show putAll (List.zipWith _ old new) (new.drop old.length) = new
  have hsplit : names (new.take old.length) ++ names (new.drop old.length) = names new := by
    rw [← names_append, List.take_append_drop]
  rw [← hsplit, List.nodup_append] at hd'
  obtain ⟨-, hdrop, hdisjoint⟩ := hd'
  rw [zipWith_of_sameNames h, putAll_of_disjoint hdrop, List.take_append_drop]
  exact fun name hin hout => hdisjoint name hout name hin rfl

end Attributes

namespace Node

mutual

/-- Whether a node is a text where the other one is, and if both are elements with the same tag,
whether the names of their attributes are distinct and the same in common slots, and their children
are compatible. -/
def Compatible : Node → Node → Prop
  | text _, text _ => True
  | element tag as cs, element tag' as' cs' => tag = tag' →
    (Attributes.names as).Nodup ∧ (Attributes.names as').Nodup ∧ Attributes.SameNames as as' ∧
    AllCompatible cs cs'
  | text _, element .. => False
  | element .., text _ => False

/-- Whether nodes at the same index are compatible. -/
def AllCompatible : List Node → List Node → Prop
  | o :: os, n :: ns => o.Compatible n ∧ AllCompatible os ns
  | _, _ => True

end

/-- Patching turns nodes into others that they are compatible with. -/
theorem AllCompatible.patchAll_eq : {os ns : List Node} → AllCompatible os ns →
    (patchAll AttrPatch.byName os ns).1 = ns
  | [], ns, _ => by rw [patchAll]
  | o :: os, [], _ => by rw [patchAll]
  | .text t :: os, .text u :: ns, h => by
    rw [AllCompatible] at h
    rw [patchAll, patch, AllCompatible.patchAll_eq h.2]
    rfl
  | .element tag as cs :: os, .element tag' as' cs' :: ns, h => by
    rw [AllCompatible, Compatible] at h
    rw [patchAll, patch, AllCompatible.patchAll_eq h.2]
    split_ifs with htag
    · obtain ⟨hd, hd', hnames, hcs⟩ := h.1 htag
      rw [Attributes.byName_of_sameNames hd hd' hnames, AllCompatible.patchAll_eq hcs, htag]
    · rfl
  | .text t :: os, .element tag as cs :: ns, h => by
    rw [AllCompatible, Compatible] at h
    exact h.1.elim
  | .element tag as cs :: os, .text t :: ns, h => by
    rw [AllCompatible, Compatible] at h
    exact h.1.elim

end Node

end LiveMarkup
