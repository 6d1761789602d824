import LiveMarkup.Proofs.Document.Compatible
import LiveMarkup.Proofs.Document.Repatch

/-!
# Patching with nodes of the same make

Lists of nodes are `Node.AllKin` if their elements agree, one after the other, in tags and attribute
names, and so do the elements below these.  Where texts stand, and how many, is left open.  As long
as no text faces an element, two such lists are compatible (`Node.AllKin.allCompatible`), so
patching turns one into the other (`Node.AllKin.patchAll_eq`).
-/

namespace LiveMarkup

/-- Attributes without repeated names, none of which is a marker. -/
structure Attributes.Distinct (as : List Attr) : Prop where
  nodup : (Attributes.names as).Nodup
  unmarked : eventAttribute ∉ Attributes.names as

theorem Attributes.sameNames_of_names_eq {old new : List Attr} (h : names old = names new) :
    SameNames old new := by
  induction old generalizing new with
  | nil => simp [SameNames]
  | cons o old ih =>
    cases new with
    | nil => cases h
    | cons n new =>
      rw [names_cons, names_cons, List.cons.injEq] at h
      exact sameNames_cons.2 ⟨h.1, ih h.2⟩

namespace Node

/-- Lists of nodes whose elements, one after the other, agree in tags and attribute names and in
what is below them. -/
inductive AllKin : List Node → List Node → Prop
  | nil : AllKin [] []
  | textLeft (t : String) {ns ns' : List Node} (h : AllKin ns ns') : AllKin (text t :: ns) ns'
  | textRight (t : String) {ns ns' : List Node} (h : AllKin ns ns') : AllKin ns (text t :: ns')
  | element (tag : String) {as as' : List Attr} {cs cs' ns ns' : List Node}
    (hd : Attributes.Distinct as)
    (ha : Attributes.names as = Attributes.names as') (hc : AllKin cs cs') (h : AllKin ns ns') :
    AllKin (element tag as cs :: ns) (element tag as' cs' :: ns')

mutual

/-- Whether a node is a text where the other one is, and so on below elements with the same tag. -/
def SameKind : Node → Node → Prop
  | text _, text _ => True
  | element tag _ cs, element tag' _ cs' => tag = tag' → AllSameKind cs cs'
  | text _, element .. => False
  | element .., text _ => False

/-- Whether no text faces an element. -/
def AllSameKind : List Node → List Node → Prop
  | o :: os, n :: ns => o.SameKind n ∧ AllSameKind os ns
  | _, _ => True

end

mutual

def decidableSameKind : (o n : Node) → Decidable (o.SameKind n)
  | text _, text _ => decidable_of_iff True (by rw [SameKind])
  | element tag _ cs, element tag' _ cs' =>
    haveI := decidableAllSameKind cs cs'
    decidable_of_iff (tag = tag' → AllSameKind cs cs') (by rw [SameKind])
  | text _, element .. => decidable_of_iff False (by rw [SameKind])
  | element .., text _ => decidable_of_iff False (by rw [SameKind])

def decidableAllSameKind : (os ns : List Node) → Decidable (AllSameKind os ns)
  | [], _ => decidable_of_iff True (by simp only [AllSameKind])
  | _ :: _, [] => decidable_of_iff True (by simp only [AllSameKind])
  | o :: os, n :: ns =>
    haveI := decidableSameKind o n
    haveI := decidableAllSameKind os ns
    decidable_of_iff (o.SameKind n ∧ AllSameKind os ns) (by rw [AllSameKind])

end

instance (os ns : List Node) : Decidable (AllSameKind os ns) := decidableAllSameKind os ns

namespace AllKin

variable {ns ns' ms ms' : List Node} {t : String}

theorem of_textLeft (h : AllKin (text t :: ns) ns') : AllKin ns ns' := by
  generalize hm : text t :: ns = ms at h
  induction h with
  | nil => cases hm
  | textLeft u h ih =>
    cases hm
    exact h
  | textRight u h ih => exact .textRight u (ih hm)
  | element => cases hm

theorem of_textRight (h : AllKin ns (text t :: ns')) : AllKin ns ns' := by
  generalize hm : text t :: ns' = ms at h
  induction h with
  | nil => cases hm
  | textLeft u h ih => exact .textLeft u (ih hm)
  | textRight u h ih =>
    cases hm
    exact h
  | element => cases hm

theorem append (h : AllKin ns ns') (h' : AllKin ms ms') : AllKin (ns ++ ms) (ns' ++ ms') := by
  induction h with
  | nil => exact h'
  | textLeft u h ih => exact .textLeft u ih
  | textRight u h ih => exact .textRight u ih
  | element tag hd ha hc h _ ih => exact .element tag hd ha hc ih

theorem reverse (h : AllKin ns ns') : AllKin ns.reverse ns'.reverse := by
  induction h with
  | nil => exact .nil
  | textLeft u h ih =>
    rw [List.reverse_cons]
    simpa using ih.append (.textLeft u .nil)
  | textRight u h ih =>
    rw [List.reverse_cons]
    simpa using ih.append (.textRight u .nil)
  | element tag hd ha hc h _ ih =>
    rw [List.reverse_cons, List.reverse_cons]
    exact ih.append (.element tag hd ha hc .nil)

/-- What has kin has no markers. -/
theorem allUnmarked (h : AllKin ns ns') : AllUnmarked ns' := by
  induction h with
  | nil => trivial
  | textLeft u h ih => exact ih
  | textRight u h ih =>
    rw [AllUnmarked, Unmarked]
    exact ⟨trivial, ih⟩
  | element tag hd ha hc h ihc ih =>
    rw [AllUnmarked, Unmarked, ← ha]
    exact ⟨⟨hd.unmarked, ihc⟩, ih⟩

theorem unmarkAll_eq (h : AllKin ns ns') : unmarkAll ns' = ns' := unmarkAll_eq_iff.2 h.allUnmarked

end AllKin

/-- Nodes of the same make are compatible unless a text faces an element. -/
theorem AllKin.allCompatible : {os ns : List Node} → AllKin os ns → AllSameKind os ns →
    AllCompatible os ns
  | [], ns, _, _ => by simp only [AllCompatible]
  | o :: os, [], _, _ => by simp only [AllCompatible]
  | .text t :: os, .text u :: ns, hk, hs => by
    rw [AllSameKind] at hs
    rw [AllCompatible, Compatible]
    exact ⟨trivial, AllKin.allCompatible hk.of_textLeft.of_textRight hs.2⟩
  | .element tag as cs :: os, .element tag' as' cs' :: ns, hk, hs => by
    rw [AllSameKind, SameKind] at hs
    rw [AllCompatible, Compatible]
    cases hk with
    | element _ hd ha hc h =>
      exact ⟨fun _ => ⟨hd.nodup, ha ▸ hd.nodup, Attributes.sameNames_of_names_eq ha,
        AllKin.allCompatible hc (hs.1 rfl)⟩, AllKin.allCompatible h hs.2⟩
  | .text t :: os, .element tag as cs :: ns, _, hs => by
    rw [AllSameKind, SameKind] at hs
    exact hs.1.elim
  | .element tag as cs :: os, .text t :: ns, _, hs => by
    rw [AllSameKind, SameKind] at hs
    exact hs.1.elim

/-- Patching turns nodes into others of the same make, unless a text faces an element. -/
theorem AllKin.patchAll_eq {os ns : List Node} (h : AllKin os ns) (hs : AllSameKind os ns) :
    (patchAll AttrPatch.byName os ns).1 = ns :=
  (h.allCompatible hs).patchAll_eq

end Node

end LiveMarkup
