import LiveMarkup.Proofs.Document.PatchTree

/-!
# Patching with the nodes that are there

A list of attributes is `Attributes.Unambiguous` if those with the same name have the same value,
that is, if what is found under the name of each attribute is its own value.  Patching with the
nodes that are there stores each value under the name that it has already.  So nothing is counted
just if no element is ambiguous (`Node.patchAll_self_stats_iff`): under a name with two values, one
of them is always stored in the place of the other.
-/

namespace LiveMarkup

namespace Attributes

variable {as cs : List Attr}

/-- Whether attributes with the same name have the same value. -/
def Unambiguous (as : List Attr) : Prop := ∀ a ∈ as, ∀ b ∈ as, a.name = b.name → a.value = b.value

theorem mem_of_get? {name value : String} (h : get? name as = some value) : ⟨name, value⟩ ∈ as := by
  induction as with
  | nil => cases h
  | cons a as ih =>
    rw [get?] at h
    split_ifs at h with hname
    · cases h
      cases hname
      exact List.mem_cons_self
    · exact List.mem_cons_of_mem _ (ih h)

/-- All values are found just if no name has two of them. -/
theorem unambiguous_iff : Unambiguous as ↔ ∀ a ∈ as, get? a.name as = some a.value := by
  refine ⟨fun h a ha => ?_, fun h a ha b hb hname => ?_⟩
  · obtain ⟨value, hvalue⟩ :=
      Option.isSome_iff_exists.1 (get?_isSome_iff.2 (List.mem_map_of_mem ha))
    have heq : value = a.value := h _ (mem_of_get? hvalue) a ha rfl
    rw [hvalue, heq]
  · have hget := h a ha
    rw [hname, h b hb] at hget
    exact (Option.some.inj hget).symm

/-- Storing changes nothing just if each value is there to begin with. -/
theorem changes_eq_zero_iff : changes as cs = 0 ↔ ∀ c ∈ cs, get? c.name as = some c.value := by
  induction cs with
  | nil => simp [changes]
  | cons c cs ih =>
    rw [changes, List.forall_mem_cons]
    by_cases hc : get? c.name as = some c.value
    · simp [hc, put_of_get?_eq hc, ih]
    · simp [hc]

@[simp] theorem faced_self (as : List Attr) : faced as as = as := by
  induction as with
  | nil => rfl
  | cons a as ih => rw [faced_cons_cons, ih]

theorem byName_self_stats_iff : (AttrPatch.byName as as).stats = .none ↔ Unambiguous as := by
  rw [unambiguous_iff, ← changes_eq_zero_iff]
  simp [AttrPatch.byName, AttrPatch.stats, PatchStats.none]

end Attributes

namespace PatchStats

/-- How much was done in all. -/
def edits (s : PatchStats) : Nat :=
  s.textUpdates + s.attrsSet + s.attrsRemoved + s.replacements + s.removals + s.insertions

theorem edits_add (s t : PatchStats) : (s + t).edits = s.edits + t.edits := by
  show (s.add t).edits = _
  simp only [edits, add]
  omega

theorem edits_eq_zero_iff {s : PatchStats} : s.edits = 0 ↔ s = none := by
  obtain ⟨t, as, ar, re, rm, ins⟩ := s
  simp only [edits, none, mk.injEq]
  omega

theorem add_eq_none_iff {s t : PatchStats} : s + t = none ↔ s = none ∧ t = none := by
  rw [← edits_eq_zero_iff, edits_add, Nat.add_eq_zero_iff, edits_eq_zero_iff, edits_eq_zero_iff]

end PatchStats

namespace Node

mutual

/-- Whether in each element of a node, attributes with the same name have the same value. -/
def Unambiguous : Node → Prop
  | text _ => True
  | element _ as cs => Attributes.Unambiguous as ∧ AllUnambiguous cs

/-- Whether in each element of several nodes, attributes with the same name have the same value. -/
def AllUnambiguous : List Node → Prop
  | [] => True
  | n :: ns => n.Unambiguous ∧ AllUnambiguous ns

end

mutual

theorem patch_self_stats_iff : (n : Node) → ((n.patch AttrPatch.byName n).2 = .none ↔ n.Unambiguous)
  | text t => by simp [patch, Node.asText?, Unambiguous]
  | element tag as cs => by
    rw [patch, if_pos rfl, Unambiguous, PatchStats.add_eq_none_iff,
      Attributes.byName_self_stats_iff, patchAll_self_stats_iff cs]

/-- Patching with the nodes that are there counts nothing just if they are unambiguous. -/
theorem patchAll_self_stats_iff : (ns : List Node) →
    ((patchAll AttrPatch.byName ns ns).2 = .none ↔ AllUnambiguous ns)
  | [] => by
    rw [patchAll, AllUnambiguous]
    exact iff_true_intro rfl
  | n :: ns => by
    rw [patchAll, AllUnambiguous, PatchStats.add_eq_none_iff, patch_self_stats_iff n,
      patchAll_self_stats_iff ns]

end

end Node

end LiveMarkup
