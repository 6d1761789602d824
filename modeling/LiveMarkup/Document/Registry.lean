import LiveMarkup.Document.Live
import Std.Data.TreeMap

/-!
# Registries of bound events

A registry holds the pairs of a node and a kind of event that have been bound, the latest first.  It
only grows, and `contains` says whether a pair is in it.  A look-up goes through the kinds of the
node alone, which are kept beside the pairs.
-/

namespace LiveMarkup

structure Registry where
  /-- What has been bound, the latest first. -/
  pairs : List (NodeId × String)
  /-- The kinds that have been bound, by node. -/
  kinds : Std.TreeMap NodeId (List String)
  mem_kinds_iff : ∀ i kind, kind ∈ kinds.getD i [] ↔ (i, kind) ∈ pairs

namespace Registry

/-- The registry in which nothing is bound. -/
def empty : Registry where
  pairs := []
  kinds := ∅
  mem_kinds_iff i kind := by simp

instance : Inhabited Registry := ⟨empty⟩

def isEmpty (r : Registry) : Bool := r.pairs.isEmpty

/-- The number of pairs. -/
def size (r : Registry) : Nat := r.pairs.length

/-- Whether a kind of event has been bound at a node. -/
def contains (r : Registry) (i : NodeId) (kind : String) : Bool := (r.kinds.getD i []).contains kind

/-- The registry with one more pair. -/
def insert (r : Registry) (i : NodeId) (kind : String) : Registry where
  pairs := (i, kind) :: r.pairs
  kinds := r.kinds.insert i (kind :: r.kinds.getD i [])
  mem_kinds_iff j kind' := by
    rw [Std.TreeMap.getD_insert, List.mem_cons, Prod.mk.injEq, ← r.mem_kinds_iff j kind']
    by_cases h : i = j
    · subst h
      simp
    · simp [h, Ne.symm h]

theorem contains_iff {r : Registry} {i : NodeId} {kind : String} :
    r.contains i kind = true ↔ (i, kind) ∈ r.pairs := by
  rw [contains, List.contains_iff_mem, r.mem_kinds_iff]

@[simp] theorem pairs_insert (r : Registry) (i : NodeId) (kind : String) :
    (r.insert i kind).pairs = (i, kind) :: r.pairs := rfl

end Registry

end LiveMarkup
