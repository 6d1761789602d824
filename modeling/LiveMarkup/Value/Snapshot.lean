import LiveMarkup.Value.Basic
import LiveMarkup.Number.Binary

/-!
# Snapshots

A snapshot is a value written out in full, without sharing: `Value.snapshot` unfolds arrays and
objects and puts `null` where a container is met again inside itself.  Integral numbers of moderate
size are kept as integers; `undefined`, functions and numbers that are not finite become `null`.
-/

namespace LiveMarkup

inductive Snapshot where
  | null
  | bool (b : Bool)
  | integer (n : Int)
  | fraction (x : Float)
  | string (s : String)
  | array (items : List Snapshot)
  | object (entries : List (String × Snapshot))
  deriving Repr

/-- Integral numbers below this magnitude are kept as integers. -/
def integerBound : Nat := 9 * Nat.pow 10 15

/-- The snapshot of a number. -/
def numberSnapshot (x : Float) : Snapshot :=
  match Binary.ofFloat x with
  | .finite neg m q =>
    match (Binary.finite neg m q).natAbs? with
    | some n =>
      if n < integerBound then .integer (if neg then -(n : Int) else (n : Int)) else .fraction x
    | none => .fraction x
  | _ => .null

namespace Value

/-- The snapshot of a value met while the containers `opn` are open. -/
def snapshotWithin (h : Heap) (opn : List Container) : Value → Snapshot
  | undefined | null | function _ => .null
  | bool b => .bool b
  | number x => numberSnapshot x
  | string s => .string s
  | array r =>
    if _hr : r < h.arrays.size ∧ Container.array r ∉ opn then
      .array ((h.items r).toList.map fun v => snapshotWithin h (.array r :: opn) v)
    else if Container.array r ∈ opn then .null else .array []
  | object r =>
    if _hr : r < h.objects.size ∧ Container.object r ∉ opn then
      .object ((h.entries r).map fun e => (e.1, snapshotWithin h (.object r :: opn) e.2))
    else if Container.object r ∈ opn then .null else .object []
termination_by h.closedContainers opn
decreasing_by
  · exact Heap.closedContainers_cons_lt (Heap.array_mem_containers _hr.1) _hr.2
  · exact Heap.closedContainers_cons_lt (Heap.object_mem_containers _hr.1) _hr.2

/-- The snapshot of a value. -/
def snapshot (h : Heap) (v : Value) : Snapshot := v.snapshotWithin h []

end Value

end LiveMarkup
