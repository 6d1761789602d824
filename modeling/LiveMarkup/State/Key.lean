import LiveMarkup.Error
import LiveMarkup.Number.Read
import LiveMarkup.Value.Coerce

/-!
# Reading and writing containers

A key names a property of an object, or an item of an array by its index; the name `length` stands
for the length of an array.  `Key.read` gives `undefined` where there is nothing.  `Key.write`
stores a value: an object keeps the order of its properties, and an array grows as far as it must,
with `undefined` in new places.  `appendItem` puts an item at the end of an array.  A write that the
target cannot take is refused, and then no container changes.
-/

namespace LiveMarkup

/-- A key of a container. -/
inductive Key where
  | name (text : String)
  | index (i : Nat)
  deriving Repr, DecidableEq

/-- The greatest length that a write may give to an array. -/
def maxArrayLength : Nat := Nat.pow 2 32 - 1

/-- The array length that a value stands for. -/
def arrayLength? (h : Heap) (v : Value) : Option Nat :=
  match Binary.ofFloat (v.toNumber h) with
  | .finite neg m q =>
    ((Binary.finite neg m q).natAbs?).filter fun n => (!neg || n == 0) && n ≤ maxArrayLength
  | _ => none

/-- Items cut down or filled up with `undefined` to a length. -/
def resize (vs : Array Value) (n : Nat) : Array Value :=
  vs.extract 0 n ++ Array.replicate (n - vs.size) .undefined

/-- Items with a value stored at an index. -/
def storeItem (vs : Array Value) (i : Nat) (v : Value) : Array Value :=
  (if i < vs.size then vs else resize vs (i + 1)).setIfInBounds i v

namespace Key

/-- The key as the name of a property. -/
def text : Key → String
  | name t => t
  | index i => toString i

/-- The key as an index of an array. -/
def index? : Key → Option Nat
  | name t => readIndex? t
  | index i => some i

/-- The value under a key. -/
def read (h : Heap) (target : Value) (k : Key) : Value :=
  match target with
  | .object r => (Entries.get? k.text (h.entries r)).getD .undefined
  | .array r =>
    if k = .name "length" then .ofNat (h.items r).size
    else ((k.index?).bind fun i => (h.items r)[i]?).getD .undefined
  | _ => .undefined

/-- The heap after a value has been stored under a key. -/
def write (h : Heap) (target : Value) (k : Key) (v : Value) : Except StateError Heap :=
  match target with
  | .object r => .ok (h.setEntries r (Entries.put k.text v (h.entries r)))
  | .array r =>
    if k = .name "length" then
      match arrayLength? h v with
      | some n => .ok (h.setItems r (resize (h.items r) n))
      | none => .error (.invalidLength (v.text h))
    else
      match k.index? with
      | some i =>
        if i < maxArrayLength then .ok (h.setItems r (storeItem (h.items r) i v))
        else .error (.invalidIndex i)
      | none => .error (.notIndex k.text)
  | _ => .error (.notContainer target.typeName)

end Key

/-- The heap after an item has been put at the end of an array. -/
def appendItem (h : Heap) (target v : Value) : Except StateError Heap :=
  match target with
  | .array r => .ok (h.setItems r ((h.items r).push v))
  | _ => .error (.notArray target.typeName)

/-- The number of items or properties of a container. -/
def lengthOf (h : Heap) : Value → Nat
  | .array r => (h.items r).size
  | .object r => (h.entries r).length
  | _ => 0

/-- The keys of a container in order, those of an array as texts. -/
def keysOf (h : Heap) : Value → List String
  | .array r => (List.range (h.items r).size).map toString
  | .object r => Entries.keys (h.entries r)
  | _ => []

@[simp] theorem size_resize (vs : Array Value) (n : Nat) : (resize vs n).size = n := by
  simp only [resize, Array.size_append, Array.size_extract, Array.size_replicate]
  omega

theorem size_storeItem (vs : Array Value) (i : Nat) (v : Value) :
    (storeItem vs i v).size = max vs.size (i + 1) := by
  by_cases h : i < vs.size
  · simp only [storeItem, if_pos h, Array.size_setIfInBounds]
    omega
  · simp only [storeItem, if_neg h, Array.size_setIfInBounds, size_resize]
    omega

end LiveMarkup
