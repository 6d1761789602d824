import LiveMarkup.Entries

/-!
# Values

Values are what component state, template fields and expressions hold.  Arrays and objects are
shared: a value holds only the name of the container, and the contents stand in a `Heap`.  Two
values with the same name see each other's writes, and a container may hold itself.
-/

namespace LiveMarkup

/-- The name of a shared array. -/
abbrev ArrayId := Nat

/-- The name of a shared object. -/
abbrev ObjectId := Nat

/-- The name of a function that user code supplies. -/
abbrev FunctionId := Nat

inductive Value where
  | undefined
  | null
  | bool (b : Bool)
  | number (x : Float)
  | string (s : String)
  | array (r : ArrayId)
  | object (r : ObjectId)
  | function (f : FunctionId)
  deriving Inhabited, Repr

/-- The name of a shared container of either kind. -/
inductive Container where
  | array (r : ArrayId)
  | object (r : ObjectId)
  deriving DecidableEq, Repr

namespace Value

/-- The container that a value names. -/
def container? : Value → Option Container
  | array r => some (.array r)
  | object r => some (.object r)
  | _ => none

def isContainer (v : Value) : Bool := v.container?.isSome

/-- Whether a value is one of some arrays. -/
def isArrayIn (rs : List ArrayId) : Value → Bool
  | array r => rs.contains r
  | _ => false

def isNullish : Value → Bool
  | undefined | null => true
  | _ => false

/-- Whether a value is compared by what it is and not by its name. -/
def isPrimitive : Value → Bool
  | array _ | object _ | function _ => false
  | _ => true

def typeName : Value → String
  | undefined => "undefined"
  | null => "null"
  | bool _ => "boolean"
  | number _ => "number"
  | string _ => "string"
  | array _ | object _ => "object"
  | function _ => "function"

def asNumber? : Value → Option Float
  | number x => some x
  | _ => none

def asString? : Value → Option String
  | string s => some s
  | _ => none

def asBool? : Value → Option Bool
  | bool b => some b
  | _ => none

/-- Whether a test on the value succeeds. -/
def truthy : Value → Bool
  | undefined | null => false
  | bool b => b
  | number x => x != 0.0 && !x.isNaN
  | string s => s != ""
  | array _ | object _ | function _ => true

/-- A count as a number value. -/
def ofNat (n : Nat) : Value := number (Float.ofNat n)

end Value

/-! ### The contents of containers -/

/-- The contents of all shared arrays and objects.  A name beyond the stores names nothing and reads
as empty. -/
structure Heap where
  arrays : Array (Array Value)
  objects : Array (Entries Value)
  deriving Inhabited

namespace Heap

def empty : Heap := ⟨#[], #[]⟩

/-- The items of an array. -/
def items (h : Heap) (r : ArrayId) : Array Value := h.arrays.getD r #[]

/-- The properties of an object in insertion order. -/
def entries (h : Heap) (r : ObjectId) : Entries Value := h.objects.getD r []

def setItems (h : Heap) (r : ArrayId) (vs : Array Value) : Heap :=
  { h with arrays := h.arrays.setIfInBounds r vs }

def setEntries (h : Heap) (r : ObjectId) (es : Entries Value) : Heap :=
  { h with objects := h.objects.setIfInBounds r es }

/-- A new array. -/
def newArray (h : Heap) (vs : Array Value) : Value × Heap :=
  (.array h.arrays.size, { h with arrays := h.arrays.push vs })

/-- A new object. -/
def newObject (h : Heap) (es : Entries Value) : Value × Heap :=
  (.object h.objects.size, { h with objects := h.objects.push es })

theorem items_eq_empty {h : Heap} {r : ArrayId} (hr : h.arrays.size ≤ r) : h.items r = #[] := by
  simp [items, Array.getD, Nat.not_lt.2 hr]

theorem items_setItems_self {h : Heap} {r : ArrayId} (hr : r < h.arrays.size) (vs : Array Value) :
    (h.setItems r vs).items r = vs := by
  simp [items, setItems, Array.getD, hr]

theorem items_setItems_ne {h : Heap} {r r' : ArrayId} (hne : r' ≠ r) (vs : Array Value) :
    (h.setItems r vs).items r' = h.items r' := by
  by_cases hr : r' < h.arrays.size <;> simp [items, setItems, Array.getD, hr, Ne.symm hne]

theorem entries_setEntries_self {h : Heap} {r : ObjectId} (hr : r < h.objects.size)
    (es : Entries Value) : (h.setEntries r es).entries r = es := by
  simp [entries, setEntries, Array.getD, hr]

theorem entries_setEntries_ne {h : Heap} {r r' : ObjectId} (hne : r' ≠ r) (es : Entries Value) :
    (h.setEntries r es).entries r' = h.entries r' := by
  by_cases hr : r' < h.objects.size <;> simp [entries, setEntries, Array.getD, hr, Ne.symm hne]

@[simp] theorem entries_setItems (h : Heap) (r : ArrayId) (vs : Array Value) (r' : ObjectId) :
    (h.setItems r vs).entries r' = h.entries r' := rfl

@[simp] theorem items_setEntries (h : Heap) (r : ObjectId) (es : Entries Value) (r' : ArrayId) :
    (h.setEntries r es).items r' = h.items r' := rfl

/-! ### Containers not yet open -/

/-- How many arrays of the heap are not in `opn`.  A walk that opens each array at most once on its
path gets smaller in this measure. -/
def closedArrays (h : Heap) (opn : List ArrayId) : Nat :=
  ((List.range h.arrays.size).filter (· ∉ opn)).length

private theorem length_filter_cons_lt {α : Type} [DecidableEq α] {xs opn : List α} {x : α}
    (hx : x ∈ xs) (ho : x ∉ opn) :
    (xs.filter (· ∉ x :: opn)).length < (xs.filter (· ∉ opn)).length := by
  have hsub : (xs.filter (· ∉ x :: opn)) = (xs.filter (· ∉ opn)).filter (· ≠ x) := by
    rw [List.filter_filter]
    congr 1
    funext a
    by_cases h1 : a = x <;> by_cases h2 : a ∈ opn <;> simp [h1, h2]
  rw [hsub]
  apply List.length_filter_lt_length_iff_exists.2
  exact ⟨x, by simp [hx, ho], by simp⟩

theorem closedArrays_cons_lt {h : Heap} {opn : List ArrayId} {r : ArrayId} (hr : r < h.arrays.size)
    (ho : r ∉ opn) : h.closedArrays (r :: opn) < h.closedArrays opn :=
  length_filter_cons_lt (List.mem_range.2 hr) ho

/-- All containers of the heap. -/
def containers (h : Heap) : List Container :=
  (List.range h.arrays.size).map .array ++ (List.range h.objects.size).map .object

/-- How many containers of the heap are not in `opn`. -/
def closedContainers (h : Heap) (opn : List Container) : Nat :=
  (h.containers.filter (· ∉ opn)).length

theorem closedContainers_cons_lt {h : Heap} {opn : List Container} {c : Container}
    (hc : c ∈ h.containers) (ho : c ∉ opn) :
    h.closedContainers (c :: opn) < h.closedContainers opn :=
  length_filter_cons_lt hc ho

theorem array_mem_containers {h : Heap} {r : ArrayId} (hr : r < h.arrays.size) :
    .array r ∈ h.containers := by
  simp [containers, hr]

theorem object_mem_containers {h : Heap} {r : ObjectId} (hr : r < h.objects.size) :
    .object r ∈ h.containers := by
  simp [containers, hr]

end Heap

end LiveMarkup
