import LiveMarkup.Eval.World
import LiveMarkup.State.Key

/-!
# Tracked state

A `Tracked` value is a view of a container with a callback.  Reading a property that holds a
container gives a new view of that container with the same callback, never a copy.  A write changes
the container first and runs the callback once after that; a write that is refused changes nothing
and does not run it.  An error of the callback is the error of the write, whose effect stays.  A
write that would change a locked array stops the program, and one that is refused does so before it
comes to that.
-/

namespace LiveMarkup

/-- A view of a value, with what is to be done after each write. -/
structure Tracked (σ : Type) where
  target : Value
  onChange : Run (World σ) Error Unit

/-- What reading a property gives: a view of a container, or any other value. -/
inductive Reading (σ : Type) where
  | value (v : Value)
  | tracked (t : Tracked σ)

variable {σ : Type}

namespace Reading

/-- A view of a container; any other value stays as it is. -/
def wrap (v : Value) (onChange : Run (World σ) Error Unit) : Reading σ :=
  if v.isContainer then tracked ⟨v, onChange⟩ else value v

def tracked? : Reading σ → Option (Tracked σ)
  | tracked t => some t
  | value _ => none

/-- The value that was read, without the view. -/
def toValue : Reading σ → Value
  | tracked t => t.target
  | value v => v

def asNumber? : Reading σ → Option Float
  | tracked _ => none
  | value v => v.asNumber?

end Reading

namespace Tracked

/-- The value under a key. -/
def getValue (t : Tracked σ) (h : Heap) (k : Key) : Value := k.read h t.target

/-- The value under a key, or a view of it if it is a container. -/
def get (t : Tracked σ) (h : Heap) (k : Key) : Reading σ := .wrap (t.getValue h k) t.onChange

/-- Runs the callback after a write that was not refused, unless the write goes to a locked
array. -/
def commit (t : Tracked σ) (locked : List ArrayId) (written : Heap → Except StateError Heap) :
    Run (World σ) Error Unit := fun w =>
  match written w.heap with
  | .ok h =>
    if t.target.isArrayIn locked then (.stopped .panic, w) else t.onChange { w with heap := h }
  | .error e => (.error (.state e), w)

/-- Stores a value under a key while some arrays are locked. -/
def setUnder (t : Tracked σ) (locked : List ArrayId) (k : Key) (v : Value) :
    Run (World σ) Error Unit :=
  t.commit locked fun h => k.write h t.target v

/-- Puts an item at the end of an array while some arrays are locked. -/
def pushUnder (t : Tracked σ) (locked : List ArrayId) (v : Value) : Run (World σ) Error Unit :=
  t.commit locked fun h => appendItem h t.target v

/-- Stores a value under a key. -/
def set (t : Tracked σ) (k : Key) (v : Value) : Run (World σ) Error Unit := t.setUnder [] k v

/-- Puts an item at the end of an array. -/
def push (t : Tracked σ) (v : Value) : Run (World σ) Error Unit := t.pushUnder [] v

/-- The number of items or properties. -/
def size (t : Tracked σ) (h : Heap) : Nat := lengthOf h t.target

/-- The keys in order. -/
def keys (t : Tracked σ) (h : Heap) : List String := keysOf h t.target

end Tracked

end LiveMarkup
