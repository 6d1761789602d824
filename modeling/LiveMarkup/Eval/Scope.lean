import LiveMarkup.Eval.World

/-!
# Names in scope

While a template is rendered, a name stands for the innermost binding of that name or else for a
field. Blocks open frames of bindings; the outermost frame holds the fields that the template has
assigned to. Fields themselves never change.
-/

namespace LiveMarkup

/-- Bindings of one block.  Of several bindings of a name the first one counts. -/
abbrev Frame := List (String × Value)

/-- The frames of the open blocks, innermost first, and the outermost frame. -/
structure Scope where
  inner : List Frame
  outer : Frame

namespace Frame

/-- The value that a name is bound to. -/
def get? (name : String) : Frame → Option Value
  | [] => none
  | (k, v) :: f => if k = name then some v else get? name f

/-- The frame with a new value for a name, if it binds that name. -/
def set? (name : String) (v : Value) : Frame → Option Frame
  | [] => none
  | (k, w) :: f => if k = name then some ((k, v) :: f) else (set? name v f).map ((k, w) :: ·)

/-- The frame with a name bound to a value. -/
def bind (name : String) (v : Value) (f : Frame) : Frame := (set? name v f).getD ((name, v) :: f)

end Frame

namespace Scope

def empty : Scope := ⟨[], []⟩

/-- The value of the innermost binding of a name. -/
def get? (s : Scope) (name : String) : Option Value :=
  match s.inner.findSome? (Frame.get? name) with
  | some v => some v
  | none => Frame.get? name s.outer

/-- The value that a name stands for. -/
def lookup? (s : Scope) (fields : Entries Value) (name : String) : Option Value :=
  match s.get? name with
  | some v => some v
  | none => Entries.get? name fields

/-- The scope with a name bound in the innermost frame. -/
def declare (s : Scope) (name : String) (v : Value) : Scope :=
  match s.inner with
  | f :: fs => { s with inner := f.bind name v :: fs }
  | [] => { s with outer := s.outer.bind name v }

/-- The frames with a new value in the innermost binding of a name, if they have one. -/
def setInner? (name : String) (v : Value) : List Frame → Option (List Frame)
  | [] => none
  | f :: fs =>
    match Frame.set? name v f with
    | some f' => some (f' :: fs)
    | none => (setInner? name v fs).map (f :: ·)

/-- The scope after an assignment, which changes the innermost binding.  A field gets a binding in
the outermost frame; a name that is neither bound nor a field cannot be assigned to. -/
def assign? (s : Scope) (fields : Entries Value) (name : String) (v : Value) : Option Scope :=
  match setInner? name v s.inner with
  | some inner => some { s with inner := inner }
  | none =>
    match Frame.set? name v s.outer with
    | some outer => some { s with outer := outer }
    | none =>
      if (Entries.get? name fields).isSome then some { s with outer := (name, v) :: s.outer }
      else none

/-- The scope inside a new block. -/
def enter (s : Scope) (f : Frame) : Scope := { s with inner := f :: s.inner }

/-- The scope after the innermost block. -/
def leave (s : Scope) : Scope := { s with inner := s.inner.tail }

end Scope

end LiveMarkup
