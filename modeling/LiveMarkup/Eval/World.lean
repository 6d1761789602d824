import LiveMarkup.Value.Basic

/-!
# Worlds and runs

Rendering a template may call functions of user code, which may do anything to the contents of
shared containers and to the private state of user code.  A `World` is these two together.  A `Run`
is a computation that changes a state and ends in an `Outcome`: a result, an error, or no result
because the program has stopped.  The state keeps what was done up to that point in each case.

A `Runtime` says what calling a function does, and an `Escape` turns a value into output text.
While the items of an array are written out the array is locked: a function that is called for one
of them can read it, but writing to it stops the program.
-/

namespace LiveMarkup

/-- Shared containers and the private state of user code. -/
structure World (σ : Type) where
  heap : Heap
  user : σ

/-- Why a program stops without a result. -/
inductive Stop where
  /-- A bound on nesting was reached. -/
  | bound
  /-- A locked array was to be written to. -/
  | panic
  deriving Repr, DecidableEq

/-- How a run ends. -/
inductive Outcome (ε α : Type) where
  | ok (a : α)
  | error (e : ε)
  | stopped (why : Stop)

/-- The outcome with its result changed. -/
def Outcome.map {ε α β : Type} (f : α → β) : Outcome ε α → Outcome ε β
  | ok a => ok (f a)
  | error e => error e
  | stopped why => stopped why

/-- The outcome with its error changed. -/
def Outcome.mapError {ε δ α : Type} (f : ε → δ) : Outcome ε α → Outcome δ α
  | ok a => ok a
  | error e => error (f e)
  | stopped why => stopped why

/-- The outcome of a computation that only succeeds or fails. -/
def Outcome.ofExcept {ε α : Type} : Except ε α → Outcome ε α
  | .ok a => ok a
  | .error e => error e

/-- The outcome of a computation that cannot fail but may stop. -/
def Outcome.ofStop {ε α : Type} : Except Stop α → Outcome ε α
  | .ok a => ok a
  | .error why => stopped why

/-- A computation on a state. -/
def Run (S ε α : Type) := S → Outcome ε α × S

namespace Run

variable {S ε α β : Type}

@[inline] protected def pure (a : α) : Run S ε α := fun s => (.ok a, s)

@[inline] protected def bind (r : Run S ε α) (f : α → Run S ε β) : Run S ε β := fun s =>
  match r s with
  | (.ok a, s') => f a s'
  | (.error e, s') => (.error e, s')
  | (.stopped why, s') => (.stopped why, s')

@[always_inline]
instance : Monad (Run S ε) where
  pure := Run.pure
  bind := Run.bind

/-- Ends with an error. -/
def fail (e : ε) : Run S ε α := fun s => (.error e, s)

/-- Does nothing and ends as told. -/
def ofOutcome (o : Outcome ε α) : Run S ε α := fun s => (o, s)

/-- Reads the state. -/
def read (f : S → α) : Run S ε α := fun s => (.ok (f s), s)

/-- The computation with its error as a value. -/
def attempt (r : Run S ε α) : S → Except Stop (Except ε α) × S := fun s =>
  match r s with
  | (.ok a, s') => (.ok (.ok a), s')
  | (.error e, s') => (.ok (.error e), s')
  | (.stopped why, s') => (.error why, s')

end Run

/-- What calling a function of user code does. -/
structure Runtime (σ : Type) where
  /-- Calls a function while some arrays are locked. -/
  call : List ArrayId → FunctionId → List Value → World σ → Except Stop Value × World σ
  /-- How deeply the results of function calls may nest where a value is written out. -/
  depth : Nat

/-- Turns a value into output text, given whether markup characters are to be escaped. -/
def Escape (σ : Type) := Runtime σ → Value → Bool → World σ → Except Stop String × World σ

/-- Options of rendering. -/
structure Options (σ : Type) where
  escape : Escape σ
  /-- How often the body of one loop is rendered at most. -/
  maxLoopIterations : Nat

end LiveMarkup
