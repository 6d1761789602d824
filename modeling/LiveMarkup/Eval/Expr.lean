import LiveMarkup.Error
import LiveMarkup.Eval.Scope
import LiveMarkup.Expr.Basic
import LiveMarkup.Text.Units
import LiveMarkup.Value.Coerce

/-!
# Evaluation of expressions

`Expr.eval` runs an expression against a scope and the fields.  Operands run from left to right.
Array expressions make a new array each time, and a call hands control to user code; nothing else
changes the world.
-/

namespace LiveMarkup

/-- What stays the same while a template is rendered. -/
structure Env (σ : Type) where
  runtime : Runtime σ
  options : Options σ
  fields : Entries Value

/-- The property of a value under a key. -/
def property (h : Heap) (object : Value) (key : String) : Except TemplateError Value :=
  match object with
  | .undefined | .null => .error (.nullishProperty object.plainText key)
  | .array r =>
    let items := h.items r
    if key = "length" then .ok (.ofNat items.size)
    else .ok (((readIndex? key).bind fun i => items[i]?).getD .undefined)
  | .string s =>
    if key = "length" then .ok (.ofNat (units16 s))
    else
      .ok (((readIndex? key).bind fun i => (charAt? s i).map fun c => .string c.toString).getD
        .undefined)
  | .object r => .ok ((Entries.get? key (h.entries r)).getD .undefined)
  | _ => .ok .undefined

/-- The result of an operator. -/
def BinaryOp.apply (h : Heap) (op : BinaryOp) (a b : Value) : Value :=
  match op with
  | .add => a.add h b
  | .sub => .number (a.toNumber h - b.toNumber h)
  | .mul => .number (a.toNumber h * b.toNumber h)
  | .div => .number (a.toNumber h / b.toNumber h)
  | .rem => .number (remainder (a.toNumber h) (b.toNumber h))
  | .lt => .bool (a.compare? h b == some .lt)
  | .le => .bool (a.compare? h b == some .lt || a.compare? h b == some .eq)
  | .gt => .bool (a.compare? h b == some .gt)
  | .ge => .bool (a.compare? h b == some .gt || a.compare? h b == some .eq)
  | .eq => .bool (a.looseEq h b)
  | .ne => .bool (!a.looseEq h b)
  | .strictEq => .bool (a.strictEq b)
  | .strictNe => .bool (!a.strictEq b)

/-- The result of a sign. -/
def UnaryOp.apply (h : Heap) (op : UnaryOp) (v : Value) : Value :=
  match op with
  | .not => .bool (!v.truthy)
  | .neg => .number (-v.toNumber h)
  | .plus => .number (v.toNumber h)

/-- Whether the left operand alone decides. -/
def LogicalOp.decides : LogicalOp → Bool → Bool
  | .and, b => !b
  | .or, b => b

variable {σ : Type}

/-- Runs on worlds in which evaluation takes place. -/
abbrev Evaluation (σ α : Type) := Run (World σ) TemplateError α

/-- A new array with the given items. -/
def newArray (vs : List Value) : Evaluation σ Value := fun w =>
  let (v, h) := w.heap.newArray vs.toArray
  (.ok v, { w with heap := h })

/-- Hands control to a function of user code. -/
def callFunction (rt : Runtime σ) (f : FunctionId) (args : List Value) :
    Evaluation σ Value := fun w =>
  let (v, w') := rt.call [] f args w
  (.ofStop v, w')

/-- The property of a value under a key, in the heap of the world. -/
def readProperty (object : Value) (key : String) : Evaluation σ Value := fun w =>
  (.ofExcept (property w.heap object key), w)

mutual

/-- The value of an expression. -/
def Expr.eval (env : Env σ) (scope : Scope) : Expr → Evaluation σ Value
  | .literal l => pure l.toValue
  | .ident name =>
    match scope.lookup? env.fields name with
    | some v => pure v
    | none => Run.fail (.notDefined name)
  | .array items => do
    let vs ← evalAll env scope items
    newArray vs
  | .member object name => do
    let v ← object.eval env scope
    readProperty v name
  | .index object key => do
    let v ← object.eval env scope
    let k ← key.eval env scope
    let h ← Run.read World.heap
    readProperty v (k.text h)
  | .call callee args => do
    match ← callee.eval env scope with
    | .function f => do
      let vs ← evalAll env scope args
      callFunction env.runtime f vs
    | _ => Run.fail (.notFunction callee.label)
  | .unary op operand => do
    let v ← operand.eval env scope
    let h ← Run.read World.heap
    pure (op.apply h v)
  | .binary op lhs rhs => do
    let a ← lhs.eval env scope
    let b ← rhs.eval env scope
    let h ← Run.read World.heap
    pure (op.apply h a b)
  | .logical op lhs rhs => do
    let a ← lhs.eval env scope
    if op.decides a.truthy then pure a else rhs.eval env scope
  | .conditional test yes no => do
    let t ← test.eval env scope
    if t.truthy then yes.eval env scope else no.eval env scope

/-- The values of several expressions, from left to right. -/
def Expr.evalAll (env : Env σ) (scope : Scope) : List Expr → Evaluation σ (List Value)
  | [] => pure []
  | e :: es => do
    let v ← e.eval env scope
    let vs ← evalAll env scope es
    pure (v :: vs)

end

end LiveMarkup
