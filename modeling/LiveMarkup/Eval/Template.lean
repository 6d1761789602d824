import LiveMarkup.Eval.Escape
import LiveMarkup.Eval.Expr
import LiveMarkup.Template.Segment

/-!
# Rendering templates

`Template.render` writes a template out against fields.  The state of a rendering is the world
together with the names in scope.  A block opens a frame and closes it again however the block ends.
Text that was written before an error is given up.  The body of one loop is rendered at most as
often as the options say.
-/

namespace LiveMarkup

/-- The state of a rendering. -/
structure Rendering (σ : Type) where
  world : World σ
  scope : Scope

variable {σ : Type}

/-- Runs that render. -/
abbrev Render (σ α : Type) := Run (Rendering σ) TemplateError α

/-- Runs an evaluation in the current scope. -/
def inScope {α : Type} (f : Scope → Evaluation σ α) : Render σ α := fun s =>
  let (o, w) := f s.scope s.world
  (o, { s with world := w })

/-- Changes the scope, or ends with an error where the change is not possible. -/
def changeScope (f : Scope → Except TemplateError Scope) : Render σ Unit := fun s =>
  match f s.scope with
  | .ok scope => (.ok (), { s with scope := scope })
  | .error e => (.error e, s)

/-- Runs a block with a frame of its own. -/
def withFrame {α : Type} (f : Frame) (r : Render σ α) : Render σ α := fun s =>
  let (o, s') := r { s with scope := s.scope.enter f }
  (o, { s' with scope := s'.scope.leave })

/-- The value of an expression in the current scope. -/
def evalIn (env : Env σ) (e : Expr) : Render σ Value :=
  inScope fun scope => e.eval env scope

/-- The output text of a value. -/
def write (env : Env σ) (v : Value) (escape : Bool) : Render σ String := fun s =>
  let (t, w) := env.options.escape env.runtime v escape s.world
  (.ofStop t, { s with world := w })

/-- The value of a name, for a statement that changes it. -/
def lookupName (env : Env σ) (name : String) : Render σ Value := fun s =>
  match s.scope.lookup? env.fields name with
  | some v => (.ok v, s)
  | none => (.error (.notDefined name), s)

/-- Gives a name a new value. -/
def assignName (env : Env σ) (name : String) (v : Value) : Render σ Unit :=
  changeScope fun scope =>
    match scope.assign? env.fields name v with
    | some scope' => .ok scope'
    | none => .error (.notDefined name)

/-- The operator that an assignment applies to the old value. -/
def AssignOp.operator? : AssignOp → Option BinaryOp
  | .set => none
  | .add => some .add
  | .sub => some .sub
  | .mul => some .mul
  | .div => some .div

/-- Runs a statement of a loop header. -/
def Stmt.exec (env : Env σ) : Stmt → Render σ Unit
  | .declare name init => do
    let v ← evalIn env init
    changeScope fun scope => .ok (scope.declare name v)
  | .assign name op rhs => do
    let v ← evalIn env rhs
    match op.operator? with
    | none => assignName env name v
    | some o => do
      let old ← lookupName env name
      let h ← Run.read fun s => s.world.heap
      assignName env name (o.apply h old v)
  | .step name direction => do
    let old ← lookupName env name
    let h ← Run.read fun s => s.world.heap
    assignName env name (.number (old.toNumber h + direction.delta))
  | .expr e => do
    let _ ← evalIn env e
    pure ()

/-- Runs a statement if there is one. -/
def execOptional (env : Env σ) : Option Stmt → Render σ Unit
  | none => pure ()
  | some s => s.exec env

/-- Whether a loop goes on; a loop without a test always does. -/
def testOptional (env : Env σ) : Option Expr → Render σ Bool
  | none => pure true
  | some e => do
    let v ← evalIn env e
    pure v.truthy

/-- Renders the body of a loop, at most `n` times, after the text `out`. -/
def repeatBody (limit : Nat) (test : Render σ Bool) (body : Render σ String)
    (step : Render σ Unit) :
    Nat → String → Render σ String
  | 0, out => do
    let t ← test
    if t then Run.fail (.loopExceeded limit) else pure out
  | n + 1, out => do
    let t ← test
    if t then
      let text ← body
      step
      repeatBody limit test body step n (out ++ text)
    else pure out

/-- Renders a loop around its body. -/
def renderLoop (env : Env σ) (header : LoopHeader) (body : Render σ String) : Render σ String := do
  execOptional env header.init
  repeatBody env.options.maxLoopIterations (testOptional env header.test) body
    (execOptional env header.step) env.options.maxLoopIterations ""

/-- The frame of one round of an each-block: item, index and collection under the given names. -/
def eachFrame (names : List String) (item : Value) (index : Nat) (collection : Value) : Frame :=
  (names.zip [item, .ofNat index, collection]).reverse

/-- Renders a body once for each item, after the text `out`. -/
def renderItems (names : List String) (collection : Value) (body : Render σ String) :
    List Value → Nat → String → Render σ String
  | [], _, out => pure out
  | item :: items, index, out => do
    let text ← withFrame (eachFrame names item index collection) body
    renderItems names collection body items (index + 1) (out ++ text)

/-- The items that an each-block goes through. -/
def iterated (collection : Expr) (v : Value) : Render σ (List Value) :=
  match v with
  | .array r => Run.read fun s => (s.world.heap.items r).toList
  | .undefined | .null => Run.fail (.nullishProperty v.plainText "forEach")
  | _ => Run.fail (.notIterable collection.label)

mutual

/-- The text of a segment. -/
def Segment.render (env : Env σ) : Segment → Render σ String
  | .text t => pure t
  | .escaped e => do
    let v ← evalIn env e
    write env v true
  | .raw e => do
    let v ← evalIn env e
    write env v false
  | .conditional test body more => do
    let v ← evalIn env test
    if v.truthy then renderAll env body "" else more.render env
  | .loop header body => withFrame [] (renderLoop env header (renderAll env body ""))
  | .each collection names body => do
    let v ← evalIn env collection
    let items ← iterated collection v
    renderItems names v (renderAll env body "") items 0 ""

/-- The text of the first alternative that applies. -/
def Alternatives.render (env : Env σ) : Alternatives → Render σ String
  | .done => pure ""
  | .otherwise body => renderAll env body ""
  | .elseIf test body more => do
    let v ← evalIn env test
    if v.truthy then renderAll env body "" else more.render env

/-- The texts of several segments after the text `out`. -/
def renderAll (env : Env σ) : List Segment → String → Render σ String
  | [], out => pure out
  | s :: ss, out => do
    let text ← s.render env
    renderAll env ss (out ++ text)

end

/-- The text of a template. -/
def Template.render (t : Template) (env : Env σ) : Evaluation σ String := fun w =>
  let (o, s) := renderAll env t.segments "" ⟨w, .empty⟩
  (o, s.world)

/-- How often the body of one loop is rendered at most, unless told otherwise. -/
def defaultLoopIterations : Nat := 100000

/-- The options unless told otherwise. -/
def defaultOptions {σ : Type} : Options σ := ⟨escapeHtml, defaultLoopIterations⟩

end LiveMarkup
