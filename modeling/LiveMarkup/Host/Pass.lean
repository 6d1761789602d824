import LiveMarkup.Component.Basic
import LiveMarkup.Component.Definition
import LiveMarkup.Eval.Template
import LiveMarkup.Markup.Parse

/-!
# Render passes

A host displays a component.  A pass reads the source of the template and the fields, renders the
template, and reads the text as markup; then it patches the document and binds the event markers in
it.  What fails in the first part leaves the document as it was.  `Host.update` runs a pass unless
one is going on already: a write from within a pass lands in its container and is seen by the next
pass.
-/

namespace LiveMarkup

structure Host (σ : Type) where
  component : Component σ
  /-- Gives the template and the style sheet in place of the component. -/
  definition : Option Definition
  /-- Writes values in place of `escapeHtml`. -/
  escape : Option (Value → Bool → Script σ String)
  maxLoopIterations : Nat

namespace Host

variable {σ : Type}

/-- The host of a component with nothing changed. -/
def ofComponent (c : Component σ) : Host σ := ⟨c, none, none, defaultLoopIterations⟩

/-- The style sheet, read once when the host is made. -/
def stylesheet (host : Host σ) : String :=
  match host.definition with
  | some d => d.style
  | none => host.component.css

/-- The world in which a new host finds itself. -/
def start (_ : Host σ) (h : Heap) (component : σ) : HostWorld σ :=
  ⟨h, ⟨.empty, .empty, .idle, 0, true, component⟩⟩

variable (host : Host σ) (e : Engine σ)

/-- What calling a function does while a template is rendered. -/
def runtime : Runtime (HostState σ) :=
  ⟨fun rs f args => (host.component.functions f args).run (e.lock (rs ++ e.locked)), e.depth⟩

/-- The options of rendering. -/
def options : Options (HostState σ) :=
  ⟨match host.escape with
    | none => escapeHtml
    | some f => fun _ v flag => (f v flag).run e,
    host.maxLoopIterations⟩

/-- The source of the template. -/
def source : Run (HostWorld σ) Error String :=
  match host.definition with
  | some d => pure d.template
  | none => e.run host.component.render

/-- The text of a template. -/
def renderText (t : Template) (fields : Entries Value) : Run (HostWorld σ) Error String := fun w =>
  let (o, w') := t.render ⟨host.runtime e, host.options e, fields⟩ w
  (o.mapError .template, w')

/-- The nodes that the component asks for. -/
def wanted [EntityCodec] : Run (HostWorld σ) Error (List Node) := do
  let source ← host.source e
  let fields ← e.run host.component.fields
  let t ← Run.ofOutcome ((Outcome.ofExcept (Template.parse source)).mapError .template)
  let text ← host.renderText e t fields
  Run.ofOutcome ((Outcome.ofExcept (Markup.parse text)).mapError .markup)

end Host

namespace HostState

variable {σ : Type}

/-- The state in another phase. -/
def withPhase (s : HostState σ) (p : Phase) : HostState σ := { s with phase := p }

/-- Brings the document in line with new nodes. -/
def patch (s : HostState σ) (new : List Node) : PatchStats × HostState σ :=
  let (stats, d) := s.document.reconcile rootId new
  (stats, { s with document := d, phase := .patching })

/-- Reads the event markers in the document; a listener is the method that its marker names. -/
def bind (s : HostState σ) : HostState σ :=
  let (_, d, r) := s.document.bind s.registry fun _ method => method
  { s with document := d, registry := r, phase := .binding }

/-- Displays new nodes, which ends a pass that succeeds. -/
def display (s : HostState σ) (new : List Node) : PatchStats × HostState σ :=
  let (stats, s') := s.patch new
  (stats, { s'.bind with renders := s.renders + 1 })

end HostState

namespace Host

variable [EntityCodec] {σ : Type} (host : Host σ) (e : Engine σ)

/-- A whole pass. -/
def pass : Run (HostWorld σ) Error PatchStats := do
  let new ← host.wanted e
  fun w =>
    let (stats, s) := w.user.display new
    (.ok stats, { w with user := s })

/-- Runs a pass unless one is going on.  If the pass stops the program, the phase that is left is of
no account. -/
def update : Run (HostWorld σ) Error PatchStats := fun w =>
  if w.user.phase = .idle then
    let (o, w') := host.pass e { w with user := w.user.withPhase .rendering }
    (o, { w' with user := w'.user.withPhase .idle })
  else (.ok .none, w)

end Host

end LiveMarkup
