import LiveMarkup.Eval.Template
import LiveMarkup.Proofs.Eval.Run

/-!
# The names that a template refers to

Rendering reads fields by name alone: a name that no block binds is looked up among the fields, and
an assignment looks whether the name that it assigns to is one of them.  `Template.names` lists
these names.  Where two lists of fields give them the same values (`Entries.SameOn`), a template is
rendered in the same way against both (`Template.render_eq_of_sameOn`), whatever else stands in the
lists and in whatever order.
-/

namespace LiveMarkup

/-! ### Names -/

mutual

/-- The names that an expression refers to.  The name of a property is not one of them. -/
def Expr.names : Expr → List String
  | .literal _ => []
  | .ident name => [name]
  | .array items => namesAll items
  | .member object _ => object.names
  | .index object key => object.names ++ key.names
  | .call callee args => callee.names ++ namesAll args
  | .unary _ operand => operand.names
  | .binary _ lhs rhs => lhs.names ++ rhs.names
  | .logical _ lhs rhs => lhs.names ++ rhs.names
  | .conditional test yes no => test.names ++ yes.names ++ no.names

/-- The names that several expressions refer to. -/
def Expr.namesAll : List Expr → List String
  | [] => []
  | e :: es => e.names ++ namesAll es

end

/-- The names that a statement refers to.  A name that it declares need not be there before. -/
def Stmt.names : Stmt → List String
  | .declare _ init => init.names
  | .assign name _ rhs => name :: rhs.names
  | .step name _ => [name]
  | .expr e => e.names

/-- The names that the parts of a loop header refer to. -/
def LoopHeader.names (h : LoopHeader) : List String :=
  (h.init.map Stmt.names).getD [] ++ (h.test.map Expr.names).getD [] ++
    (h.step.map Stmt.names).getD []

mutual

/-- The names that a segment refers to. -/
def Segment.names : Segment → List String
  | .text _ => []
  | .escaped e => e.names
  | .raw e => e.names
  | .conditional test body more => test.names ++ Segment.namesAll body ++ more.names
  | .loop header body => header.names ++ Segment.namesAll body
  | .each collection _ body => collection.names ++ Segment.namesAll body

/-- The names that the further branches of a conditional refer to. -/
def Alternatives.names : Alternatives → List String
  | .done => []
  | .otherwise body => Segment.namesAll body
  | .elseIf test body more => test.names ++ Segment.namesAll body ++ more.names

/-- The names that several segments refer to. -/
def Segment.namesAll : List Segment → List String
  | [] => []
  | s :: ss => s.names ++ Segment.namesAll ss

end

/-- The names that a template refers to. -/
def Template.names (t : Template) : List String := Segment.namesAll t.segments

/-! ### Fields -/

namespace Entries

variable {α : Type} {es es' : Entries α} {xs ys : List String} {name : String}

/-- Whether two lists of entries have the same values under some names, or none in both. -/
def SameOn (names : List String) (es es' : Entries α) : Prop := ∀ name ∈ names,
    get? name es = get? name es'

theorem sameOn_append : SameOn (xs ++ ys) es es' ↔ SameOn xs es es' ∧ SameOn ys es es' :=
  List.forall_mem_append

theorem sameOn_cons : SameOn (name :: xs) es es' ↔ get? name es = get? name es' ∧
    SameOn xs es es' :=
  List.forall_mem_cons

theorem sameOn_singleton : SameOn [name] es es' ↔ get? name es = get? name es' :=
  List.forall_mem_singleton

end Entries

open Entries (SameOn sameOn_append sameOn_cons sameOn_singleton)

variable {σ : Type} {fields fields' : Entries Value}

theorem Scope.lookup?_congr {name : String}
    (h : Entries.get? name fields = Entries.get? name fields') (s : Scope) :
    s.lookup? fields name = s.lookup? fields' name := by
  unfold Scope.lookup?
  rw [h]

theorem Scope.assign?_congr {name : String}
    (h : Entries.get? name fields = Entries.get? name fields') (s : Scope) (v : Value) :
    s.assign? fields name v = s.assign? fields' name v := by
  unfold Scope.assign?
  rw [h]

/-! ### Expressions -/

section Render

variable (rt : Runtime σ) (o : Options σ)

mutual

theorem Expr.eval_congr (scope : Scope) : (e : Expr) → SameOn e.names fields fields' →
    e.eval ⟨rt, o, fields⟩ scope = e.eval ⟨rt, o, fields'⟩ scope
  | .literal l, _ => by rw [Expr.eval, Expr.eval]
  | .ident name, h => by
    rw [Expr.names, sameOn_singleton] at h
    rw [Expr.eval, Expr.eval, Scope.lookup?_congr h]
  | .array items, h => by rw [Expr.eval, Expr.eval, Expr.evalAll_congr scope items h]
  | .member object name, h => by rw [Expr.eval, Expr.eval, Expr.eval_congr scope object h]
  | .index object key, h => by
    rw [Expr.names, sameOn_append] at h
    rw [Expr.eval, Expr.eval, Expr.eval_congr scope object h.1, Expr.eval_congr scope key h.2]
  | .call callee args, h => by
    rw [Expr.names, sameOn_append] at h
    rw [Expr.eval, Expr.eval, Expr.eval_congr scope callee h.1, Expr.evalAll_congr scope args h.2]
  | .unary op operand, h => by rw [Expr.eval, Expr.eval, Expr.eval_congr scope operand h]
  | .binary op lhs rhs, h => by
    rw [Expr.names, sameOn_append] at h
    rw [Expr.eval, Expr.eval, Expr.eval_congr scope lhs h.1, Expr.eval_congr scope rhs h.2]
  | .logical op lhs rhs, h => by
    rw [Expr.names, sameOn_append] at h
    rw [Expr.eval, Expr.eval, Expr.eval_congr scope lhs h.1, Expr.eval_congr scope rhs h.2]
  | .conditional test yes no, h => by
    rw [Expr.names, sameOn_append, sameOn_append] at h
    obtain ⟨⟨htest, hyes⟩, hno⟩ := h
    rw [Expr.eval, Expr.eval, Expr.eval_congr scope test htest, Expr.eval_congr scope yes hyes,
      Expr.eval_congr scope no hno]

theorem Expr.evalAll_congr (scope : Scope) :
    (es : List Expr) → SameOn (Expr.namesAll es) fields fields' →
    Expr.evalAll ⟨rt, o, fields⟩ scope es = Expr.evalAll ⟨rt, o, fields'⟩ scope es
  | [], _ => by rw [Expr.evalAll, Expr.evalAll]
  | e :: es, h => by
    rw [Expr.namesAll, sameOn_append] at h
    rw [Expr.evalAll, Expr.evalAll, Expr.eval_congr scope e h.1, Expr.evalAll_congr scope es h.2]

end

theorem evalIn_congr {e : Expr} (h : SameOn e.names fields fields') :
    evalIn ⟨rt, o, fields⟩ e = evalIn ⟨rt, o, fields'⟩ e :=
  congrArg inScope (funext fun scope => Expr.eval_congr rt o scope e h)

/-! ### Loop headers -/

section Headers

variable {name : String} (h : Entries.get? name fields = Entries.get? name fields')
include h

theorem lookupName_congr : lookupName ⟨rt, o, fields⟩ name = lookupName ⟨rt, o, fields'⟩ name := by
  funext s
  unfold lookupName
  dsimp only
  rw [Scope.lookup?_congr h]

theorem assignName_congr (v : Value) :
    assignName ⟨rt, o, fields⟩ name v = assignName ⟨rt, o, fields'⟩ name v := by
  unfold assignName
  simp only [Scope.assign?_congr h]

end Headers

theorem Stmt.exec_congr {s : Stmt} (h : SameOn s.names fields fields') :
    s.exec ⟨rt, o, fields⟩ = s.exec ⟨rt, o, fields'⟩ := by
  cases s with
  | declare name init => rw [Stmt.exec, Stmt.exec, evalIn_congr rt o h]
  | assign name op rhs =>
    rw [Stmt.names, sameOn_cons] at h
    simp only [Stmt.exec, evalIn_congr rt o h.2, lookupName_congr rt o h.1,
      assignName_congr rt o h.1]
  | step name direction =>
    rw [Stmt.names, sameOn_singleton] at h
    simp only [Stmt.exec, lookupName_congr rt o h, assignName_congr rt o h]
  | expr e => rw [Stmt.exec, Stmt.exec, evalIn_congr rt o h]

theorem execOptional_congr {s : Option Stmt}
    (h : SameOn ((s.map Stmt.names).getD []) fields fields') :
    execOptional ⟨rt, o, fields⟩ s = execOptional ⟨rt, o, fields'⟩ s := by
  cases s with
  | none => rfl
  | some s => exact Stmt.exec_congr rt o h

theorem testOptional_congr {e : Option Expr}
    (h : SameOn ((e.map Expr.names).getD []) fields fields') :
    testOptional ⟨rt, o, fields⟩ e = testOptional ⟨rt, o, fields'⟩ e := by
  cases e with
  | none => rfl
  | some e => rw [testOptional, testOptional, evalIn_congr rt o h]

theorem renderLoop_congr {header : LoopHeader} (h : SameOn header.names fields fields')
    (body : Render σ String) :
    renderLoop ⟨rt, o, fields⟩ header body = renderLoop ⟨rt, o, fields'⟩ header body := by
  rw [LoopHeader.names, sameOn_append, sameOn_append] at h
  obtain ⟨⟨hinit, htest⟩, hstep⟩ := h
  rw [renderLoop, renderLoop, execOptional_congr rt o hinit, testOptional_congr rt o htest,
    execOptional_congr rt o hstep]

/-! ### Templates -/

mutual

theorem Segment.render_congr : (s : Segment) → SameOn s.names fields fields' →
    s.render ⟨rt, o, fields⟩ = s.render ⟨rt, o, fields'⟩
  | .text t, _ => by rw [Segment.render, Segment.render]
  | .escaped e, h => by
    rw [Segment.render, Segment.render, evalIn_congr rt o h]
    rfl
  | .raw e, h => by
    rw [Segment.render, Segment.render, evalIn_congr rt o h]
    rfl
  | .conditional test body more, h => by
    rw [Segment.names, sameOn_append, sameOn_append] at h
    obtain ⟨⟨htest, hbody⟩, hmore⟩ := h
    rw [Segment.render, Segment.render, evalIn_congr rt o htest, renderAll_congr body "" hbody,
      Alternatives.render_congr more hmore]
  | .loop header body, h => by
    rw [Segment.names, sameOn_append] at h
    rw [Segment.render, Segment.render, renderLoop_congr rt o h.1, renderAll_congr body "" h.2]
  | .each collection names body, h => by
    rw [Segment.names, sameOn_append] at h
    rw [Segment.render, Segment.render, evalIn_congr rt o h.1, renderAll_congr body "" h.2]

theorem Alternatives.render_congr : (a : Alternatives) → SameOn a.names fields fields' →
    a.render ⟨rt, o, fields⟩ = a.render ⟨rt, o, fields'⟩
  | .done, _ => by rw [Alternatives.render, Alternatives.render]
  | .otherwise body, h =>
    by rw [Alternatives.render, Alternatives.render, renderAll_congr body "" h]
  | .elseIf test body more, h => by
    rw [Alternatives.names, sameOn_append, sameOn_append] at h
    obtain ⟨⟨htest, hbody⟩, hmore⟩ := h
    rw [Alternatives.render, Alternatives.render, evalIn_congr rt o htest,
      renderAll_congr body "" hbody, Alternatives.render_congr more hmore]

theorem renderAll_congr :
    (ss : List Segment) → (out : String) → SameOn (Segment.namesAll ss) fields fields' →
    renderAll ⟨rt, o, fields⟩ ss out = renderAll ⟨rt, o, fields'⟩ ss out
  | [], out, _ => by rw [renderAll, renderAll]
  | s :: ss, out, h => by
    rw [Segment.namesAll, sameOn_append] at h
    rw [renderAll, renderAll, Segment.render_congr s h.1]
    exact congrArg (Bind.bind _) (funext fun text => renderAll_congr ss _ h.2)

end

/-- Fields that agree on the names that a template refers to are the same to it: from every world,
rendering against the one and against the other ends in the same way, with the same text or the same
error, and leaves the same world. -/
theorem Template.render_eq_of_sameOn (t : Template) (h : SameOn t.names fields fields') :
    t.render ⟨rt, o, fields⟩ = t.render ⟨rt, o, fields'⟩ := by
  funext w
  rw [Template.render, Template.render, renderAll_congr rt o t.segments "" h]

/-- A template with a loop that assigns to two fields. -/
def greeting : Template where
  segments := [.loop ⟨some (.assign "name" .set (.literal (.string "Ada"))), some (.ident "more"),
    some (.assign "more" .set (.literal (.bool false)))⟩ [.escaped (.ident "name")]]

/-- Against fields in another order and with other ones beside them the loop ends in the same
way. -/
theorem Template.render_eq_of_sameOn_greeting :
    let env : Env Unit := ⟨⟨fun _ _ _ w => (.error .bound, w), 0⟩, defaultOptions,
      [("name", .string "Bob"), ("secret", .string "s"), ("more", .bool true)]⟩
    let env' : Env Unit :=
      { env with fields := [("more", .bool true), ("name", .string "Bob"), ("other", .null)] }
    SameOn greeting.names env.fields env'.fields ∧
      greeting.render env ⟨Heap.empty, ()⟩ = greeting.render env' ⟨Heap.empty, ()⟩ ∧
      (greeting.render env ⟨Heap.empty, ()⟩).1.ok? = some "Ada" := by
  intro env env'
  have hsame : SameOn greeting.names env.fields env'.fields := by
    simp [SameOn, greeting, names, Segment.namesAll, Segment.names, LoopHeader.names, Stmt.names,
      Expr.names, env, env', Entries.get?]
  exact ⟨hsame, congrFun (greeting.render_eq_of_sameOn _ _ hsame) _, by decide +kernel⟩

end Render

end LiveMarkup
