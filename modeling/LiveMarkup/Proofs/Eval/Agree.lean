import LiveMarkup.Eval.Template
import LiveMarkup.Proofs.Eval.Run

/-!
# Runs that agree

Two computations `AgreeOn` the states of a kind if they do the same from each of them and end in one
of them again. Agreement goes through sequences, so it goes through all of rendering: a template is
rendered in the same way in two environments that make arrays, call functions and write values out
in agreement (`Template.render_agreeOn`). With the same environment twice it says what rendering
keeps.
-/

namespace LiveMarkup

/-- Whether two computations do the same from every state of a kind, and lead to such a state. -/
def AgreeOn {S α : Type} (P : S → Prop) (r r' : S → α × S) : Prop :=
  ∀ s, P s → r s = r' s ∧ P (r s).2

namespace AgreeOn

section Runs

variable {S ε α β : Type} {P : S → Prop}

theorem of_keeps {r : S → α × S} (h : ∀ s, P s → P (r s).2) : AgreeOn P r r :=
  fun s hs => ⟨rfl, h s hs⟩

theorem pure (a : α) : AgreeOn P (Pure.pure a : Run S ε α) (Pure.pure a : Run S ε α) :=
  of_keeps fun _ h => h

theorem fail (e : ε) : AgreeOn P (Run.fail e : Run S ε α) (Run.fail e : Run S ε α) :=
  of_keeps fun _ h => h

theorem read (f : S → α) : AgreeOn P (Run.read f : Run S ε α) (Run.read f : Run S ε α) :=
  of_keeps fun _ h => h

theorem ofOutcome (o : Outcome ε α) :
    AgreeOn P (Run.ofOutcome o : Run S ε α) (Run.ofOutcome o : Run S ε α) :=
  of_keeps fun _ h => h

theorem bind {r r' : Run S ε α} {f f' : α → Run S ε β} (hr : AgreeOn P r r')
    (hf : ∀ a, AgreeOn P (f a) (f' a)) :
    AgreeOn P (r >>= f : Run S ε β) (r' >>= f' : Run S ε β) := by
  intro s hs
  obtain ⟨he, hp⟩ := hr s hs
  rcases hrs : r s with ⟨a | e | _, t⟩ <;> rw [hrs] at he hp
  · rw [Run.bind_eq_of_ok hrs, Run.bind_eq_of_ok he.symm]
    exact hf a t hp
  · rw [Run.bind_eq_of_error hrs, Run.bind_eq_of_error he.symm]
    exact ⟨rfl, hp⟩
  · rw [Run.bind_eq_of_stopped hrs, Run.bind_eq_of_stopped he.symm]
    exact ⟨rfl, hp⟩

theorem attempt {r r' : Run S ε α} (hr : AgreeOn P r r') : AgreeOn P r.attempt r'.attempt := by
  intro s hs
  obtain ⟨he, hp⟩ := hr s hs
  unfold Run.attempt
  rw [← he]
  rcases hrs : r s with ⟨_ | _ | _, t⟩ <;> rw [hrs] at hp <;> exact ⟨rfl, hp⟩

end Runs

end AgreeOn

/-! ### Writing values out -/

section Escape

variable {σ : Type} {P : World σ → Prop}

theorem writeEach_agreeOn {write write' : Value → World σ → Except Stop String × World σ}
    (hw : ∀ v, AgreeOn P (write v) (write' v)) (vs : List Value) :
    AgreeOn P (writeEach write vs) (writeEach write' vs) := by
  induction vs with
  | nil => exact AgreeOn.of_keeps fun _ h => h
  | cons v vs ih =>
    intro w hp
    obtain ⟨he, hp⟩ := hw v w hp
    unfold writeEach
    rw [← he]
    rcases hv : write v w with ⟨_ | t, w'⟩ <;> rw [hv] at hp
    · exact ⟨rfl, hp⟩
    · obtain ⟨he, hp⟩ := ih w' hp
      dsimp only
      rw [← he]
      rcases hvs : writeEach write vs w' with ⟨_ | ts, w''⟩ <;> rw [hvs] at hp <;> exact ⟨rfl, hp⟩

theorem escapeWithin_agreeOn {rt rt' : Runtime σ}
    (hc : ∀ rs f args, AgreeOn P (rt.call rs f args) (rt'.call rs f args)) (n : Nat)
    (opn : List ArrayId) (escape : Bool) (v : Value) :
    AgreeOn P (escapeWithin rt n opn escape v) (escapeWithin rt' n opn escape v) := by
  induction n generalizing opn escape v with
  | zero => exact AgreeOn.of_keeps fun _ h => h
  | succ n ih =>
    cases v with
    | function f =>
      intro w hp
      obtain ⟨he, hp⟩ := hc opn f [] w hp
      unfold escapeWithin
      dsimp only
      rw [← he]
      rcases hf : rt.call opn f [] w with ⟨_ | v', w'⟩ <;> rw [hf] at hp
      · exact ⟨rfl, hp⟩
      · exact ih opn true v' w' hp
    | array r =>
      intro w hp
      unfold escapeWithin
      dsimp only
      split
      · exact ⟨rfl, hp⟩
      · obtain ⟨he, hp⟩ :=
          writeEach_agreeOn (fun v => ih (r :: opn) true v) (w.heap.items r).toList w hp
        rw [← he]
        rcases hts : writeEach (escapeWithin rt n (r :: opn) true) (w.heap.items r).toList w with
          ⟨_ | ts, w'⟩ <;> rw [hts] at hp <;> exact ⟨rfl, hp⟩
    | _ => exact fun w hp => ⟨rfl, hp⟩

theorem escapeHtml_agreeOn {rt rt' : Runtime σ}
    (hc : ∀ rs f args, AgreeOn P (rt.call rs f args) (rt'.call rs f args))
    (hd : rt.depth = rt'.depth) (v : Value) (escape : Bool) :
    AgreeOn P (escapeHtml rt v escape) (escapeHtml rt' v escape) := by
  intro w hp
  unfold escapeHtml
  rw [← hd]
  exact escapeWithin_agreeOn hc _ [] escape v w hp

end Escape

/-! ### Expressions -/

variable {σ : Type}

/-- Environments with the same fields that make arrays, call functions and write values out in
agreement. -/
structure Env.AgreeOn (P : World σ → Prop) (env env' : Env σ) : Prop where
  newArray : ∀ w vs, P w → P { w with heap := (w.heap.newArray vs).2 }
  call : ∀ rs f args,
    LiveMarkup.AgreeOn P (env.runtime.call rs f args) (env'.runtime.call rs f args)
  write : ∀ v escape, LiveMarkup.AgreeOn P (env.options.escape env.runtime v escape)
    (env'.options.escape env'.runtime v escape)
  fields : env.fields = env'.fields
  limit : env.options.maxLoopIterations = env'.options.maxLoopIterations

section Expr

variable {P : World σ → Prop} {env env' : Env σ}

mutual

theorem Expr.eval_agreeOn (hE : env.AgreeOn P env') (scope : Scope) :
    (e : Expr) → LiveMarkup.AgreeOn P (e.eval env scope) (e.eval env' scope)
  | .literal l => by
    rw [Expr.eval, Expr.eval]
    exact .pure _
  | .ident name => by
    rw [Expr.eval, Expr.eval, ← hE.fields]
    split
    · exact .pure _
    · exact .fail _
  | .array items => by
    rw [Expr.eval, Expr.eval]
    exact (Expr.evalAll_agreeOn hE scope items).bind fun vs => .of_keeps fun w =>
      hE.newArray w vs.toArray
  | .member object name => by
    rw [Expr.eval, Expr.eval]
    exact (Expr.eval_agreeOn hE scope object).bind fun _ => .of_keeps fun _ h => h
  | .index object key => by
    rw [Expr.eval, Expr.eval]
    exact (Expr.eval_agreeOn hE scope object).bind fun _ =>
      (Expr.eval_agreeOn hE scope key).bind fun _ =>
      (AgreeOn.read _).bind fun _ => .of_keeps fun _ h => h
  | .call callee args => by
    rw [Expr.eval, Expr.eval]
    refine (Expr.eval_agreeOn hE scope callee).bind fun v => ?_
    split
    · rename_i f
      refine (Expr.evalAll_agreeOn hE scope args).bind fun vs w hw => ?_
      obtain ⟨he, hp⟩ := hE.call [] f vs w hw
      unfold callFunction
      rw [← he]
      exact ⟨rfl, hp⟩
    · exact .fail _
  | .unary op operand => by
    rw [Expr.eval, Expr.eval]
    exact (Expr.eval_agreeOn hE scope operand).bind fun _ => (AgreeOn.read _).bind fun _ => .pure _
  | .binary op lhs rhs => by
    rw [Expr.eval, Expr.eval]
    exact (Expr.eval_agreeOn hE scope lhs).bind fun _ =>
      (Expr.eval_agreeOn hE scope rhs).bind fun _ =>
      (AgreeOn.read _).bind fun _ => .pure _
  | .logical op lhs rhs => by
    rw [Expr.eval, Expr.eval]
    refine (Expr.eval_agreeOn hE scope lhs).bind fun a => ?_
    split
    · exact .pure _
    · exact Expr.eval_agreeOn hE scope rhs
  | .conditional test yes no => by
    rw [Expr.eval, Expr.eval]
    refine (Expr.eval_agreeOn hE scope test).bind fun t => ?_
    split
    · exact Expr.eval_agreeOn hE scope yes
    · exact Expr.eval_agreeOn hE scope no

theorem Expr.evalAll_agreeOn (hE : env.AgreeOn P env') (scope : Scope) :
    (es : List Expr) → LiveMarkup.AgreeOn P (Expr.evalAll env scope es) (Expr.evalAll env' scope es)
  | [] => by
    rw [Expr.evalAll, Expr.evalAll]
    exact .pure _
  | e :: es => by
    rw [Expr.evalAll, Expr.evalAll]
    exact (Expr.eval_agreeOn hE scope e).bind fun _ =>
      (Expr.evalAll_agreeOn hE scope es).bind fun _ => .pure _

end

end Expr

/-! ### Templates -/

/-- Renderings in a world of a kind, whatever names are in scope. -/
def Rendering.Has (P : World σ → Prop) (s : Rendering σ) : Prop := P s.world

section Render

open Rendering (Has)

variable {P : World σ → Prop} {env env' : Env σ} {α : Type}

theorem withFrame_agreeOn {r r' : Render σ α} (hr : AgreeOn (Has P) r r') (f : Frame) :
    AgreeOn (Has P) (withFrame f r) (withFrame f r') := by
  intro s hs
  obtain ⟨he, hp⟩ := hr { s with scope := s.scope.enter f } hs
  unfold withFrame
  rw [← he]
  exact ⟨rfl, hp⟩

theorem changeScope_agreeOn (f : Scope → Except TemplateError Scope) :
    AgreeOn (Has P) (changeScope f : Render σ Unit) (changeScope f : Render σ Unit) := by
  refine .of_keeps fun s hs => ?_
  unfold changeScope
  split <;> exact hs

theorem lookupName_agreeOn (hE : env.AgreeOn P env') (name : String) :
    AgreeOn (Has P) (lookupName env name) (lookupName env' name) := by
  intro s hs
  unfold lookupName
  rw [← hE.fields]
  split <;> exact ⟨rfl, hs⟩

theorem assignName_agreeOn (hE : env.AgreeOn P env') (name : String) (v : Value) :
    AgreeOn (Has P) (assignName env name v) (assignName env' name v) := by
  unfold assignName
  rw [← hE.fields]
  exact changeScope_agreeOn _

theorem iterated_agreeOn (collection : Expr) (v : Value) :
    AgreeOn (Has P) (iterated collection v : Render σ (List Value))
    (iterated collection v : Render σ _) := by
  cases v <;> first | exact .fail _ | exact .read _

theorem evalIn_agreeOn (hE : env.AgreeOn P env') (e : Expr) :
    AgreeOn (Has P) (evalIn env e) (evalIn env' e) := by
  intro s hs
  obtain ⟨he, hp⟩ := Expr.eval_agreeOn hE s.scope e s.world hs
  unfold evalIn inScope
  dsimp only
  rw [← he]
  exact ⟨rfl, hp⟩

theorem write_agreeOn (hE : env.AgreeOn P env') (v : Value) (escape : Bool) :
    AgreeOn (Has P) (write env v escape) (write env' v escape) := by
  intro s hs
  obtain ⟨he, hp⟩ := hE.write v escape s.world hs
  unfold write
  rw [← he]
  exact ⟨rfl, hp⟩

theorem Stmt.exec_agreeOn (hE : env.AgreeOn P env') (s : Stmt) :
    AgreeOn (Has P) (s.exec env) (s.exec env') := by
  cases s with
  | declare name init => exact (evalIn_agreeOn hE init).bind fun _ => changeScope_agreeOn _
  | assign name op rhs =>
    refine (evalIn_agreeOn hE rhs).bind fun v => ?_
    split
    · exact assignName_agreeOn hE name v
    · exact (lookupName_agreeOn hE name).bind fun _ => (AgreeOn.read _).bind fun _ =>
        assignName_agreeOn hE name _
  | step name direction =>
    exact (lookupName_agreeOn hE name).bind fun _ => (AgreeOn.read _).bind fun _ =>
      assignName_agreeOn hE name _
  | expr e => exact (evalIn_agreeOn hE e).bind fun _ => .pure _

theorem execOptional_agreeOn (hE : env.AgreeOn P env') (s : Option Stmt) :
    AgreeOn (Has P) (execOptional env s) (execOptional env' s) := by
  cases s with
  | none => exact .pure _
  | some s => exact s.exec_agreeOn hE

theorem testOptional_agreeOn (hE : env.AgreeOn P env') (e : Option Expr) :
    AgreeOn (Has P) (testOptional env e) (testOptional env' e) := by
  cases e with
  | none => exact .pure _
  | some e => exact (evalIn_agreeOn hE e).bind fun _ => .pure _

theorem repeatBody_agreeOn {limit : Nat} {test test' : Render σ Bool} {body body' : Render σ String}
    {step step' : Render σ Unit} (ht : AgreeOn (Has P) test test') (hb : AgreeOn (Has P) body body')
    (hs : AgreeOn (Has P) step step') (n : Nat) (out : String) :
    AgreeOn (Has P) (repeatBody limit test body step n out)
    (repeatBody limit test' body' step' n out) := by
  induction n generalizing out with
  | zero =>
    refine ht.bind fun t => ?_
    split
    · exact .fail _
    · exact .pure _
  | succ n ih =>
    refine ht.bind fun t => ?_
    split
    · exact hb.bind fun text => hs.bind fun _ => ih _
    · exact .pure _

theorem renderLoop_agreeOn (hE : env.AgreeOn P env') (header : LoopHeader)
    {body body' : Render σ String} (hb : AgreeOn (Has P) body body') :
    AgreeOn (Has P) (renderLoop env header body) (renderLoop env' header body') := by
  unfold renderLoop
  rw [← hE.limit]
  exact (execOptional_agreeOn hE header.init).bind fun _ =>
    repeatBody_agreeOn (testOptional_agreeOn hE header.test) hb
      (execOptional_agreeOn hE header.step) _ _

theorem renderItems_agreeOn (names : List String) (collection : Value)
    {body body' : Render σ String} (hb : AgreeOn (Has P) body body') (items : List Value)
    (index : Nat) (out : String) :
    AgreeOn (Has P) (renderItems names collection body items index out)
      (renderItems names collection body' items index out) := by
  induction items generalizing index out with
  | nil => exact .pure _
  | cons item items ih => exact (withFrame_agreeOn hb _).bind fun _ => ih _ _

mutual

theorem Segment.render_agreeOn (hE : env.AgreeOn P env') :
    (s : Segment) → AgreeOn (Has P) (s.render env) (s.render env')
  | .text t => by
    rw [Segment.render, Segment.render]
    exact .pure _
  | .escaped e => by
    rw [Segment.render, Segment.render]
    exact (evalIn_agreeOn hE e).bind fun v => write_agreeOn hE v true
  | .raw e => by
    rw [Segment.render, Segment.render]
    exact (evalIn_agreeOn hE e).bind fun v => write_agreeOn hE v false
  | .conditional test body more => by
    rw [Segment.render, Segment.render]
    refine (evalIn_agreeOn hE test).bind fun v => ?_
    split
    · exact renderAll_agreeOn hE body ""
    · exact Alternatives.render_agreeOn hE more
  | .loop header body => by
    rw [Segment.render, Segment.render]
    exact withFrame_agreeOn (renderLoop_agreeOn hE header (renderAll_agreeOn hE body "")) []
  | .each collection names body => by
    rw [Segment.render, Segment.render]
    exact (evalIn_agreeOn hE collection).bind fun v =>
      (iterated_agreeOn collection v).bind fun items =>
      renderItems_agreeOn names v (renderAll_agreeOn hE body "") items 0 ""

theorem Alternatives.render_agreeOn (hE : env.AgreeOn P env') :
    (a : Alternatives) → AgreeOn (Has P) (a.render env) (a.render env')
  | .done => by
    rw [Alternatives.render, Alternatives.render]
    exact .pure _
  | .otherwise body => by
    rw [Alternatives.render, Alternatives.render]
    exact renderAll_agreeOn hE body ""
  | .elseIf test body more => by
    rw [Alternatives.render, Alternatives.render]
    refine (evalIn_agreeOn hE test).bind fun v => ?_
    split
    · exact renderAll_agreeOn hE body ""
    · exact Alternatives.render_agreeOn hE more

theorem renderAll_agreeOn (hE : env.AgreeOn P env') : (ss : List Segment) → (out : String) →
    AgreeOn (Has P) (renderAll env ss out) (renderAll env' ss out)
  | [], out => by
    rw [renderAll, renderAll]
    exact .pure _
  | s :: ss, out => by
    rw [renderAll, renderAll]
    exact (Segment.render_agreeOn hE s).bind fun text => renderAll_agreeOn hE ss (out ++ text)

end

/-- A template is rendered in the same way in environments that agree. -/
theorem Template.render_agreeOn (hE : env.AgreeOn P env') (t : Template) :
    AgreeOn P (t.render env) (t.render env') := by
  intro w hw
  obtain ⟨he, hp⟩ := renderAll_agreeOn hE t.segments "" ⟨w, .empty⟩ hw
  unfold Template.render
  rw [← he]
  exact ⟨rfl, hp⟩

end Render

end LiveMarkup
