import LiveMarkup.Eval.Template
import LiveMarkup.Proofs.Eval.Run

/-!
# What the bound on rounds has no part in

A template is rendered under a bound on how often a loop renders its body (`Env.limited`).
Expressions and the parts of a loop header do not depend on it, and none of them ends with the error
of a loop that was cut off (`TemplateError.NotOfLoop`).
-/

namespace LiveMarkup

variable {σ : Type}

/-- The environment with another bound on rounds. -/
def Env.limited (env : Env σ) (limit : Nat) : Env σ :=
  { env with options := { env.options with maxLoopIterations := limit } }

@[simp] theorem Env.limited_fields (env : Env σ) (limit : Nat) :
    (env.limited limit).fields = env.fields := rfl

@[simp] theorem Env.limited_runtime (env : Env σ) (limit : Nat) :
    (env.limited limit).runtime = env.runtime := rfl

/-! ### What the bound has no part in -/

section Limited

variable (env : Env σ) (limit : Nat)

mutual

theorem Expr.eval_limited (scope : Scope) :
    (e : Expr) → e.eval (env.limited limit) scope = e.eval env scope
  | .literal l => by rw [Expr.eval, Expr.eval]
  | .ident name => by rw [Expr.eval, Expr.eval, Env.limited_fields]
  | .array items => by rw [Expr.eval, Expr.eval, Expr.evalAll_limited scope items]
  | .member object name => by rw [Expr.eval, Expr.eval, Expr.eval_limited scope object]
  | .index object key =>
    by rw [Expr.eval, Expr.eval, Expr.eval_limited scope object, Expr.eval_limited scope key]
  | .call callee args => by
    rw [Expr.eval, Expr.eval, Expr.eval_limited scope callee, Expr.evalAll_limited scope args,
      Env.limited_runtime]
  | .unary op operand => by rw [Expr.eval, Expr.eval, Expr.eval_limited scope operand]
  | .binary op lhs rhs => by
    rw [Expr.eval, Expr.eval, Expr.eval_limited scope lhs, Expr.eval_limited scope rhs]
  | .logical op lhs rhs => by
    rw [Expr.eval, Expr.eval, Expr.eval_limited scope lhs, Expr.eval_limited scope rhs]
  | .conditional test yes no => by
    rw [Expr.eval, Expr.eval, Expr.eval_limited scope test, Expr.eval_limited scope yes,
      Expr.eval_limited scope no]

theorem Expr.evalAll_limited (scope : Scope) : (es : List Expr) →
    Expr.evalAll (env.limited limit) scope es = Expr.evalAll env scope es
  | [] => by rw [Expr.evalAll, Expr.evalAll]
  | e :: es => by
    rw [Expr.evalAll, Expr.evalAll, Expr.eval_limited scope e, Expr.evalAll_limited scope es]

end

theorem evalIn_limited (e : Expr) : evalIn (env.limited limit) e = evalIn env e :=
  congrArg inScope (funext fun scope => e.eval_limited env limit scope)

theorem Stmt.exec_limited (s : Stmt) : s.exec (env.limited limit) = s.exec env := by
  cases s with
  | step name direction => rfl
  | declare name init => rw [exec, exec, evalIn_limited]
  | assign name op rhs =>
    rw [exec, exec, evalIn_limited]
    rfl
  | expr e => rw [exec, exec, evalIn_limited]

theorem execOptional_limited (s : Option Stmt) :
    execOptional (env.limited limit) s = execOptional env s := by
  cases s with
  | none => rfl
  | some s => exact s.exec_limited env limit

theorem testOptional_limited (e : Option Expr) :
    testOptional (env.limited limit) e = testOptional env e := by
  cases e with
  | none => rfl
  | some e => rw [testOptional, testOptional, evalIn_limited]

end Limited

/-! ### Errors that no loop ends with -/

/-- Whether an error is not that of a loop that was cut off. -/
def TemplateError.NotOfLoop (e : TemplateError) : Prop := ∀ limit, e ≠ .loopExceeded limit

open TemplateError (NotOfLoop)

theorem property_notOfLoop {h : Heap} {object : Value} {key : String} {e : TemplateError}
    (he : property h object key = .error e) : e.NotOfLoop := by
  unfold property at he
  split at he
  · cases he
    exact fun limit => TemplateError.noConfusion
  · cases he
    exact fun limit => TemplateError.noConfusion
  · split at he <;> cases he
  · split at he <;> cases he
  · cases he
  · cases he

theorem readProperty_failsWith (object : Value) (key : String) :
    (readProperty object key : Evaluation σ Value).FailsWith NotOfLoop := by
  intro w e u h
  unfold readProperty at h
  rcases hp : property w.heap object key with e' | v <;> rw [hp] at h <;> cases h
  exact property_notOfLoop hp

theorem newArray_failsWith (vs : List Value) :
    (newArray vs : Evaluation σ Value).FailsWith NotOfLoop := by
  intro w e u h
  cases h

theorem callFunction_failsWith (rt : Runtime σ) (f : FunctionId) (args : List Value) :
    (callFunction rt f args).FailsWith NotOfLoop :=
  fun _ _ _ h => (Outcome.ofStop_ne_error _ _ (congrArg Prod.fst h)).elim

section Failure

variable {env : Env σ}

mutual

theorem Expr.eval_failsWith (scope : Scope) : (e : Expr) → (e.eval env scope).FailsWith NotOfLoop
  | .literal l => by
    rw [Expr.eval]
    exact Run.failsWith_pure _
  | .ident name => by
    rw [Expr.eval]
    split
    · exact Run.failsWith_pure _
    · exact Run.failsWith_fail fun limit => TemplateError.noConfusion
  | .array items => by
    rw [Expr.eval]
    exact (Expr.evalAll_failsWith scope items).bind newArray_failsWith
  | .member object name => by
    rw [Expr.eval]
    exact (Expr.eval_failsWith scope object).bind fun v => readProperty_failsWith v name
  | .index object key => by
    rw [Expr.eval]
    exact (Expr.eval_failsWith scope object).bind fun v =>
      (Expr.eval_failsWith scope key).bind fun k =>
      (Run.failsWith_read _).bind fun h => readProperty_failsWith v _
  | .call callee args => by
    rw [Expr.eval]
    refine (Expr.eval_failsWith scope callee).bind fun v => ?_
    split
    · exact (Expr.evalAll_failsWith scope args).bind fun vs => callFunction_failsWith _ _ vs
    · exact Run.failsWith_fail fun limit => TemplateError.noConfusion
  | .unary op operand => by
    rw [Expr.eval]
    exact (Expr.eval_failsWith scope operand).bind fun v => (Run.failsWith_read _).bind fun h =>
      Run.failsWith_pure _
  | .binary op lhs rhs => by
    rw [Expr.eval]
    exact (Expr.eval_failsWith scope lhs).bind fun a =>
      (Expr.eval_failsWith scope rhs).bind fun b =>
      (Run.failsWith_read _).bind fun h => Run.failsWith_pure _
  | .logical op lhs rhs => by
    rw [Expr.eval]
    refine (Expr.eval_failsWith scope lhs).bind fun a => ?_
    split
    · exact Run.failsWith_pure _
    · exact Expr.eval_failsWith scope rhs
  | .conditional test yes no => by
    rw [Expr.eval]
    refine (Expr.eval_failsWith scope test).bind fun t => ?_
    split
    · exact Expr.eval_failsWith scope yes
    · exact Expr.eval_failsWith scope no

theorem Expr.evalAll_failsWith (scope : Scope) :
    (es : List Expr) → (Expr.evalAll env scope es).FailsWith NotOfLoop
  | [] => by
    rw [Expr.evalAll]
    exact Run.failsWith_pure _
  | e :: es => by
    rw [Expr.evalAll]
    exact (Expr.eval_failsWith scope e).bind fun v =>
      (Expr.evalAll_failsWith scope es).bind fun vs =>
      Run.failsWith_pure _

end

theorem evalIn_failsWith (e : Expr) : (evalIn env e).FailsWith NotOfLoop := by
  intro s e' u h
  have heval : e.eval env s.scope s.world = ((evalIn env e s).1, (evalIn env e s).2.world) := rfl
  rw [h] at heval
  exact Expr.eval_failsWith s.scope e heval

theorem write_failsWith (v : Value) (escape : Bool) : (write env v escape).FailsWith NotOfLoop :=
  fun _ _ _ h => (Outcome.ofStop_ne_error _ _ (congrArg Prod.fst h)).elim

theorem iterated_failsWith (collection : Expr) (v : Value) :
    (iterated collection v : Render σ (List Value)).FailsWith NotOfLoop := by
  cases v <;> first
    | exact Run.failsWith_read _
    | exact Run.failsWith_fail fun limit => TemplateError.noConfusion

theorem lookupName_failsWith (name : String) : (lookupName env name).FailsWith NotOfLoop := by
  intro s e u h
  unfold lookupName at h
  split at h <;> cases h
  exact fun limit => TemplateError.noConfusion

theorem changeScope_failsWith {f : Scope → Except TemplateError Scope}
    (hf : ∀ s e, f s = .error e → e.NotOfLoop) :
    (changeScope f : Render σ Unit).FailsWith NotOfLoop := by
  intro s e u h
  unfold changeScope at h
  split at h
  · cases h
  · rename_i e' he'
    cases h
    exact hf _ _ he'

theorem assignName_failsWith (name : String) (v : Value) :
    (assignName env name v).FailsWith NotOfLoop := by
  refine changeScope_failsWith fun s e he => ?_
  split at he <;> cases he
  exact fun limit => TemplateError.noConfusion

theorem Stmt.exec_failsWith (s : Stmt) : (s.exec env).FailsWith NotOfLoop := by
  cases s with
  | declare name init =>
    exact (evalIn_failsWith init).bind fun v => changeScope_failsWith fun s e he => nomatch he
  | assign name op rhs =>
    refine (evalIn_failsWith rhs).bind fun v => ?_
    split
    · exact assignName_failsWith name v
    · exact (lookupName_failsWith name).bind fun _ => (Run.failsWith_read _).bind fun _ =>
        assignName_failsWith name _
  | step name direction =>
    exact (lookupName_failsWith name).bind fun _ => (Run.failsWith_read _).bind fun _ =>
      assignName_failsWith name _
  | expr e => exact (evalIn_failsWith e).bind fun _ => Run.failsWith_pure _

theorem execOptional_failsWith (s : Option Stmt) : (execOptional env s).FailsWith NotOfLoop := by
  cases s with
  | none => exact Run.failsWith_pure _
  | some s => exact s.exec_failsWith

theorem testOptional_failsWith (e : Option Expr) : (testOptional env e).FailsWith NotOfLoop := by
  cases e with
  | none => exact Run.failsWith_pure _
  | some e => exact (evalIn_failsWith e).bind fun _ => Run.failsWith_pure _

end Failure

end LiveMarkup
