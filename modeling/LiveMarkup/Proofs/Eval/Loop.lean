import LiveMarkup.Proofs.Eval.Limit
import LiveMarkup.Proofs.Eval.Rounds

/-!
# Loops that are cut off

The bound on rounds only ever cuts off: a rendering that it does not end is the same under every
higher bound, and it ends a rendering exactly where a loop that is entered passes its test once more
after as many complete rounds as the bound allows (`Template.render_limited`).  `Segment.Enters`
says whether a rendering enters a loop of some kind, and in which state: it follows the rendering up
to the loop, with everything before the loop rendered to its end.
-/

namespace LiveMarkup

/-! ### Up to an error -/

namespace Run

variable {S ε α β : Type} {e : ε} {r r' : Run S ε α} {f f' : α → Run S ε β} {s t : S}

/-- Whether a run does what another one does wherever that one does not end with the error `e`. -/
def UpTo (e : ε) (r r' : Run S ε α) : Prop := ∀ s, (r s).1 = .error e ∨ r' s = r s

theorem UpTo.refl (r : Run S ε α) : UpTo e r r := fun _ => Or.inr rfl

theorem UpTo.bind (hr : UpTo e r r') (hf : ∀ a, UpTo e (f a) (f' a)) :
    UpTo e (r >>= f) (r' >>= f') := by
  intro s
  rcases hrs : r s with ⟨a | e' | _, t⟩ <;> have hs := hr s <;> rw [hrs] at hs
  · rw [bind_eq_of_ok hrs, bind_eq_of_ok (hs.resolve_left nofun)]
    exact hf a t
  · rw [bind_eq_of_error hrs]
    rcases hs with he | hs
    · cases he
      exact Or.inl rfl
    · exact Or.inr (bind_eq_of_error hs)
  · exact Or.inr ((bind_eq_of_stopped (hs.resolve_left nofun)).trans (bind_eq_of_stopped hrs).symm)

end Run

open TemplateError (NotOfLoop)

section Render

variable {σ : Type} {α : Type} {env : Env σ} {L L' : Nat}

theorem Run.FailsWith.fst_ne {S : Type} {r : Run S TemplateError α} (hr : r.FailsWith NotOfLoop)
    (limit : Nat) (s : S) :
    (r s).1 ≠ .error (.loopExceeded limit) :=
  fun h => hr (Prod.ext h rfl) limit rfl

/-! ### Under a higher bound -/

theorem withFrame_upTo {e : TemplateError} {r r' : Render σ α} (hr : Run.UpTo e r r') (f : Frame) :
    Run.UpTo e (withFrame f r) (withFrame f r') := by
  intro s
  rcases hr { s with scope := s.scope.enter f } with he | hs
  · exact Or.inl he
  · refine Or.inr ?_
    unfold withFrame
    rw [hs]

theorem repeatBody_upTo (test : Render σ Bool) {body body' : Render σ String} (step : Render σ Unit)
    (hb : Run.UpTo (.loopExceeded L) body body') {n n' : Nat} (hn : n ≤ n') (out : String) :
    Run.UpTo (.loopExceeded L) (repeatBody L test body step n out)
    (repeatBody L' test body' step n' out) := by
  induction n generalizing n' out with
  | zero =>
    -- the rounds are used up: the two differ only where the test passes, and there the first one is
    -- cut off
    have hpasses (r : Bool → Render σ String) (hr : r false = pure out) (b : Bool) :
        Run.UpTo (.loopExceeded L) (if b then Run.fail (.loopExceeded L) else pure out) (r b) := by
      cases b with
      | true => exact fun s => Or.inl rfl
      | false =>
        rw [hr]
        exact .refl _
    cases n' with
    | zero => exact (Run.UpTo.refl test).bind (hpasses _ rfl)
    | succ n' => exact (Run.UpTo.refl test).bind (hpasses _ rfl)
  | succ n ih =>
    cases n' with
    | zero => exact (Nat.not_succ_le_zero n hn).elim
    | succ n' =>
      refine (Run.UpTo.refl test).bind fun b => ?_
      split
      · exact hb.bind fun text => (Run.UpTo.refl step).bind fun _ =>
          ih (Nat.le_of_succ_le_succ hn) _
      · exact .refl _

theorem renderItems_upTo (names : List String) (collection : Value) {e : TemplateError}
    {body body' : Render σ String} (hb : Run.UpTo e body body') (items : List Value) (index : Nat)
    (out : String) :
    Run.UpTo e (renderItems names collection body items index out)
      (renderItems names collection body' items index out) := by
  induction items generalizing index out with
  | nil => exact .refl _
  | cons item items ih => exact (withFrame_upTo hb _).bind fun text => ih _ _

variable (env)

theorem renderLoop_upTo (hL : L ≤ L') (header : LoopHeader) {body body' : Render σ String}
    (hb : Run.UpTo (.loopExceeded L) body body') :
    Run.UpTo (.loopExceeded L) (renderLoop (env.limited L) header body)
    (renderLoop (env.limited L') header body') := by
  unfold renderLoop
  rw [execOptional_limited, execOptional_limited, execOptional_limited, execOptional_limited,
    testOptional_limited, testOptional_limited]
  exact (Run.UpTo.refl _).bind fun _ => repeatBody_upTo _ _ hb hL _

mutual

theorem Segment.render_upTo (hL : L ≤ L') :
    (s : Segment) → Run.UpTo (.loopExceeded L) (s.render (env.limited L))
    (s.render (env.limited L'))
  | .text t => by
    rw [Segment.render, Segment.render]
    exact .refl _
  | .escaped e => by
    rw [Segment.render, Segment.render, evalIn_limited, evalIn_limited]
    exact .refl _
  | .raw e => by
    rw [Segment.render, Segment.render, evalIn_limited, evalIn_limited]
    exact .refl _
  | .conditional test body more => by
    rw [Segment.render, Segment.render, evalIn_limited, evalIn_limited]
    refine (Run.UpTo.refl _).bind fun v => ?_
    split
    · exact renderAll_upTo hL body ""
    · exact Alternatives.render_upTo hL more
  | .loop header body => by
    rw [Segment.render, Segment.render]
    exact withFrame_upTo (renderLoop_upTo env hL header (renderAll_upTo hL body "")) []
  | .each collection names body => by
    rw [Segment.render, Segment.render, evalIn_limited, evalIn_limited]
    exact (Run.UpTo.refl _).bind fun v => (Run.UpTo.refl _).bind fun items =>
      renderItems_upTo names v (renderAll_upTo hL body "") items 0 ""

theorem Alternatives.render_upTo (hL : L ≤ L') :
    (a : Alternatives) → Run.UpTo (.loopExceeded L) (a.render (env.limited L))
    (a.render (env.limited L'))
  | .done => by
    rw [Alternatives.render, Alternatives.render]
    exact .refl _
  | .otherwise body => by
    rw [Alternatives.render, Alternatives.render]
    exact renderAll_upTo hL body ""
  | .elseIf test body more => by
    rw [Alternatives.render, Alternatives.render, evalIn_limited, evalIn_limited]
    refine (Run.UpTo.refl _).bind fun v => ?_
    split
    · exact renderAll_upTo hL body ""
    · exact Alternatives.render_upTo hL more

theorem renderAll_upTo (hL : L ≤ L') : (ss : List Segment) → (out : String) →
    Run.UpTo (.loopExceeded L) (renderAll (env.limited L) ss out)
    (renderAll (env.limited L') ss out)
  | [], out => by
    rw [renderAll, renderAll]
    exact .refl _
  | s :: ss, out => by
    rw [renderAll, renderAll]
    exact (Segment.render_upTo hL s).bind fun text => renderAll_upTo hL ss _

end

end Render

/-! ### Loops that are entered -/

/-- A loop of a template with the state in which it is entered: its frame is open, and nothing of
its header is done. -/
structure LoopEntry (σ : Type) where
  header : LoopHeader
  body : List Segment
  start : Rendering σ

/-- The entry of a loop from the state before it. -/
def LoopEntry.at {σ : Type} (header : LoopHeader) (body : List Segment) (s : Rendering σ) :
    LoopEntry σ :=
  ⟨header, body, { s with scope := s.scope.enter [] }⟩

namespace LoopEntry

variable {σ : Type} (env : Env σ) (x : LoopEntry σ)

/-- What the loop does. -/
def run : Outcome TemplateError String × Rendering σ :=
  renderLoop env x.header (renderAll env x.body "") x.start

/-- The first part of the header, and then a number of complete rounds. -/
def Reaches (k : Nat) (text : String) (t : Rendering σ) : Prop :=
  ∃ s, execOptional env x.header.init x.start = (.ok (), s) ∧
    Rounds (testOptional env x.header.test) (renderAll env x.body "")
      (execOptional env x.header.step) k s text t

/-- Whether the loop gets through `k` complete rounds and then still passes its test, if it has one,
which leads to the state `u`. -/
def PassesAfter (k : Nat) (u : Rendering σ) : Prop :=
  ∃ text t, x.Reaches env k text t ∧ testOptional env x.header.test t = (.ok true, u)

/-- The loop as nothing cuts it off, with the number of times that its body is rendered. -/
def Runs (k : Nat) (o : Outcome TemplateError String) (u : Rendering σ) : Prop :=
  (k = 0 ∧ ∃ f, execOptional env x.header.init x.start = (.ofFailure f, u) ∧ o = .ofFailure f) ∨
    ∃ s, execOptional env x.header.init x.start = (.ok (), s) ∧
      LoopRun (testOptional env x.header.test) (renderAll env x.body "")
        (execOptional env x.header.step) k s o u

variable {env x} {o : Outcome TemplateError String} {u : Rendering σ}

/-- A loop renders its body at most as often as the bound says.  It either comes to its end like
that, or it passes its test once more after as many complete rounds and is cut off. -/
theorem run_eq_iff :
    x.run env = (o, u) ↔ (∃ k ≤ env.options.maxLoopIterations, x.Runs env k o u) ∨
      o = .error (.loopExceeded env.options.maxLoopIterations) ∧
      x.PassesAfter env env.options.maxLoopIterations u := by
  unfold run renderLoop Runs PassesAfter Reaches
  -- the first part of the header leads to the first test or is the end of the loop already
  rcases hinit : execOptional env x.header.init x.start with ⟨o', s⟩
  rcases o'.ok_or_failure with ⟨⟨⟩, rfl⟩ | ⟨f, rfl⟩
  · rw [Run.bind_eq_of_ok hinit, repeatBody_eq_iff]
    constructor
    · rintro (⟨k, hk, hrun⟩ | ⟨ho, text, t, hrounds, hpasses⟩)
      · exact Or.inl ⟨k, hk, Or.inr ⟨s, rfl, hrun⟩⟩
      · exact Or.inr ⟨ho, text, t, ⟨s, rfl, hrounds⟩, hpasses⟩
    · rintro (⟨k, hk, ⟨-, f, hf, -⟩ | ⟨s', hs, hrun⟩⟩ | ⟨ho, text, t, ⟨s', hs, hrounds⟩, hpasses⟩)
      · exact (Outcome.ok_ne_ofFailure (congrArg Prod.fst hf)).elim
      · cases hs
        exact Or.inl ⟨k, hk, hrun⟩
      · cases hs
        exact Or.inr ⟨ho, text, t, hrounds, hpasses⟩
  · rw [Run.bind_eq_of_failure hinit]
    constructor
    · intro h
      cases h
      exact Or.inl ⟨0, Nat.zero_le _, Or.inl ⟨rfl, f, rfl, rfl⟩⟩
    · rintro (⟨k, hk, ⟨-, f', hf, rfl⟩ | ⟨s', hs, -⟩⟩ | ⟨-, text, t, ⟨s', hs, -⟩, -⟩)
      · rw [Prod.mk.injEq] at hf ⊢
        rw [Outcome.ofFailure_injective hf.1]
        exact ⟨rfl, hf.2⟩
      · exact (Outcome.ok_ne_ofFailure (congrArg Prod.fst hs).symm).elim
      · exact (Outcome.ok_ne_ofFailure (congrArg Prod.fst hs).symm).elim

/-- A loop whose test fails after at most as many complete rounds as the bound allows ends with the
text of these rounds. -/
theorem run_of_done {k : Nat} {text : String} {t : Rendering σ} (hreach : x.Reaches env k text t)
    (hk : k ≤ env.options.maxLoopIterations)
    (htest : testOptional env x.header.test t = (.ok false, u)) :
    x.run env = (.ok text, u) := by
  obtain ⟨s, hinit, hrounds⟩ := hreach
  have hrun := hrounds.run (.stop (.done htest))
  rw [Nat.zero_add, Outcome.map, String.append_empty] at hrun
  exact run_eq_iff.2 (Or.inl ⟨k, hk, Or.inr ⟨s, hinit, hrun⟩⟩)

/-- A loop that would render its body more often is cut off. -/
theorem Runs.passesAfter {k n : Nat} (h : x.Runs env k o u) (hn : n < k) :
    ∃ v, x.PassesAfter env n v := by
  rcases h with ⟨rfl, -⟩ | ⟨s, hinit, hrun⟩
  · exact (Nat.not_lt_zero n hn).elim
  · obtain ⟨text, t, v, hrounds, htest⟩ := hrun.passes hn
    exact ⟨v, text, t, ⟨s, hinit, hrounds⟩, htest⟩

/-- A loop ends with the error of the bound if it is cut off or if its body does so in a round. -/
theorem run_eq_exceeded_iff :
    (x.run env).1 = .error (.loopExceeded env.options.maxLoopIterations) ↔
      (∃ u, x.PassesAfter env env.options.maxLoopIterations u) ∨
        ∃ k < env.options.maxLoopIterations, ∃ u, x.PassesAfter env k u ∧
          (renderAll env x.body "" u).1 = .error (.loopExceeded env.options.maxLoopIterations) := by
  constructor
  · intro h
    rcases run_eq_iff.1 (Prod.ext h rfl) with
      ⟨k, hk, ⟨-, f, hinit, hf⟩ | ⟨s, hinit, hrun⟩⟩ | ⟨-, hpasses⟩
    · obtain rfl := Outcome.ofFailure_injective (show Outcome.ofFailure (.error _) = _ from hf)
      exact (execOptional_failsWith _ hinit _ rfl).elim
    · obtain ⟨j, hj, text, t, v, hrounds, htest, hbody⟩ :=
        hrun.body_error (fun s t h => testOptional_failsWith _ h _ rfl) fun s t h =>
        execOptional_failsWith _ h _ rfl
      exact Or.inr ⟨j, by omega, v, ⟨text, t, ⟨s, hinit, hrounds⟩, htest⟩, congrArg Prod.fst hbody⟩
    · exact Or.inl ⟨_, hpasses⟩
  · rintro (⟨u, hpasses⟩ | ⟨k, hk, u, ⟨text, t, ⟨s, hinit, hrounds⟩, htest⟩, hbody⟩)
    · rw [run_eq_iff.2 (Or.inr ⟨rfl, hpasses⟩)]
    · -- a round that the bound allows is cut short by its body, so the loop ends by itself
      have hrun := hrounds.run (.stop (.body (f := .error _) htest (Prod.ext hbody rfl)))
      rw [run_eq_iff.2 (Or.inl ⟨1 + k, by omega, Or.inr ⟨s, hinit, hrun⟩⟩)]
      rfl

end LoopEntry

/-! ### Items and branches -/

section Parts

variable {σ : Type} {env : Env σ} {s t : Rendering σ}

section Items

variable {names : List String} {collection : Value} {body : Render σ String}
  {before items : List Value} {index : Nat} {out text : String} {e : TemplateError}

theorem renderItems_append
    (h : renderItems names collection body before index out s = (.ok text, t)) :
    renderItems names collection body (before ++ items) index out s =
      renderItems names collection body items (index + before.length) text t := by
  induction before generalizing index out s with
  | nil =>
    cases h
    rfl
  | cons item before ih =>
    rw [renderItems] at h
    obtain ⟨text', u, hitem, hrest⟩ := Run.bind_eq_ok_iff.1 h
    rw [List.cons_append, renderItems, Run.bind_eq_of_ok hitem, ih hrest, List.length_cons,
      Nat.add_right_comm, Nat.add_assoc]

/-- An each-block ends with an error if its body does for one of the items, after those before
it. -/
theorem renderItems_eq_error_iff :
    (renderItems names collection body items index out s).1 = .error e ↔
      ∃ before item after text t, items = before ++ item :: after ∧
        renderItems names collection body before index out s = (.ok text, t) ∧
        (body { t with
          scope := t.scope.enter (eachFrame names item (index + before.length) collection) }).1 =
            .error e := by
  constructor
  · intro h
    induction items generalizing index out s with
    | nil => cases h
    | cons item items ih =>
      rw [renderItems] at h
      rcases Run.fst_bind_eq_error_iff.1 h with hitem | ⟨text, t, hitem, hrest⟩
      · exact ⟨[], item, items, out, s, rfl, rfl, hitem⟩
      · obtain ⟨before, item', after, text', t', hitems, hbefore, herror⟩ := ih hrest
        refine ⟨item :: before, item', after, text', t', by rw [hitems, List.cons_append], ?_, ?_⟩
        · rw [renderItems, Run.bind_eq_of_ok hitem, hbefore]
        · rwa [List.length_cons, ← Nat.add_assoc, Nat.add_right_comm]
  · rintro ⟨before, item, after, text, t, rfl, hbefore, herror⟩
    rw [renderItems_append hbefore, renderItems]
    exact Run.fst_bind_eq_error_iff.2 (Or.inl herror)

end Items

/-- A branch ends with the error of a bound if what is taken does. -/
theorem branch_eq_exceeded_iff {test : Expr} {yes no : Render σ String} {limit : Nat} :
    ((evalIn env test >>= fun v => if v.truthy then yes else no) s).1 =
        .error (.loopExceeded limit) ↔
      ∃ v t, evalIn env test s = (.ok v, t) ∧
        if v.truthy then (yes t).1 = .error (.loopExceeded limit) else
          (no t).1 = .error (.loopExceeded limit) := by
  rw [Run.fst_bind_eq_error_iff, or_iff_right ((evalIn_failsWith test).fst_ne limit s)]
  refine exists₂_congr fun v t => and_congr_right fun _ => ?_
  split <;> rfl

/-- An each-block ends with the error of a bound if its body does for one of the items. -/
theorem each_eq_exceeded_iff {collection : Expr} {names : List String} {body : Render σ String}
    {limit : Nat} :
    ((evalIn env collection >>= fun v => iterated collection v >>= fun items =>
        renderItems names v body items 0 "") s).1 = .error (.loopExceeded limit) ↔
      ∃ v t items u, evalIn env collection s = (.ok v, t) ∧
        iterated collection v t = (.ok items, u) ∧
        ∃ before item after text w, items = before ++ item :: after ∧
          renderItems names v body before 0 "" u = (.ok text, w) ∧
          (body { w with scope := w.scope.enter (eachFrame names item before.length v) }).1 =
            .error (.loopExceeded limit) := by
  rw [Run.fst_bind_eq_error_iff, or_iff_right ((evalIn_failsWith collection).fst_ne limit s)]
  refine exists₂_congr fun v t => ?_
  rw [Run.fst_bind_eq_error_iff, or_iff_right ((iterated_failsWith collection v).fst_ne limit t)]
  simp only [renderItems_eq_error_iff, Nat.zero_add, exists_and_left]

end Parts

/-! ### Loops that a rendering enters -/

section Enters

variable {σ : Type} (env : Env σ) (P : LoopEntry σ → Prop)

mutual

/-- Whether the rendering of a segment enters a loop with the property `P`. -/
def Segment.Enters : Segment → Rendering σ → Prop
  | .text _, _ => False
  | .escaped _, _ => False
  | .raw _, _ => False
  | .conditional test body more, s =>
    ∃ v t, evalIn env test s = (.ok v, t) ∧ if v.truthy then EntersAll body t else more.Enters t
  | .loop header body, s =>
    P (.at header body s) ∨
      ∃ k < env.options.maxLoopIterations, ∃ t, (LoopEntry.at header body s).PassesAfter env k t ∧
        EntersAll body t
  | .each collection names body, s =>
    ∃ v t items u, evalIn env collection s = (.ok v, t) ∧ iterated collection v t = (.ok items, u) ∧
      ∃ before item after text w, items = before ++ item :: after ∧
        renderItems names v (renderAll env body "") before 0 "" u = (.ok text, w) ∧
        EntersAll body { w with scope := w.scope.enter (eachFrame names item before.length v) }

/-- Whether the rendering of the further branches of a conditional enters a loop with the property
`P`. -/
def Alternatives.Enters : Alternatives → Rendering σ → Prop
  | .done, _ => False
  | .otherwise body, s => EntersAll body s
  | .elseIf test body more, s =>
    ∃ v t, evalIn env test s = (.ok v, t) ∧ if v.truthy then EntersAll body t else more.Enters t

/-- Whether the rendering of several segments enters a loop with the property `P`. -/
def EntersAll : List Segment → Rendering σ → Prop
  | [], _ => False
  | s :: ss, t => s.Enters t ∨ ∃ text u, s.render env t = (.ok text, u) ∧ EntersAll ss u

end

/-- Whether the rendering of a template enters a loop with the property `P`. -/
def Template.Enters (t : Template) (w : World σ) : Prop := EntersAll env P t.segments ⟨w, .empty⟩

end Enters

section Exceeded

variable {σ : Type} (env : Env σ)

/-- Whether a loop passes its test once more after as many complete rounds as the bound allows. -/
def LoopEntry.CutOff (x : LoopEntry σ) : Prop :=
  ∃ u, x.PassesAfter env env.options.maxLoopIterations u

open LoopEntry (CutOff)

mutual

/-- The error of the bound is that of a loop that is entered and cut off. -/
theorem Segment.render_eq_exceeded_iff : (s : Segment) → ∀ t : Rendering σ,
    (s.render env t).1 = .error (.loopExceeded env.options.maxLoopIterations) ↔
    s.Enters env (CutOff env) t
  | .text _, t => by
    rw [Segment.render, Segment.Enters]
    exact ⟨nofun, False.elim⟩
  | .escaped e, t => by
    rw [Segment.render, Segment.Enters, iff_false]
    exact ((evalIn_failsWith e).bind fun v => write_failsWith v true).fst_ne _ t
  | .raw e, t => by
    rw [Segment.render, Segment.Enters, iff_false]
    exact ((evalIn_failsWith e).bind fun v => write_failsWith v false).fst_ne _ t
  | .conditional test body more, t => by
    rw [Segment.render, Segment.Enters, branch_eq_exceeded_iff]
    simp only [renderAll_eq_exceeded_iff body, Alternatives.render_eq_exceeded_iff more]
  | .loop header body, t => by
    rw [Segment.render, Segment.Enters]
    show ((LoopEntry.at header body t).run env).1 = _ ↔ _
    rw [LoopEntry.run_eq_exceeded_iff]
    simp only [LoopEntry.at, CutOff, renderAll_eq_exceeded_iff body]
  | .each collection names body, t => by
    rw [Segment.render, Segment.Enters, each_eq_exceeded_iff]
    simp only [renderAll_eq_exceeded_iff body]

theorem Alternatives.render_eq_exceeded_iff : (a : Alternatives) → ∀ t : Rendering σ,
    (a.render env t).1 = .error (.loopExceeded env.options.maxLoopIterations) ↔
    a.Enters env (CutOff env) t
  | .done, t => by
    rw [Alternatives.render, Alternatives.Enters]
    exact ⟨nofun, False.elim⟩
  | .otherwise body, t => by
    rw [Alternatives.render, Alternatives.Enters, renderAll_eq_exceeded_iff body]
  | .elseIf test body more, t => by
    rw [Alternatives.render, Alternatives.Enters, branch_eq_exceeded_iff]
    simp only [renderAll_eq_exceeded_iff body, Alternatives.render_eq_exceeded_iff more]

theorem renderAll_eq_exceeded_iff : (ss : List Segment) → ∀ {out : String} (t : Rendering σ),
    (renderAll env ss out t).1 = .error (.loopExceeded env.options.maxLoopIterations) ↔
      EntersAll env (CutOff env) ss t
  | [], _, t => by
    rw [renderAll, EntersAll]
    exact ⟨nofun, False.elim⟩
  | s :: ss, _, t => by
    rw [renderAll, EntersAll, Run.fst_bind_eq_error_iff, Segment.render_eq_exceeded_iff s]
    simp only [renderAll_eq_exceeded_iff ss]

end

end Exceeded

/-! ### Templates -/

section Template

variable {σ : Type}

/-- The bound on rounds only ever cuts off.  Under a bound `L` every loop either comes to its end
with its body rendered at most `L` times, or it passes its test, if it has one, once more after `L`
complete rounds and ends with the error of the bound.  So a loop that by itself renders its body `k`
times is not touched where `k ≤ L` and is cut off where `L < k`, and a loop whose test fails after
at most `L` complete rounds ends with the text of these rounds.  A template whose rendering does not
end with the error of the bound is rendered in the very same way under every higher bound, and its
rendering ends with that error exactly if it enters a loop that passes its test after `L` complete
rounds. -/
theorem Template.render_limited (t : Template) (env : Env σ) (w : World σ) {L L' : Nat}
    (hL : L ≤ L') :
    (∀ x : LoopEntry σ,
      ((∃ k ≤ L, x.Runs (env.limited L) k (x.run (env.limited L)).1 (x.run (env.limited L)).2) ∨
        (x.run (env.limited L)).1 = .error (.loopExceeded L) ∧
          x.PassesAfter (env.limited L) L (x.run (env.limited L)).2) ∧
      (∀ k o u, x.Runs (env.limited L) k o u → (k ≤ L → x.run (env.limited L) = (o, u)) ∧
        (L < k → (x.run (env.limited L)).1 = .error (.loopExceeded L))) ∧
      ∀ k ≤ L, ∀ text s u, x.Reaches (env.limited L) k text s →
        testOptional env x.header.test s = (.ok false, u) → x.run (env.limited L) = (.ok text, u)) ∧
    ((t.render (env.limited L) w).1 ≠ .error (.loopExceeded L) →
      t.render (env.limited L') w = t.render (env.limited L) w) ∧
    ((t.render (env.limited L) w).1 = .error (.loopExceeded L) ↔
      t.Enters (env.limited L) (fun x => ∃ u, x.PassesAfter (env.limited L) L u) w) := by
  refine ⟨fun x => ⟨?_, fun k o u hruns => ⟨fun hk => ?_, fun hk => ?_⟩,
    fun k hk text s u hreach htest => ?_⟩,
    fun hne => ?_, ?_⟩
  · have hrun : x.run (env.limited L) = ((x.run (env.limited L)).1, (x.run (env.limited L)).2) :=
      rfl
    exact LoopEntry.run_eq_iff.1 hrun
  · exact LoopEntry.run_eq_iff.2 (Or.inl ⟨k, hk, hruns⟩)
  · exact LoopEntry.run_eq_exceeded_iff.2 (Or.inl (hruns.passesAfter hk))
  · rw [← testOptional_limited env L] at htest
    exact LoopEntry.run_of_done hreach hk htest
  · unfold Template.render
    rw [(renderAll_upTo env hL t.segments "" ⟨w, .empty⟩).resolve_left hne]
  · exact renderAll_eq_exceeded_iff (env.limited L) t.segments ⟨w, .empty⟩

/-- A template with one loop that goes through one round. -/
def onceAround : Template where
  segments := [.loop ⟨some (.declare "go" (.literal (.bool true))), some (.ident "go"),
    some (.assign "go" .set (.literal (.bool false)))⟩ [.text "x"]]

/-- One round is within a bound of one, so a bound of two changes nothing; a bound of none cuts the
loop off. -/
theorem Template.render_limited_onceAround :
    let env : Env Unit := ⟨⟨fun _ _ _ w => (.error .bound, w), 0⟩, defaultOptions, []⟩
    let w : World Unit := ⟨Heap.empty, ()⟩
    (onceAround.render (env.limited 1) w).1.ok? = some "x" ∧
      onceAround.render (env.limited 2) w = onceAround.render (env.limited 1) w ∧
      onceAround.Enters (env.limited 0) (fun x => ∃ u, x.PassesAfter (env.limited 0) 0 u) w := by
  intro env w
  have hone : (onceAround.render (env.limited 1) w).1.ok? = some "x" := by decide +kernel
  have hne : (onceAround.render (env.limited 1) w).1 ≠ .error (.loopExceeded 1) := by
    rw [Outcome.ok?_eq_some_iff.1 hone]
    exact nofun
  have hzero : (onceAround.render (env.limited 0) w).1.error? = some (.loopExceeded 0) := by
    decide +kernel
  exact ⟨hone, (onceAround.render_limited env w (Nat.le_succ 1)).2.1 hne,
    (onceAround.render_limited env w (Nat.zero_le 1)).2.2.1 (Outcome.error?_eq_some_iff.1 hzero)⟩

end Template

end LiveMarkup
