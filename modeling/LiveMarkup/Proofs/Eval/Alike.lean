import LiveMarkup.Eval.Template
import LiveMarkup.Proofs.Eval.Run
import LiveMarkup.Proofs.Value.Alike

/-!
# Rendering fields that are alike

Two runs are `Run.Alike` if from states that are alike they end alike, pairing more containers on
the way. Rendering a template against fields that are alike gives the same text, or the same error
(`Template.render_alike`): fields without functions leave rendering nothing to call, so apart from
the arrays that it makes only the writing out of values may touch the heap, and `escapeHtml` does
not.
-/

namespace LiveMarkup

/-- Outcomes of the same kind whose results are related and whose errors are the same. -/
inductive Outcome.Rel {ε α : Type} (R : α → α → Prop) : Outcome ε α → Outcome ε α → Prop
  | ok {a a' : α} (h : R a a') : Rel R (.ok a) (.ok a')
  | error (e : ε) : Rel R (.error e) (.error e)
  | stopped (why : Stop) : Rel R (.stopped why) (.stopped why)

/-- Two runs that, from states that are alike, come to states that are alike and to results that are
related. They may pair more containers than were paired before. -/
def Run.Alike {S ε α : Type} (St : Matching → S → S → Prop) (R : Matching → α → α → Prop)
    (m : Matching) (r r' : Run S ε α) : Prop :=
  ∀ ⦃m₁ s s'⦄, m ≤ m₁ → St m₁ s s' →
    ∃ m₂, m₁ ≤ m₂ ∧ St m₂ (r s).2 (r' s').2 ∧ Outcome.Rel (R m₂) (r s).1 (r' s').1

namespace Run.Alike

variable {S ε α β : Type} {St : Matching → S → S → Prop} {R : Matching → α → α → Prop}
  {R' : Matching → β → β → Prop} {m m' : Matching}

theorem mono {r r' : Run S ε α} (hm : m ≤ m') (h : Alike St R m r r') : Alike St R m' r r' :=
  fun _ _ _ hm₁ hs => h (hm.trans hm₁) hs

theorem pure {a a' : α} (h : ∀ m₁, m ≤ m₁ → R m₁ a a') :
    Alike St R m (Pure.pure a : Run S ε α) (Pure.pure a') :=
  fun m₁ _ _ hm₁ hs => ⟨m₁, le_rfl, hs, .ok (h m₁ hm₁)⟩

theorem fail (e : ε) : Alike St R m (Run.fail e) (Run.fail e) :=
  fun m₁ _ _ _ hs => ⟨m₁, le_rfl, hs, .error e⟩

theorem read {f f' : S → α} (h : ∀ m₁ s s', m ≤ m₁ → St m₁ s s' → R m₁ (f s) (f' s')) :
    Alike St R m (Run.read f : Run S ε α) (Run.read f') :=
  fun m₁ s s' hm₁ hs => ⟨m₁, le_rfl, hs, .ok (h m₁ s s' hm₁ hs)⟩

theorem bind {r r' : Run S ε α} {f f' : α → Run S ε β} (hr : Alike St R m r r')
    (hf : ∀ m₁, m ≤ m₁ → ∀ a a', R m₁ a a' → Alike St R' m₁ (f a) (f' a')) :
    Alike St R' m (r >>= f) (r' >>= f') := by
  intro m₁ s s' hm₁ hs
  obtain ⟨m₂, hm₂, hs₂, ho⟩ := hr hm₁ hs
  rcases hrs : r s with ⟨o, t⟩
  rcases hrs' : r' s' with ⟨o', t'⟩
  rw [hrs, hrs'] at hs₂ ho
  cases ho with
  | @ok a a' ha =>
    rw [bind_eq_of_ok hrs, bind_eq_of_ok hrs']
    obtain ⟨m₃, hm₃, h₃⟩ := hf m₂ (hm₁.trans hm₂) a a' ha le_rfl hs₂
    exact ⟨m₃, hm₂.trans hm₃, h₃⟩
  | error e =>
    rw [bind_eq_of_error hrs, bind_eq_of_error hrs']
    exact ⟨m₂, hm₂, hs₂, .error e⟩
  | stopped why =>
    rw [bind_eq_of_stopped hrs, bind_eq_of_stopped hrs']
    exact ⟨m₂, hm₂, hs₂, .stopped why⟩

end Run.Alike

variable {σ : Type}

/-- Worlds whose heaps hold paired containers. -/
def World.Alike (m : Matching) (w w' : World σ) : Prop := m.Holds w.heap w'.heap

/-! ### Names in scope -/

/-- Bindings of the same names to values that are alike. -/
def Frame.Alike (m : Matching) : Frame → Frame → Prop :=
  List.Forall₂ fun b b' => b.1 = b'.1 ∧ Value.Alike m b.2 b'.2

/-- Scopes whose frames are alike. -/
structure Scope.Alike (m : Matching) (s s' : Scope) : Prop where
  inner : List.Forall₂ (Frame.Alike m) s.inner s'.inner
  outer : Frame.Alike m s.outer s'.outer

section Scope

variable {m m' : Matching} {f f' : Frame} {s s' : Scope} {v v' : Value}

theorem Frame.Alike.mono (hm : m ≤ m') (hf : Frame.Alike m f f') : Frame.Alike m' f f' :=
  hf.imp fun _ _ hb => ⟨hb.1, hb.2.mono hm⟩

theorem Scope.Alike.mono (hm : m ≤ m') (hs : Scope.Alike m s s') : Scope.Alike m' s s' :=
  ⟨hs.inner.imp fun _ _ hf => hf.mono hm, hs.outer.mono hm⟩

/-- Options that are related are both there or both missing. -/
theorem rel_cases {α β : Type} {R : α → β → Prop} {x : Option α} {y : Option β}
    (h : Option.Rel R x y) :
    (x = none ∧ y = none) ∨ ∃ a b, x = some a ∧ y = some b ∧ R a b := by
  cases h with
  | none => exact Or.inl ⟨rfl, rfl⟩
  | some h => exact Or.inr ⟨_, _, rfl, rfl, h⟩

theorem Frame.Alike.get? (hf : Frame.Alike m f f') (name : String) :
    Option.Rel (Value.Alike m) (f.get? name) (f'.get? name) := by
  induction hf with
  | nil => exact .none
  | @cons b b' _ _ hb _ ih =>
    rw [Frame.get?, Frame.get?, ← hb.1]
    split_ifs
    · exact .some hb.2
    · exact ih

theorem Frame.Alike.set? (hf : Frame.Alike m f f') (name : String) (hv : Value.Alike m v v') :
    Option.Rel (Frame.Alike m) (f.set? name v) (f'.set? name v') := by
  induction hf with
  | nil => exact .none
  | @cons b b' g g' hb hg ih =>
    obtain ⟨k, w⟩ := b
    obtain ⟨k', w'⟩ := b'
    obtain ⟨rfl, hw⟩ : k = k' ∧ Value.Alike m w w' := hb
    rw [Frame.set?, Frame.set?]
    split_ifs
    · exact .some (.cons ⟨rfl, hv⟩ hg)
    · rcases rel_cases ih with ⟨hn, hn'⟩ | ⟨h, h', hs, hs', hh⟩
      · rw [hn, hn']
        exact .none
      · rw [hs, hs']
        exact .some (.cons ⟨rfl, hw⟩ hh)

theorem Frame.Alike.bind (hf : Frame.Alike m f f') (name : String) (hv : Value.Alike m v v') :
    Frame.Alike m (f.bind name v) (f'.bind name v') := by
  unfold Frame.bind
  rcases rel_cases (hf.set? name hv) with ⟨hn, hn'⟩ | ⟨g, g', hs, hs', hg⟩
  · rw [hn, hn']
    exact .cons ⟨rfl, hv⟩ hf
  · rw [hs, hs']
    exact hg

theorem rel_findSome? {fs fs' : List Frame} (hf : List.Forall₂ (Frame.Alike m) fs fs')
    (name : String) :
    Option.Rel (Value.Alike m) (fs.findSome? (Frame.get? name))
    (fs'.findSome? (Frame.get? name)) := by
  induction hf with
  | nil => exact .none
  | @cons f f' _ _ hf _ ih =>
    rw [List.findSome?_cons, List.findSome?_cons]
    rcases rel_cases (hf.get? name) with ⟨hn, hn'⟩ | ⟨v, v', hs, hs', hv⟩
    · rw [hn, hn']
      exact ih
    · rw [hs, hs']
      exact .some hv

theorem Scope.Alike.get? (hs : Scope.Alike m s s') (name : String) :
    Option.Rel (Value.Alike m) (s.get? name) (s'.get? name) := by
  unfold Scope.get?
  rcases rel_cases (rel_findSome? hs.inner name) with ⟨hn, hn'⟩ | ⟨v, v', hi, hi', hv⟩
  · rw [hn, hn']
    exact hs.outer.get? name
  · rw [hi, hi']
    exact .some hv

theorem Scope.Alike.lookup? (hs : Scope.Alike m s s') {fields fields' : Entries Value}
    (hf : ∀ name, Option.Rel (Value.Alike m) (Entries.get? name fields) (Entries.get? name fields'))
    (name : String) :
    Option.Rel (Value.Alike m) (s.lookup? fields name) (s'.lookup? fields' name) := by
  unfold Scope.lookup?
  rcases rel_cases (hs.get? name) with ⟨hn, hn'⟩ | ⟨v, v', hi, hi', hv⟩
  · rw [hn, hn']
    exact hf name
  · rw [hi, hi']
    exact .some hv

theorem Scope.Alike.declare (hs : Scope.Alike m s s') (name : String) (hv : Value.Alike m v v') :
    Scope.Alike m (s.declare name v) (s'.declare name v') := by
  obtain ⟨inner, outer⟩ := s
  obtain ⟨inner', outer'⟩ := s'
  obtain ⟨hi, ho⟩ := hs
  cases hi with
  | nil => exact ⟨.nil, ho.bind name hv⟩
  | cons hf hfs => exact ⟨.cons (Frame.Alike.bind hf name hv) hfs, ho⟩

theorem rel_setInner? {fs fs' : List Frame} (hf : List.Forall₂ (Frame.Alike m) fs fs')
    (name : String) (hv : Value.Alike m v v') :
    Option.Rel (List.Forall₂ (Frame.Alike m)) (Scope.setInner? name v fs)
    (Scope.setInner? name v' fs') := by
  induction hf with
  | nil => exact .none
  | @cons f f' gs gs' hf hg ih =>
    unfold Scope.setInner?
    rcases rel_cases (hf.set? name hv) with ⟨hn, hn'⟩ | ⟨h, h', hs, hs', hh⟩
    · rw [hn, hn']
      rcases rel_cases ih with ⟨hi, hi'⟩ | ⟨is, is', hi, hi', his⟩
      · rw [hi, hi']
        exact .none
      · rw [hi, hi']
        exact .some (.cons hf his)
    · rw [hs, hs']
      exact .some (.cons hh hg)

theorem Scope.Alike.assign? (hs : Scope.Alike m s s') {fields fields' : Entries Value}
    (hf : ∀ name, Option.Rel (Value.Alike m) (Entries.get? name fields) (Entries.get? name fields'))
    (name : String) (hv : Value.Alike m v v') :
    Option.Rel (Scope.Alike m) (s.assign? fields name v) (s'.assign? fields' name v') := by
  unfold Scope.assign?
  rcases rel_cases (rel_setInner? hs.inner name hv) with ⟨hi, hi'⟩ | ⟨gs, gs', hi, hi', hgs⟩
  · rw [hi, hi']
    rcases rel_cases (hs.outer.set? name hv) with ⟨hg, hg'⟩ | ⟨g, g', hg, hg', hgg⟩
    · rw [hg, hg']
      rcases rel_cases (hf name) with ⟨hk, hk'⟩ | ⟨u, u', hk, hk', -⟩
      · rw [hk, hk']
        exact .none
      · rw [hk, hk']
        exact .some ⟨hs.inner, .cons ⟨rfl, hv⟩ hs.outer⟩
    · rw [hg, hg']
      exact .some ⟨hs.inner, hgg⟩
  · rw [hi, hi']
    exact .some ⟨hgs, hs.outer⟩

end Scope

/-! ### Writing values out -/

section Escape

variable {m : Matching} {w w' : World σ} {v v' : Value}

theorem Heap.closedArrays_le (h : Heap) (opn : List ArrayId) : h.closedArrays opn ≤ h.arrays.size :=
  (List.length_filter_le _ _).trans_eq List.length_range

/-- A value without functions is written without changing the world if the bound lets every array be
open once, and values that are alike are written alike. -/
theorem escapeWithin_alike {rt rt' : Runtime σ} (hm : World.Alike m w w') {n n' : Nat}
    {opn opn' : List ArrayId}
    (ho : List.Forall₂ m.array opn opn') (hn : w.heap.closedArrays opn < n)
    (hn' : w'.heap.closedArrays opn' < n')
    (escape : Bool) (hv : Value.Alike m v v') :
    ∃ t, escapeWithin rt n opn escape v w = (.ok t, w) ∧
      escapeWithin rt' n' opn' escape v' w' = (.ok t, w') := by
  induction n generalizing n' opn opn' escape v v' with
  | zero => omega
  | succ n ih =>
    obtain ⟨n', rfl⟩ : ∃ k, n' = k + 1 := ⟨n' - 1, by omega⟩
    cases hv with
    | @array r s hr =>
      obtain ⟨hlt, hlt'⟩ := hm.array_lt hr
      unfold escapeWithin
      dsimp only
      by_cases hmem : r ∈ opn
      · rw [if_pos hmem, if_pos ((hm.mem_iff ho hr).1 hmem)]
        exact ⟨_, rfl, rfl⟩
      · have hmem' : s ∉ opn' := fun hs => hmem ((hm.mem_iff ho hr).2 hs)
        have hc : w.heap.closedArrays (r :: opn) < n := by
          have := Heap.closedArrays_cons_lt hlt hmem
          omega
        have hc' : w'.heap.closedArrays (s :: opn') < n' := by
          have := Heap.closedArrays_cons_lt hlt' hmem'
          omega
        have each : ∀ {us us' : List Value}, List.Forall₂ (Value.Alike m) us us' →
            ∃ ts, writeEach (escapeWithin rt n (r :: opn) true) us w = (.ok ts, w) ∧
              writeEach (escapeWithin rt' n' (s :: opn') true) us' w' = (.ok ts, w') := by
          intro us us' hu
          induction hu with
          | nil => exact ⟨[], rfl, rfl⟩
          | cons hu _ ihu =>
            obtain ⟨t, ht, ht'⟩ := ih (.cons hr ho) hc hc' true hu
            obtain ⟨ts, hts, hts'⟩ := ihu
            exact ⟨t :: ts, by simp only [writeEach, ht, hts], by simp only [writeEach, ht', hts']⟩
        obtain ⟨ts, hts, hts'⟩ := each (hm.items hr)
        rw [if_neg hmem, if_neg hmem', hts, hts']
        exact ⟨_, rfl, rfl⟩
    | _ => exact ⟨_, rfl, rfl⟩

theorem escapeHtml_alike {rt rt' : Runtime σ} (hm : World.Alike m w w') (escape : Bool)
    (hv : Value.Alike m v v') :
    ∃ t, escapeHtml rt v escape w = (.ok t, w) ∧ escapeHtml rt' v' escape w' = (.ok t, w') := by
  have h := w.heap.closedArrays_le []
  have h' := w'.heap.closedArrays_le []
  exact escapeWithin_alike hm .nil (by omega) (by omega) escape hv

end Escape

/-! ### Expressions -/

/-- Environments with fields that are alike, the same bound on loops, and the same way of writing
values that are alike. -/
structure Env.Alike (m : Matching) (env env' : Env σ) : Prop where
  fields : ∀ name,
    Option.Rel (Value.Alike m) (Entries.get? name env.fields) (Entries.get? name env'.fields)
  limit : env.options.maxLoopIterations = env'.options.maxLoopIterations
  write : ∀ {m₁ v v' w w'} (escape : Bool), m ≤ m₁ → World.Alike m₁ w w' → Value.Alike m₁ v v' →
    ∃ m₂, m₁ ≤ m₂ ∧ World.Alike m₂ (env.options.escape env.runtime v escape w).2
        (env'.options.escape env'.runtime v' escape w').2 ∧
      (env.options.escape env.runtime v escape w).1 =
        (env'.options.escape env'.runtime v' escape w').1

theorem Env.Alike.mono {m m' : Matching} {env env' : Env σ} (hm : m ≤ m')
    (h : Env.Alike m env env') :
    Env.Alike m' env env' :=
  ⟨fun name => Value.Alike.rel_mono hm (h.fields name), h.limit,
    fun escape hm' => h.write escape (hm.trans hm')⟩

/-- Evaluations that are alike. -/
abbrev Evaluation.Alike {α : Type} (R : Matching → α → α → Prop) (m : Matching)
    (r r' : Evaluation σ α) : Prop :=
  Run.Alike World.Alike R m r r'

/-- Lists of values that are alike. -/
abbrev Values.Alike (m : Matching) : List Value → List Value → Prop := List.Forall₂ (Value.Alike m)

section Expr

variable {m : Matching} {env env' : Env σ} {scope scope' : Scope}

theorem newArray_alike {vs vs' : List Value} (hv : Values.Alike m vs vs') :
    Evaluation.Alike Value.Alike m (newArray vs : Evaluation σ Value) (newArray vs') := by
  intro m₁ w w' hm hw
  exact ⟨_, m₁.le_addArray _ _, Matching.Holds.newArray hw (Value.Alike.forall₂_mono hm hv),
    .ok (.array (Or.inr ⟨rfl, rfl⟩))⟩

theorem readProperty_alike {v v' : Value} (hv : Value.Alike m v v') (key : String) :
    Evaluation.Alike Value.Alike m (readProperty v key : Evaluation σ Value)
    (readProperty v' key) := by
  intro m₁ w w' hm hw
  have h := hw.property (hv.mono hm) key
  refine ⟨m₁, le_rfl, hw, ?_⟩
  unfold readProperty
  generalize property w.heap v key = x at h ⊢
  generalize property w'.heap v' key = x' at h ⊢
  cases h with
  | ok hu => exact .ok hu
  | error e => exact .error e

theorem readHeap_alike : Evaluation.Alike (fun m₁ h h' => m₁.Holds h h') m
    (Run.read World.heap : Evaluation σ Heap) (Run.read World.heap) :=
  Run.Alike.read fun _ _ _ _ hw => hw

mutual

theorem Expr.eval_alike (hE : Env.Alike m env env') (hs : Scope.Alike m scope scope') :
    (e : Expr) → Evaluation.Alike Value.Alike m (e.eval env scope) (e.eval env' scope')
  | .literal l => by
    rw [Expr.eval, Expr.eval]
    exact Run.Alike.pure fun _ _ => by cases l <;> constructor
  | .ident name => by
    rw [Expr.eval, Expr.eval]
    rcases rel_cases (hs.lookup? hE.fields name) with ⟨hl, hl'⟩ | ⟨v, v', hl, hl', hv⟩
    · rw [hl, hl']
      exact Run.Alike.fail _
    · rw [hl, hl']
      exact Run.Alike.pure fun _ hm => hv.mono hm
  | .array items => by
    rw [Expr.eval, Expr.eval]
    exact (Expr.evalAll_alike hE hs items).bind fun _ _ _ _ hv => newArray_alike hv
  | .member object name => by
    rw [Expr.eval, Expr.eval]
    exact (Expr.eval_alike hE hs object).bind fun _ _ _ _ hv => readProperty_alike hv name
  | .index object key => by
    rw [Expr.eval, Expr.eval]
    refine (Expr.eval_alike hE hs object).bind fun m₁ hm₁ v v' hv =>
      ((Expr.eval_alike hE hs key).mono hm₁).bind fun m₂ hm₂ k k' hk =>
        readHeap_alike.bind fun m₃ hm₃ h h' hh => ?_
    rw [hh.text_eq (hk.mono hm₃)]
    exact readProperty_alike (hv.mono (hm₂.trans hm₃)) _
  | .call callee args => by
    rw [Expr.eval, Expr.eval]
    -- There is no function to call, since no value that is alike to another one is a function.
    refine (Expr.eval_alike hE hs callee).bind fun _ _ v v' hv => ?_
    cases hv <;> exact Run.Alike.fail _
  | .unary op operand => by
    rw [Expr.eval, Expr.eval]
    refine (Expr.eval_alike hE hs operand).bind fun m₁ _ v v' hv =>
      readHeap_alike.bind fun m₂ hm₂ h h' hh => ?_
    rw [hh.unaryOp_eq op (hv.mono hm₂)]
    exact Run.Alike.pure fun _ _ => .of_isPrimitive (by cases op <;> rfl)
  | .binary op lhs rhs => by
    rw [Expr.eval, Expr.eval]
    refine (Expr.eval_alike hE hs lhs).bind fun m₁ hm₁ a a' ha =>
      ((Expr.eval_alike hE hs rhs).mono hm₁).bind fun m₂ hm₂ b b' hb =>
        readHeap_alike.bind fun m₃ hm₃ h h' hh => ?_
    rw [hh.binaryOp_eq op (ha.mono (hm₂.trans hm₃)) (hb.mono hm₃)]
    exact Run.Alike.pure fun _ _ => .of_isPrimitive (op.isPrimitive_apply h' a' b')
  | .logical op lhs rhs => by
    rw [Expr.eval, Expr.eval]
    refine (Expr.eval_alike hE hs lhs).bind fun m₁ hm₁ a a' ha => ?_
    rw [ha.truthy_eq]
    split_ifs
    · exact Run.Alike.pure fun _ hm => ha.mono hm
    · exact (Expr.eval_alike hE hs rhs).mono hm₁
  | .conditional test yes no => by
    rw [Expr.eval, Expr.eval]
    refine (Expr.eval_alike hE hs test).bind fun m₁ hm₁ t t' ht => ?_
    rw [ht.truthy_eq]
    split_ifs
    · exact (Expr.eval_alike hE hs yes).mono hm₁
    · exact (Expr.eval_alike hE hs no).mono hm₁

theorem Expr.evalAll_alike (hE : Env.Alike m env env') (hs : Scope.Alike m scope scope') :
    (es : List Expr) →
      Evaluation.Alike Values.Alike m (Expr.evalAll env scope es) (Expr.evalAll env' scope' es)
  | [] => by
    rw [Expr.evalAll, Expr.evalAll]
    exact Run.Alike.pure fun _ _ => .nil
  | e :: es => by
    rw [Expr.evalAll, Expr.evalAll]
    exact (Expr.eval_alike hE hs e).bind fun m₁ hm₁ v v' hv =>
      ((Expr.evalAll_alike hE hs es).mono hm₁).bind fun m₂ hm₂ vs vs' hvs =>
        Run.Alike.pure fun _ hm => .cons (hv.mono (hm₂.trans hm)) (Value.Alike.forall₂_mono hm hvs)

end

end Expr

/-! ### Templates -/

/-- Renderings in worlds and scopes that are alike. -/
structure Rendering.Alike (m : Matching) (s s' : Rendering σ) : Prop where
  world : World.Alike m s.world s'.world
  scope : Scope.Alike m s.scope s'.scope

/-- Runs that render alike. -/
abbrev Render.Alike {α : Type} (R : Matching → α → α → Prop) (m : Matching)
    (r r' : Render σ α) : Prop :=
  Run.Alike Rendering.Alike R m r r'

/-- Results that are the same. -/
abbrev Same {α : Type} (_ : Matching) (a a' : α) : Prop := a = a'

section Render

variable {m : Matching} {env env' : Env σ}

theorem withFrame_alike {r r' : Render σ String} {f f' : Frame} (hf : Frame.Alike m f f')
    (hr : Render.Alike Same m r r') : Render.Alike Same m (withFrame f r) (withFrame f' r') := by
  intro m₁ s s' hm hs
  have hsc : Scope.Alike m₁ (s.scope.enter f) (s'.scope.enter f') :=
    ⟨.cons (hf.mono hm) hs.scope.inner, hs.scope.outer⟩
  obtain ⟨m₂, hm₂, ht, ho⟩ :=
    hr hm (⟨hs.world, hsc⟩ : Rendering.Alike m₁ { s with scope := s.scope.enter f }
    { s' with scope := s'.scope.enter f' })
  have hi := List.forall₂_drop 1 ht.scope.inner
  rw [List.drop_one, List.drop_one] at hi
  exact ⟨m₂, hm₂, ⟨ht.world, hi, ht.scope.outer⟩, ho⟩

theorem evalIn_alike (hE : Env.Alike m env env') (e : Expr) :
    Render.Alike Value.Alike m (evalIn env e) (evalIn env' e) := by
  intro m₁ s s' hm hs
  obtain ⟨m₂, hm₂, hw, ho⟩ := Expr.eval_alike (hE.mono hm) hs.scope e le_rfl hs.world
  exact ⟨m₂, hm₂, ⟨hw, hs.scope.mono hm₂⟩, ho⟩

theorem write_alike (hE : Env.Alike m env env') {v v' : Value} (hv : Value.Alike m v v')
    (escape : Bool) :
    Render.Alike Same m (write env v escape) (write env' v' escape) := by
  intro m₁ s s' hm hs
  obtain ⟨m₂, hm₂, hw, ht⟩ := hE.write escape hm hs.world (hv.mono hm)
  refine ⟨m₂, hm₂, ⟨hw, hs.scope.mono hm₂⟩, ?_⟩
  unfold write
  dsimp only
  rw [ht]
  cases (env'.options.escape env'.runtime v' escape s'.world).1 with
  | error why => exact .stopped why
  | ok t => exact .ok rfl

theorem changeScope_alike {f f' : Scope → Except TemplateError Scope}
    (hf : ∀ {m₁ sc sc'}, m ≤ m₁ → Scope.Alike m₁ sc sc' →
      (∃ e, f sc = .error e ∧ f' sc' = .error e) ∨
        ∃ t t', f sc = .ok t ∧ f' sc' = .ok t' ∧ Scope.Alike m₁ t t') :
    Render.Alike Same m (changeScope f : Render σ Unit) (changeScope f') := by
  intro m₁ s s' hm hs
  refine ⟨m₁, le_rfl, ?_⟩
  unfold changeScope
  rcases hf hm hs.scope with ⟨e, he, he'⟩ | ⟨t, t', ht, ht', hsc⟩
  · rw [he, he']
    exact ⟨hs, .error e⟩
  · rw [ht, ht']
    exact ⟨⟨hs.world, hsc⟩, .ok rfl⟩

theorem assignName_alike (hE : Env.Alike m env env') (name : String) {v v' : Value}
    (hv : Value.Alike m v v') :
    Render.Alike Same m (assignName env name v) (assignName env' name v') := by
  refine changeScope_alike fun hm hsc => ?_
  have h := hsc.assign? (hE.mono hm).fields name (hv.mono hm)
  generalize Scope.assign? _ _ _ _ = o at h ⊢
  generalize Scope.assign? _ _ _ _ = o' at h ⊢
  cases h with
  | none => exact Or.inl ⟨_, rfl, rfl⟩
  | some hs => exact Or.inr ⟨_, _, rfl, rfl, hs⟩

theorem lookupName_alike (hE : Env.Alike m env env') (name : String) :
    Render.Alike Value.Alike m (lookupName env name) (lookupName env' name) := by
  intro m₁ s s' hm hs
  have h := hs.scope.lookup? (hE.mono hm).fields name
  refine ⟨m₁, le_rfl, ?_⟩
  unfold lookupName
  generalize Scope.lookup? _ _ _ = o at h ⊢
  generalize Scope.lookup? _ _ _ = o' at h ⊢
  cases h with
  | none => exact ⟨hs, .error _⟩
  | some hv => exact ⟨hs, .ok hv⟩

theorem readWorldHeap_alike : Render.Alike (fun m₁ h h' => m₁.Holds h h') m
    (Run.read fun s : Rendering σ => s.world.heap) (Run.read fun s => s.world.heap) :=
  Run.Alike.read fun _ _ _ _ hs => hs.world

theorem Stmt.exec_alike (hE : Env.Alike m env env') (s : Stmt) :
    Render.Alike Same m (s.exec env) (s.exec env') := by
  cases s with
  | declare name init =>
    refine (evalIn_alike hE init).bind fun m₁ hm₁ v v' hv => changeScope_alike fun hm hsc => ?_
    exact Or.inr ⟨_, _, rfl, rfl, hsc.declare name (hv.mono hm)⟩
  | assign name op rhs =>
    refine (evalIn_alike hE rhs).bind fun m₁ hm₁ v v' hv => ?_
    cases op.operator? with
    | none => exact assignName_alike (hE.mono hm₁) name hv
    | some o =>
      refine (lookupName_alike (hE.mono hm₁) name).bind fun m₂ hm₂ u u' hu =>
        readWorldHeap_alike.bind fun m₃ hm₃ h h' hh => ?_
      rw [hh.binaryOp_eq o (hu.mono hm₃) (hv.mono (hm₂.trans hm₃))]
      exact assignName_alike (hE.mono (hm₁.trans (hm₂.trans hm₃))) name
        (.of_isPrimitive (o.isPrimitive_apply h' u' v'))
  | step name direction =>
    refine (lookupName_alike hE name).bind fun m₁ hm₁ u u' hu =>
      readWorldHeap_alike.bind fun m₂ hm₂ h h' hh => ?_
    rw [hh.toNumber_eq (hu.mono hm₂)]
    exact assignName_alike (hE.mono (hm₁.trans hm₂)) name (.number _)
  | expr e => exact (evalIn_alike hE e).bind fun _ _ _ _ _ => Run.Alike.pure fun _ _ => rfl

theorem execOptional_alike (hE : Env.Alike m env env') (s : Option Stmt) :
    Render.Alike Same m (execOptional env s) (execOptional env' s) := by
  cases s with
  | none => exact Run.Alike.pure fun _ _ => rfl
  | some s => exact s.exec_alike hE

theorem testOptional_alike (hE : Env.Alike m env env') (e : Option Expr) :
    Render.Alike Same m (testOptional env e) (testOptional env' e) := by
  cases e with
  | none => exact Run.Alike.pure fun _ _ => rfl
  | some e =>
    exact (evalIn_alike hE e).bind fun _ _ _ _ hv => Run.Alike.pure fun _ _ => hv.truthy_eq

theorem repeatBody_alike {limit : Nat} {test test' : Render σ Bool} {body body' : Render σ String}
    {step step' : Render σ Unit} (ht : Render.Alike Same m test test')
    (hb : Render.Alike Same m body body') (hs : Render.Alike Same m step step') (n : Nat)
    (out : String) :
    Render.Alike Same m (repeatBody limit test body step n out)
      (repeatBody limit test' body' step' n out) := by
  induction n generalizing out with
  | zero =>
    refine ht.bind fun _ _ t t' (h : t = t') => ?_
    subst h
    split_ifs
    · exact Run.Alike.fail _
    · exact Run.Alike.pure fun _ _ => rfl
  | succ n ih =>
    refine ht.bind fun m₁ hm₁ t t' (h : t = t') => ?_
    subst h
    split_ifs
    · refine (hb.mono hm₁).bind fun m₂ hm₂ text text' (h : text = text') =>
        (hs.mono (hm₁.trans hm₂)).bind fun m₃ hm₃ _ _ _ => ?_
      subst h
      exact (ih _).mono (hm₁.trans (hm₂.trans hm₃))
    · exact Run.Alike.pure fun _ _ => rfl

theorem renderLoop_alike (hE : Env.Alike m env env') (header : LoopHeader)
    {body body' : Render σ String} (hb : Render.Alike Same m body body') :
    Render.Alike Same m (renderLoop env header body) (renderLoop env' header body') := by
  refine (execOptional_alike hE header.init).bind fun m₁ hm₁ _ _ _ => ?_
  rw [← hE.limit]
  exact repeatBody_alike (testOptional_alike (hE.mono hm₁) header.test) (hb.mono hm₁)
    (execOptional_alike (hE.mono hm₁) header.step) _ ""

theorem zip_alike (names : List String) {vs vs' : List Value} (hv : Values.Alike m vs vs') :
    Frame.Alike m (names.zip vs) (names.zip vs') := by
  induction hv generalizing names with
  | nil =>
    rw [List.zip_nil_right]
    exact .nil
  | cons hv _ ih =>
    cases names with
    | nil => exact .nil
    | cons name names => exact .cons ⟨rfl, hv⟩ (ih names)

theorem eachFrame_alike (names : List String) {item item' collection collection' : Value}
    (hi : Value.Alike m item item') (index : Nat) (hc : Value.Alike m collection collection') :
    Frame.Alike m (eachFrame names item index collection)
    (eachFrame names item' index collection') :=
  List.forall₂_reverse_iff.2 (zip_alike names (.cons hi (.cons (.number _) (.cons hc .nil))))

theorem renderItems_alike (names : List String) {collection collection' : Value}
    (hc : Value.Alike m collection collection') {body body' : Render σ String}
    (hb : Render.Alike Same m body body') {items items' : List Value}
    (hi : Values.Alike m items items') (index : Nat) (out : String) :
    Render.Alike Same m (renderItems names collection body items index out)
      (renderItems names collection' body' items' index out) := by
  induction hi generalizing index out with
  | nil => exact Run.Alike.pure fun _ _ => rfl
  | cons hv _ ih =>
    refine (withFrame_alike (eachFrame_alike names hv index hc) hb).bind fun m₁ hm₁ t t'
      (h : t = t') => ?_
    subst h
    exact (ih _ _).mono hm₁

theorem iterated_alike (collection : Expr) {v v' : Value} (hv : Value.Alike m v v') :
    Render.Alike Values.Alike m (iterated collection v : Render σ (List Value))
    (iterated collection v') := by
  cases hv with
  | array hr => exact Run.Alike.read fun _ _ _ hm hs => hs.world.items (hm.1 _ _ hr)
  | _ => exact Run.Alike.fail _

mutual

theorem Segment.render_alike (hE : Env.Alike m env env') :
    (s : Segment) → Render.Alike Same m (s.render env) (s.render env')
  | .text t => by
    rw [Segment.render, Segment.render]
    exact Run.Alike.pure fun _ _ => rfl
  | .escaped e => by
    rw [Segment.render, Segment.render]
    exact (evalIn_alike hE e).bind fun _ hm _ _ hv => write_alike (hE.mono hm) hv true
  | .raw e => by
    rw [Segment.render, Segment.render]
    exact (evalIn_alike hE e).bind fun _ hm _ _ hv => write_alike (hE.mono hm) hv false
  | .conditional test body more => by
    rw [Segment.render, Segment.render]
    refine (evalIn_alike hE test).bind fun m₁ hm₁ v v' hv => ?_
    rw [hv.truthy_eq]
    split_ifs
    · exact (renderAll_alike hE body "").mono hm₁
    · exact (Alternatives.render_alike hE more).mono hm₁
  | .loop header body => by
    rw [Segment.render, Segment.render]
    exact withFrame_alike .nil (renderLoop_alike hE header (renderAll_alike hE body ""))
  | .each collection names body => by
    rw [Segment.render, Segment.render]
    refine (evalIn_alike hE collection).bind fun m₁ hm₁ v v' hv =>
      (iterated_alike collection hv).bind fun m₂ hm₂ items items' hi => ?_
    exact renderItems_alike names (hv.mono hm₂) ((renderAll_alike hE body "").mono
      (hm₁.trans hm₂)) hi 0 ""

theorem Alternatives.render_alike (hE : Env.Alike m env env') :
    (a : Alternatives) → Render.Alike Same m (a.render env) (a.render env')
  | .done => by
    rw [Alternatives.render, Alternatives.render]
    exact Run.Alike.pure fun _ _ => rfl
  | .otherwise body => by
    rw [Alternatives.render, Alternatives.render]
    exact renderAll_alike hE body ""
  | .elseIf test body more => by
    rw [Alternatives.render, Alternatives.render]
    refine (evalIn_alike hE test).bind fun m₁ hm₁ v v' hv => ?_
    rw [hv.truthy_eq]
    split_ifs
    · exact (renderAll_alike hE body "").mono hm₁
    · exact (Alternatives.render_alike hE more).mono hm₁

theorem renderAll_alike (hE : Env.Alike m env env') : (ss : List Segment) → (out : String) →
    Render.Alike Same m (renderAll env ss out) (renderAll env' ss out)
  | [], out => by
    rw [renderAll, renderAll]
    exact Run.Alike.pure fun _ _ => rfl
  | s :: ss, out => by
    rw [renderAll, renderAll]
    refine (Segment.render_alike hE s).bind fun m₁ hm₁ t t' (h : t = t') => ?_
    subst h
    exact (renderAll_alike hE ss _).mono hm₁

end

/-- Rendering a template against fields that are alike gives the same text or the same error. -/
theorem Template.render_alike (hE : Env.Alike m env env') (t : Template) {w w' : World σ}
    (hw : World.Alike m w w') : (t.render env w).1 = (t.render env' w').1 := by
  obtain ⟨m₂, -, -, ho⟩ := renderAll_alike hE t.segments "" le_rfl
    (⟨hw, .nil, .nil⟩ : Rendering.Alike m ⟨w, .empty⟩ ⟨w', .empty⟩)
  unfold Template.render
  dsimp only
  generalize (renderAll env t.segments "" ⟨w, .empty⟩).1 = o at ho ⊢
  generalize (renderAll env' t.segments "" ⟨w', .empty⟩).1 = o' at ho ⊢
  cases ho with
  | ok h => rw [h]
  | error e => rfl
  | stopped why => rfl

end Render

end LiveMarkup
