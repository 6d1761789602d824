import LiveMarkup.Proofs.Eval.Effect
import LiveMarkup.Proofs.Eval.Frames

/-!
# The scope before and after

Rendering opens and closes a frame for each loop and for each item, and it may end anywhere in
between.  In every case it leaves the scope as it found it, but for new bindings of fields in the
outermost frame and for the values of names that were assigned to (`renderAll_scope`).
`Segment.assigned` lists the names whose values a segment may change: a block takes out the names
that it binds itself, because within the block an assignment to such a name finds the binding of the
block.
-/

namespace LiveMarkup

/-! ### Names that are declared and assigned to -/

/-- The names that a statement binds. -/
def Stmt.declared : Stmt → List String
  | .declare name _ => [name]
  | _ => []

/-- The names that a statement gives new values to. -/
def Stmt.assigned : Stmt → List String
  | .assign name _ _ => [name]
  | .step name _ => [name]
  | _ => []

/-- The names that a loop binds before its first round. -/
def LoopHeader.declared (h : LoopHeader) : List String := (h.init.map Stmt.declared).getD []

/-- The names that the header of a loop gives new values to. -/
def LoopHeader.assigned (h : LoopHeader) : List String :=
  (h.init.map Stmt.assigned).getD [] ++ (h.step.map Stmt.assigned).getD []

/-- The names that an each-block binds in each round: at most one for the item, the index and the
collection. -/
def eachNames (names : List String) : List String := names.take 3

mutual

/-- The names around a segment to which it may give new values. -/
def Segment.assigned : Segment → List String
  | .text _ => []
  | .escaped _ => []
  | .raw _ => []
  | .conditional _ body more => Segment.assignedAll body ++ more.assigned
  | .loop header body => (header.assigned ++ Segment.assignedAll body).filter (· ∉ header.declared)
  | .each _ names body => (Segment.assignedAll body).filter (· ∉ eachNames names)

/-- The names around a conditional to which its further branches may give new values. -/
def Alternatives.assigned : Alternatives → List String
  | .done => []
  | .otherwise body => Segment.assignedAll body
  | .elseIf _ body more => Segment.assignedAll body ++ more.assigned

/-- The names to which several segments may give new values. -/
def Segment.assignedAll : List Segment → List String
  | [] => []
  | s :: ss => s.assigned ++ Segment.assignedAll ss

end

theorem names_eachFrame (names : List String) (item : Value) (index : Nat) (collection : Value) :
    (eachFrame names item index collection).names = (eachNames names).reverse := by
  unfold eachFrame Frame.names eachNames
  rw [List.map_reverse]
  rcases names with _ | ⟨a, _ | ⟨b, _ | ⟨c, rest⟩⟩⟩ <;> simp

/-! ### Effects on the scope -/

namespace Scope

/-- Keeping the frames. -/
def keeping (fields : Entries Value) (X : List String) : Effect Scope where
  rel := Kept fields X
  refl := .refl X
  trans := .trans

/-- Keeping the frames around a block whose frame binds the names `D`. -/
def keepingAround (fields : Entries Value) (D X : List String) : Effect Scope where
  rel s t := Binds D s → Binds D t ∧ Kept fields (X.filter (· ∉ D)) s.leave t.leave
  refl _ hs := ⟨hs, .refl _ _⟩
  trans h h' hs := ⟨(h' (h hs).1).1, (h hs).2.trans (h' (h hs).1).2⟩

end Scope

/-- An effect on the scope of a rendering. -/
def Effect.onScope {σ : Type} (E : Effect Scope) : Effect (Rendering σ) where
  rel s t := E.rel s.scope t.scope
  refl s := E.refl s.scope
  trans := E.trans

section Render

variable {σ : Type} {env : Env σ} {E : Effect Scope}

theorem evalIn_within (e : Expr) : (evalIn env e).Within E.onScope := fun s => E.refl s.scope

theorem write_within (v : Value) (escape : Bool) : (write env v escape).Within E.onScope :=
  fun s => E.refl s.scope

theorem iterated_within (collection : Expr) (v : Value) :
    (iterated collection v : Render σ (List Value)).Within E.onScope := by
  cases v <;> exact fun s => E.refl s.scope

theorem lookupName_within (name : String) : (lookupName env name).Within E.onScope := by
  intro s
  unfold lookupName
  split <;> exact E.refl s.scope

theorem changeScope_within {f : Scope → Except TemplateError Scope}
    (hf : ∀ s t, f s = .ok t → E.rel s t) :
    (changeScope f : Render σ Unit).Within E.onScope := by
  intro s
  unfold changeScope
  split
  · rename_i t ht
    exact hf _ t ht
  · exact E.refl s.scope

theorem assignName_within {name : String}
    (h : ∀ v s t, s.assign? env.fields name v = some t → E.rel s t) (v : Value) :
    (assignName env name v).Within E.onScope := by
  refine changeScope_within fun s t hst => ?_
  split at hst
  · rename_i u hu
    cases hst
    exact h v s _ hu
  · cases hst

/-- A statement changes the scope by declaring and by assigning alone. -/
theorem Stmt.exec_within {st : Stmt} (hd : ∀ name ∈ st.declared, ∀ v s, E.rel s (s.declare name v))
    (ha : ∀ name ∈ st.assigned, ∀ v s t, s.assign? env.fields name v = some t → E.rel s t) :
    (st.exec env).Within E.onScope := by
  cases st with
  | declare name init =>
    refine (evalIn_within init).bind fun v => changeScope_within fun s t hst => ?_
    cases hst
    exact hd name (List.mem_singleton_self name) v s
  | assign name op rhs =>
    have hassign := assignName_within (σ := σ) (ha name (List.mem_singleton_self name))
    refine (evalIn_within rhs).bind fun v => ?_
    split
    · exact hassign v
    · exact (lookupName_within name).bind fun _ => (Run.within_read _).bind fun _ => hassign _
  | step name direction =>
    have hassign := assignName_within (σ := σ) (ha name (List.mem_singleton_self name))
    exact (lookupName_within name).bind fun _ => (Run.within_read _).bind fun _ => hassign _
  | expr e => exact (evalIn_within e).bind fun _ => Run.within_pure _

theorem testOptional_within (e : Option Expr) : (testOptional env e).Within E.onScope := by
  cases e with
  | none => exact Run.within_pure _
  | some e => exact (evalIn_within e).bind fun _ => Run.within_pure _

theorem repeatBody_within {F : Effect (Rendering σ)} {limit : Nat} {test : Render σ Bool}
    {body : Render σ String} {step : Render σ Unit} (ht : test.Within F) (hb : body.Within F)
    (hs : step.Within F) (n : Nat) (out : String) :
    (repeatBody limit test body step n out).Within F := by
  induction n generalizing out with
  | zero =>
    refine ht.bind fun t => ?_
    split
    · exact Run.within_ofOutcome _
    · exact Run.within_pure _
  | succ n ih =>
    refine ht.bind fun t => ?_
    split
    · exact hb.bind fun text => hs.bind fun _ => ih _
    · exact Run.within_pure _

/-! ### Blocks -/

section Blocks

open Scope

variable {fields : Entries Value} {X Y D : List String}

variable {α : Type} {r : Render σ α}

theorem Run.Within.weaken (hr : r.Within (keeping fields X).onScope) (hXY : X ⊆ Y) :
    r.Within (keeping fields Y).onScope :=
  fun s => Kept.mono (hr s) hXY

/-- What keeps the frames inside a block keeps the frames around it. -/
theorem Run.Within.around (hr : r.Within (keeping fields X).onScope) :
    r.Within (keepingAround fields D X).onScope :=
  fun s hs => Kept.leave (hr s) hs

theorem withFrame_within {f : Frame}
    (hr : r.Within (keepingAround fields f.names X).onScope) :
    (withFrame f r).Within (keeping fields (X.filter (· ∉ f.names))).onScope :=
  fun s => (hr { s with scope := s.scope.enter f } (opens_enter s.scope fun _ => Iff.rfl).binds).2

/-- Inside a block a statement declares in the frame of the block. -/
theorem Stmt.exec_within_around {st : Stmt} (hX : st.assigned ⊆ X) :
    (st.exec env).Within (keepingAround env.fields D X).onScope := by
  refine exec_within (fun name _ v s hs => ?_) fun name hname v s t hst hs => ?_
  · obtain ⟨hbinds, hleave⟩ := hs.declare name v
    rw [hleave]
    exact ⟨hbinds.mono (List.subset_cons_self _ _), .refl _ _⟩
  · refine ((assign?_kept hst).mono fun n hn => hX ?_).leave hs
    rwa [List.mem_singleton.1 hn]

/-- A statement adds the names that it declares to the frame of the block. -/
theorem Stmt.exec_opens {st : Stmt} {s t : Rendering σ} (h : st.exec env s = (.ok (), t))
    (hs : Opens D s.scope) :
    Opens (st.declared ++ D) t.scope := by
  have hkept (hd : st.declared = []) : Opens D t.scope := by
    have hw : (st.exec env).Within (keeping env.fields st.assigned).onScope := by
      refine exec_within (fun name hname => ?_) fun name hname v s t hst => ?_
      · rw [hd] at hname
        exact absurd hname List.not_mem_nil
      · exact (assign?_kept hst).mono (List.cons_subset.2 ⟨hname, List.nil_subset _⟩)
    have hst := hw s
    rw [h] at hst
    exact Kept.opens hst hs
  cases st with
  | declare name init =>
    obtain ⟨v, u, hu, ht⟩ := Run.bind_eq_ok_iff.1 h
    have hscope : u.scope = s.scope := (congrArg (fun p => p.2.scope) hu).symm
    cases ht
    rw [← hscope] at hs
    exact hs.declare name v
  | assign _ _ _ | step _ _ | expr _ => exact hkept rfl

theorem execOptional_within_around {st : Option Stmt} (hX : (st.map Stmt.assigned).getD [] ⊆ X) :
    (execOptional env st).Within (keepingAround env.fields D X).onScope := by
  cases st with
  | none => exact Run.within_pure _
  | some st => exact Stmt.exec_within_around hX

theorem execOptional_opens {st : Option Stmt} {s t : Rendering σ}
    (h : execOptional env st s = (.ok (), t)) (hs : Opens D s.scope) :
    Opens ((st.map Stmt.declared).getD [] ++ D) t.scope := by
  cases st with
  | none =>
    cases h
    exact hs
  | some st => exact Stmt.exec_opens h hs

/-- A statement that assigns declares nothing. -/
theorem LoopHeader.not_mem_declared {h : LoopHeader} {name : String}
    (hname : name ∈ (h.init.map Stmt.assigned).getD []) : name ∉ h.declared := by
  unfold declared
  rcases hinit : h.init with _ | (_ | _ | _ | _) <;> rw [hinit] at hname <;>
    simp [Stmt.assigned, Stmt.declared] at hname ⊢

/-- Up to the first round the frame of a loop binds nothing yet, but then the header assigns or
declares, not both. -/
theorem LoopHeader.init_kept (env : Env σ) (header : LoopHeader) (s : Rendering σ) :
    Kept env.fields (header.assigned.filter (· ∉ header.declared)) s.scope
      (execOptional env header.init { s with scope := s.scope.enter [] }).2.scope.leave := by
  have hopens : Opens [] (s.scope.enter []) := opens_enter s.scope fun _ => Iff.rfl
  refine (execOptional_within_around (D := []) (List.Subset.refl _) { s with scope := _ }
    hopens.binds).2.mono ?_
  intro n hn
  have hmem := (List.mem_filter.1 hn).1
  exact List.mem_filter.2 ⟨List.mem_append_left _ hmem,
    decide_eq_true (LoopHeader.not_mem_declared hmem)⟩

/-- In the rounds of a loop its header keeps what is around the block. -/
theorem LoopHeader.step_within (env : Env σ) (header : LoopHeader) (X : List String) :
    (execOptional env header.step).Within
      (keepingAround env.fields header.declared (header.assigned ++ X)).onScope :=
  execOptional_within_around fun _ hn => List.mem_append_left _ (List.mem_append_right _ hn)

/-- A loop keeps the frames around it, and the values of the names that it binds before its first
round. -/
theorem withFrame_renderLoop_within (header : LoopHeader) {body : Render σ String}
    (hb : body.Within (keeping env.fields X).onScope) :
    (withFrame [] (renderLoop env header body)).Within
      (keeping env.fields ((header.assigned ++ X).filter (· ∉ header.declared))).onScope := by
  intro s
  set s₀ : Rendering σ := { s with scope := s.scope.enter [] } with hs₀
  have hopens : Opens [] s₀.scope := opens_enter s.scope fun _ => Iff.rfl
  have hinit : Kept env.fields ((header.assigned ++ X).filter (· ∉ header.declared)) s.scope
      ((execOptional env header.init s₀).2.scope.leave) :=
    (header.init_kept env s).mono (List.filter_subset _ (List.subset_append_left _ _))
  have hrounds : (repeatBody env.options.maxLoopIterations (testOptional env header.test) body
      (execOptional env header.step) env.options.maxLoopIterations "").Within
      (keepingAround env.fields header.declared (header.assigned ++ X)).onScope :=
    repeatBody_within (testOptional_within _) (hb.weaken (List.subset_append_right _ _)).around
      (header.step_within env X) _ _
  show Kept env.fields _ s.scope (renderLoop env header body s₀).2.scope.leave
  unfold renderLoop
  rcases hrun : execOptional env header.init s₀ with ⟨_ | _ | _, t⟩ <;> rw [hrun] at hinit
  · rw [Run.bind_eq_of_ok hrun]
    have hbinds := (execOptional_opens hrun hopens).binds
    rw [List.append_nil] at hbinds
    exact hinit.trans (hrounds t hbinds).2
  · rwa [Run.bind_eq_of_error hrun]
  · rwa [Run.bind_eq_of_stopped hrun]

theorem renderItems_within (names : List String) (collection : Value) {body : Render σ String}
    (hb : body.Within (keeping fields X).onScope) (items : List Value) (index : Nat)
    (out : String) :
    (renderItems names collection body items index out).Within
      (keeping fields (X.filter (· ∉ eachNames names))).onScope := by
  induction items generalizing index out with
  | nil => exact Run.within_pure _
  | cons item items ih =>
    have hframe := withFrame_within (f := eachFrame names item index collection) (σ := σ) hb.around
    simp only [names_eachFrame, List.mem_reverse] at hframe
    exact hframe.bind fun text => ih _ _

end Blocks

/-! ### Segments -/

section Segments

open Scope

mutual

theorem Segment.render_within :
    (s : Segment) → (s.render env).Within (keeping env.fields s.assigned).onScope
  | .text t => by
    rw [Segment.render]
    exact Run.within_pure _
  | .escaped e => by
    rw [Segment.render]
    exact (evalIn_within e).bind fun v => write_within v true
  | .raw e => by
    rw [Segment.render]
    exact (evalIn_within e).bind fun v => write_within v false
  | .conditional test body more => by
    rw [Segment.render, Segment.assigned]
    refine (evalIn_within test).bind fun v => ?_
    split
    · exact (renderAll_within body "").weaken (List.subset_append_left _ _)
    · exact (Alternatives.render_within more).weaken (List.subset_append_right _ _)
  | .loop header body => by
    rw [Segment.render, Segment.assigned]
    exact withFrame_renderLoop_within header (renderAll_within body "")
  | .each collection names body => by
    rw [Segment.render, Segment.assigned]
    exact (evalIn_within collection).bind fun v => (iterated_within collection v).bind fun items =>
      renderItems_within names v (renderAll_within body "") items 0 ""

theorem Alternatives.render_within : (a : Alternatives) →
    (a.render env).Within (keeping env.fields a.assigned).onScope
  | .done => by
    rw [Alternatives.render]
    exact Run.within_pure _
  | .otherwise body => by
    rw [Alternatives.render, Alternatives.assigned]
    exact renderAll_within body ""
  | .elseIf test body more => by
    rw [Alternatives.render, Alternatives.assigned]
    refine (evalIn_within test).bind fun v => ?_
    split
    · exact (renderAll_within body "").weaken (List.subset_append_left _ _)
    · exact (Alternatives.render_within more).weaken (List.subset_append_right _ _)

theorem renderAll_within : (ss : List Segment) → (out : String) →
    (renderAll env ss out).Within (keeping env.fields (Segment.assignedAll ss)).onScope
  | [], out => by
    rw [renderAll]
    exact Run.within_pure _
  | s :: ss, out => by
    rw [renderAll, Segment.assignedAll]
    exact ((Segment.render_within s).weaken (List.subset_append_left _ _)).bind fun text =>
      (renderAll_within ss _).weaken (List.subset_append_right _ _)

end

/-- A name that stands for nothing cannot be assigned to, whatever the right-hand side was. -/
theorem Stmt.exec_assign_of_not_defined {s t : Rendering σ} {name : String} {op : AssignOp}
    {rhs : Expr} {v : Value} (hname : s.scope.lookup? env.fields name = none)
    (hv : evalIn env rhs s = (.ok v, t)) :
    (Stmt.assign name op rhs).exec env s = (.error (.notDefined name), t) := by
  have hscope : t.scope = s.scope := (congrArg (fun p => p.2.scope) hv).symm
  rw [← hscope] at hname
  have hassign (w : Value) : assignName env name w t = (.error (.notDefined name), t) := by
    unfold assignName changeScope
    dsimp only
    rw [Scope.assign?_eq_none_iff.2 hname]
  have hlookup : lookupName env name t = (.error (.notDefined name), t) := by
    unfold lookupName
    rw [hname]
  rw [Stmt.exec, Run.bind_eq_of_ok hv]
  cases op with
  | set => exact hassign v
  | add | sub | mul | div => exact Run.bind_eq_of_error hlookup

theorem Stmt.exec_step_of_not_defined {s : Rendering σ} {name : String} (direction : Step)
    (hname : s.scope.lookup? env.fields name = none) :
    (Stmt.step name direction).exec env s = (.error (.notDefined name), s) := by
  refine Run.bind_eq_of_error ?_
  unfold lookupName
  rw [hname]

/-- Rendering leaves the scope as it found it, wherever and however it ends.  There are as many
frames as before with the same names in the same order, and only the outermost one may have got new
names, which are names of fields; the fields themselves are no part of the state.  So the same names
stand for something, and a name that nothing assigns to stands for the same value; in particular
what a loop binds before its rounds and what an each-block binds for an item is gone after the
block.  A name that stands for nothing cannot be assigned to. -/
theorem renderAll_scope (env : Env σ) (ss : List Segment) (out : String) (s : Rendering σ) :
    let after (r : Render σ String) : Scope := (r s).2.scope
    let t := after (renderAll env ss out)
    t.inner.length = s.scope.inner.length ∧
      t.inner.map Frame.names = s.scope.inner.map Frame.names ∧
      (∃ added, t.outer.names = added ++ s.scope.outer.names ∧
        ∀ n ∈ added, n ∈ Entries.keys env.fields) ∧
      (∀ n, (t.lookup? env.fields n).isSome = (s.scope.lookup? env.fields n).isSome) ∧
      (∀ n, n ∉ Segment.assignedAll ss → t.lookup? env.fields n = s.scope.lookup? env.fields n) ∧
      (∀ header body, ∀ n ∈ LoopHeader.declared header,
        (after ((Segment.loop header body).render env)).lookup? env.fields n =
          s.scope.lookup? env.fields n) ∧
      (∀ collection names body, ∀ n ∈ eachNames names,
        (after ((Segment.each collection names body).render env)).lookup? env.fields n =
          s.scope.lookup? env.fields n) ∧
      ∀ name, s.scope.lookup? env.fields name = none →
        (TemplateError.notDefined name).message = name ++ " is not defined" ∧
          (∀ direction, (Stmt.step name direction).exec env s = (.error (.notDefined name), s)) ∧
          ∀ op rhs v u, evalIn env rhs s = (.ok v, u) →
            (Stmt.assign name op rhs).exec env s = (.error (.notDefined name), u) := by
  intro after t
  have hkept : Kept env.fields (Segment.assignedAll ss) s.scope t := renderAll_within ss out s
  have hsegment (x : Segment) (n : String) (hn : n ∉ x.assigned) :
      (after (x.render env)).lookup? env.fields n = s.scope.lookup? env.fields n :=
    (Segment.render_within x s).lookup?_eq hn
  have hbound {n : String} {X D : List String} (hn : n ∈ D) : n ∉ X.filter (· ∉ D) := by
    rw [List.mem_filter, decide_eq_true_iff]
    exact fun h => h.2 hn
  refine ⟨?_, hkept.names_inner, hkept.names_outer, hkept.lookup?_isSome,
    fun n => hkept.lookup?_eq, ?_, ?_, ?_⟩
  · simpa using congrArg List.length hkept.names_inner
  · intro header body n hn
    refine hsegment _ n ?_
    rw [Segment.assigned]
    exact hbound hn
  · intro collection names body n hn
    refine hsegment _ n ?_
    rw [Segment.assigned]
    exact hbound hn
  · intro name hname
    exact ⟨rfl, fun direction => Stmt.exec_step_of_not_defined direction hname,
      fun op rhs v u hv => Stmt.exec_assign_of_not_defined hname hv⟩

/-- A loop that hides a field behind a name of its own and assigns to another field from a loop
inside. -/
def shadowing : List Segment :=
  [.loop ⟨some (.declare "name" (.literal (.bool true))), some (.ident "name"),
      some (.assign "name" .set (.literal (.bool false)))⟩
    [.loop ⟨some (.assign "title" .set (.ident "name")), some (.literal (.bool false)), none⟩ []]]

theorem renderAll_scope_shadowing :
    let env : Env Unit :=
      ⟨⟨fun _ _ _ w => (.error .bound, w), 0⟩, defaultOptions,
        [("name", .string "Bob"), ("title", .null)]⟩
    let s : Rendering Unit := ⟨⟨Heap.empty, ()⟩, ⟨[[("user", .string "Ada")]], []⟩⟩
    let t := (renderAll env shadowing "" s).2.scope
    t.inner.map Frame.names = [["user"]] ∧ t.outer.names = ["title"] ∧
      t.lookup? env.fields "name" = some (.string "Bob") ∧
      (t.lookup? env.fields "missing").isSome = false ∧
      (Stmt.assign "missing" .set (.literal .null)).exec env s =
        (.error (.notDefined "missing"), s) := by
  intro env s t
  obtain ⟨-, hnames, -, hsame, hvalues, -, -, hassign⟩ := renderAll_scope env shadowing "" s
  refine ⟨hnames, by decide +kernel, hvalues "name" ?_, (hsame "missing").trans rfl,
    (hassign "missing" rfl).2.2 .set (.literal .null) .null s rfl⟩
  simp [shadowing, Segment.assignedAll, Segment.assigned, LoopHeader.assigned, LoopHeader.declared,
    Stmt.assigned, Stmt.declared]

end Segments

end Render

end LiveMarkup
