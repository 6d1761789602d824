import LiveMarkup.Proofs.Eval.Rounds
import LiveMarkup.Proofs.Template.Bound
import LiveMarkup.Proofs.Template.RoundTrip

/-!
# Reading bound names back

A block binds its names anew in each round (`Segment.Round`), and what happens to the body in a
round happens to the block (`Segment.Round.render_of_failure`).  From the start of a round on,
wherever the rendering of the body gets to without entering a block that hides the name (`Reaches`),
the innermost binding of the name is the one of the block, and so the name evaluates to what it is
bound to there (`Segment.readsBack`).  What a template may bind is not always what an expression can
refer to, though: `Template.bound_readBack` says of each name that a template binds whether its text
is read as the name at all.
-/

namespace LiveMarkup

/-! ### Places in frames -/

namespace Scope

variable {s : Scope} {name : String} {v : Value}

/-- Whether the innermost frame that binds a name binds it to a value and has that many frames
around it. -/
def BindsAt (depth : Nat) (name : String) (v : Value) (s : Scope) : Prop :=
  ∃ inside f around, s.inner = inside ++ f :: around ∧ around.length = depth ∧
    (∀ g ∈ inside, name ∉ g.names) ∧
    f.get? name = some v

theorem BindsAt.lookup? {depth : Nat} (h : s.BindsAt depth name v) (fields : Entries Value) :
    s.lookup? fields name = some v := by
  obtain ⟨inside, f, around, hs, -, hinside, hf⟩ := h
  have hfind : s.inner.findSome? (Frame.get? name) = some v :=
    List.findSome?_eq_some_iff.2 ⟨inside, f, around, hs, hf, fun g hg =>
      Frame.get?_eq_none_iff.2 (hinside g hg)⟩
  unfold Scope.lookup? Scope.get?
  rw [hfind]

end Scope

namespace Frame

/-- Of several places at which a name stands among those of an each-block the last one counts. -/
theorem get?_reverse_zip {name : String} : {ns : List String} → {vs : List Value} → {j : Nat} →
    j < vs.length →
    ns[j]? = some name → (∀ i, j < i → ns[i]? ≠ some name) → get? name (ns.zip vs).reverse = vs[j]?
  | n :: ns, v :: vs, 0, _, hname, hlast => by
    have hnone : get? name (ns.zip vs).reverse = none := by
      rw [get?_eq_none_iff, names, List.map_reverse, List.mem_reverse]
      intro h
      obtain ⟨⟨m, w⟩, hmem, rfl⟩ := List.mem_map.1 h
      obtain ⟨i, hi⟩ := List.getElem?_of_mem (List.of_mem_zip hmem).1
      exact hlast (i + 1) (Nat.succ_pos i) hi
    cases hname
    rw [List.zip_cons_cons, List.reverse_cons, get?_append, hnone]
    simp [get?]
  | n :: ns, v :: vs, j + 1, hj, hname, hlast => by
    have hj' := Nat.lt_of_succ_lt_succ hj
    rw [List.zip_cons_cons, List.reverse_cons, get?_append,
      get?_reverse_zip hj' hname fun i hi => hlast (i + 1) (Nat.succ_lt_succ hi),
      List.getElem?_cons_succ,
      List.getElem?_eq_getElem hj', Option.some_or]

end Frame

/-! ### Rounds -/

variable {σ : Type}

/-- The segments inside a block that binds names. -/
def Segment.body : Segment → List Segment
  | .loop _ body | .each _ _ body => body
  | .text _ | .escaped _ | .raw _ | .conditional .. => []

/-- The names that a block binds in the round with a number.  Before the first round of a loop its
step has not run. -/
def Segment.boundIn : Nat → Segment → List String
  | 0, .loop header _ => header.declared
  | _ + 1, .loop header _ => header.declaredAfter ++ header.declared
  | _, .each _ names _ => eachNames names
  | _, .text _ | _, .escaped _ | _, .raw _ | _, .conditional .. => []

/-- Whether the round with a number, of a block that is rendered from `s`, starts with a frame in a
state. -/
inductive Segment.Round (env : Env σ) (s : Rendering σ) : Segment → Nat → Frame → Rendering σ → Prop
  | item {collection : Expr} {names : List String} {body : List Segment} {v item : Value}
    {items : List Value}
    {t u w : Rendering σ} {out : String} {i : Nat} (hv : evalIn env collection s = (.ok v, t))
    (hitems : iterated collection v t = (.ok items, u)) (hitem : items[i]? = some item)
    (hbefore : renderItems names v (renderAll env body "") (items.take i) 0 "" u = (.ok out, w)) :
    Round env s (.each collection names body) i (eachFrame names item i v)
      { w with scope := w.scope.enter (eachFrame names item i v) }
  | first {header : LoopHeader} {body : List Segment} {t u : Rendering σ} {f : Frame}
    {fs : List Frame}
    (hinit : execOptional env header.init { s with scope := s.scope.enter [] } = (.ok (), t))
    (htest : testOptional env header.test t = (.ok true, u)) (hf : u.scope.inner = f :: fs) :
    Round env s (.loop header body) 0 f u
  | again {header : LoopHeader} {body : List Segment} {t u v w : Rendering σ} {f g : Frame}
    {gs : List Frame}
    {k : Nat} {out : String} (h : Round env s (.loop header body) k f t)
    (hbody : renderAll env body "" t = (.ok out, u))
    (hstep : execOptional env header.step u = (.ok (), v))
    (htest : testOptional env header.test v = (.ok true, w)) (hg : w.scope.inner = g :: gs) :
    Round env s (.loop header body) (k + 1) g w

section Rounds

open Scope (Kept Opens opens_enter keeping)

variable {env : Env σ} {s t u r : Rendering σ} {x : Segment} {f : Frame} {k : Nat} {name : String}

theorem evalIn_scope {e : Expr} {o : Outcome TemplateError Value} (h : evalIn env e s = (o, t)) :
    t.scope = s.scope :=
  (congrArg (fun p => p.2.scope) h).symm

theorem testOptional_scope {e : Option Expr} {o : Outcome TemplateError Bool}
    (h : testOptional env e s = (o, t)) :
    t.scope = s.scope := by
  have hs : (testOptional env e s).2.scope = s.scope :=
    testOptional_within (E := ⟨fun s t => t = s, fun _ => rfl, fun h h' => h'.trans h⟩) e s
  rwa [h] at hs

theorem Run.Within.kept {α : Type} {p : Render σ α} {X : List String} {o : Outcome TemplateError α}
    (hp : p.Within (keeping env.fields X).onScope) (h : p s = (o, t)) :
    Kept env.fields X s.scope t.scope := by
  have hs := hp s
  rw [h] at hs
  exact hs

theorem Segment.declared_subset_boundIn (header : LoopHeader) (body : List Segment) (k : Nat) :
    header.declared ⊆ (Segment.loop header body).boundIn k := by
  cases k with
  | zero => exact List.Subset.refl _
  | succ k => exact List.subset_append_right _ _

/-- After a step the frame binds what the step declares besides what it bound before. -/
theorem Segment.mem_boundIn_succ {header : LoopHeader} {body : List Segment} {n : String} :
    n ∈ (Segment.loop header body).boundIn (k + 1) ↔
      n ∈ header.declaredAfter ++ (Segment.loop header body).boundIn k := by
  cases k with
  | zero => exact Iff.rfl
  | succ k =>
    simp only [boundIn, List.mem_append]
    tauto

/-- A round starts in the frame of its block, with the names that the block binds in it, and what is
around the block has been kept. -/
theorem Segment.Round.starts (h : x.Round env s k f t) :
    t.scope.inner.head? = some f ∧ Opens (x.boundIn k) t.scope ∧
      Kept env.fields x.assigned s.scope t.scope.leave := by
  induction h with
  | @item collection names body v item items t u w out i hv hitems hitem hbefore =>
    refine ⟨rfl, opens_enter _ fun n => ?_, ?_⟩
    · rw [names_eachFrame, List.mem_reverse, boundIn]
    · rw [Segment.assigned]
      refine Kept.trans ((evalIn_within collection).kept hv) ?_
      refine Kept.trans ((iterated_within collection v).kept hitems) ?_
      exact (renderItems_within names v (renderAll_within body "") _ 0 "").kept hbefore
  | @first header body t u f fs hinit htest hf =>
    have hopens : Opens header.declared t.scope := by
      have h := execOptional_opens hinit (opens_enter s.scope (f := []) fun _ => Iff.rfl)
      rwa [Frame.names_nil, List.append_nil] at h
    have hbefore :
      Kept env.fields (header.assigned.filter (· ∉ header.declared)) s.scope t.scope.leave := by
      have h := header.init_kept env s
      rwa [hinit] at h
    refine ⟨by rw [hf, List.head?_cons], ?_, ?_⟩ <;> rw [testOptional_scope htest]
    · exact hopens
    · rw [Segment.assigned]
      exact hbefore.mono (List.filter_subset _ (List.subset_append_left _ _))
  | @again header body t u v w f g gs k out h hbody hstep htest hg ih =>
    obtain ⟨-, hopens, hbefore⟩ := ih
    have hbodies := (renderAll_within body "").kept hbody
    have hopens' := execOptional_opens hstep (hbodies.opens hopens)
    have hsteps := header.step_within env (Segment.assignedAll body) u
    rw [hstep] at hsteps
    refine ⟨by rw [hg, List.head?_cons], ?_, ?_⟩ <;> rw [testOptional_scope htest]
    · exact hopens'.congr fun n => Segment.mem_boundIn_succ.symm
    · obtain ⟨hbinds, hbodies⟩ :=
        hbodies.leave (hopens.binds.mono (Segment.declared_subset_boundIn header body k))
      rw [Segment.assigned] at hbefore ⊢
      refine hbefore.trans (Kept.trans ?_ (hsteps hbinds).2)
      exact hbodies.mono (List.filter_subset _ (List.subset_append_right _ _))

/-- Inside a block a declaration binds its name to the value of its expression. -/
theorem get?_of_declare {e : Expr} {test : Option Expr} {fs : List Frame} (hs : s.scope.inner ≠ [])
    (hrun : execOptional env (some (.declare name e)) s = (.ok (), t))
    (htest : testOptional env test t = (.ok true, u)) (hf : u.scope.inner = f :: fs) :
    ∃ v w, evalIn env e s = (.ok v, w) ∧ f.get? name = some v := by
  obtain ⟨v, w, hv, hdeclare⟩ := Run.bind_eq_ok_iff.1 hrun
  cases hdeclare
  refine ⟨v, w, hv, ?_⟩
  obtain ⟨g, gs, hg⟩ := List.exists_cons_of_ne_nil hs
  rw [testOptional_scope htest] at hf
  dsimp only [Scope.declare] at hf
  rw [evalIn_scope hv, hg] at hf
  cases hf
  exact Frame.get?_bind

/-- A name that a loop declares before its first round stands for the value of its expression when
the round starts. -/
theorem Segment.Round.get?_init {header : LoopHeader} {body : List Segment} {e : Expr}
    (h : (Segment.loop header body).Round env s 0 f t) (he : header.init = some (.declare name e)) :
    ∃ v u, evalIn env e { s with scope := s.scope.enter [] } = (.ok v, u) ∧
      f.get? name = some v := by
  cases h with
  | first hinit htest hf =>
    rw [he] at hinit
    exact get?_of_declare (List.cons_ne_nil _ _) hinit htest hf

/-- A name that a loop declares after a round stands for the value of its expression when the next
round starts. -/
theorem Segment.Round.get?_step {header : LoopHeader} {body : List Segment} {e : Expr}
    (h : (Segment.loop header body).Round env s (k + 1) f t)
    (he : header.step = some (.declare name e)) :
    ∃ g u out v w y, (Segment.loop header body).Round env s k g u ∧
      renderAll env body "" u = (.ok out, v) ∧
      evalIn env e v = (.ok w, y) ∧ f.get? name = some w := by
  cases h with
  | again h hbody hstep htest hf =>
    rw [he] at hstep
    obtain ⟨_, _, hinner, -⟩ := ((renderAll_within body "").kept hbody).opens h.starts.2.1
    have hne : _ ≠ [] := hinner ▸ List.cons_ne_nil _ _
    obtain ⟨w, y, hw, hget⟩ := get?_of_declare hne hstep htest hf
    exact ⟨_, _, _, _, w, y, h, hbody, hw, hget⟩

/-! ### Rounds of a rendering -/

/-- A round that ends without a result ends an each-block. -/
theorem renderItems_of_failure {names : List String} {collection item : Value}
    {body : Render σ String} {items : List Value} {i index : Nat} {out text : String}
    {o : Outcome TemplateError Empty}
    (hbefore : renderItems names collection body (items.take i) index out s = (.ok text, t))
    (hitem : items[i]? = some item)
    (hbody : withFrame (eachFrame names item (index + i) collection) body t = (.ofFailure o, u)) :
    renderItems names collection body items index out s = (.ofFailure o, u) := by
  induction i generalizing items index out s with
  | zero =>
    obtain ⟨rest, rfl⟩ := List.head?_eq_some_iff.1 ((List.head?_eq_getElem?).trans hitem)
    cases hbefore
    exact Run.bind_eq_of_failure hbody
  | succ i ih =>
    cases items with
    | nil => cases hitem
    | cons a rest =>
      obtain ⟨text, w, hw, hrest⟩ := Run.bind_eq_ok_iff.1 hbefore
      refine (Run.bind_eq_of_ok hw).trans (ih hrest hitem ?_)
      rwa [Nat.add_assoc, Nat.add_comm 1 i]

/-- Up to a round a loop goes through as many complete rounds as its number says. -/
theorem Segment.Round.rounds {header : LoopHeader} {body : List Segment}
    (h : (Segment.loop header body).Round env s k f t) :
    ∃ t₀ u out, execOptional env header.init { s with scope := s.scope.enter [] } = (.ok (), t₀) ∧
      Rounds (testOptional env header.test) (renderAll env body "")
      (execOptional env header.step) k t₀ out u ∧
      testOptional env header.test u = (.ok true, t) := by
  generalize hx : Segment.loop header body = x at h
  induction h with
  | item => cases hx
  | first hinit htest =>
    cases hx
    exact ⟨_, _, _, hinit, .none _, htest⟩
  | again _ hbody hstep htest _ ih =>
    cases hx
    obtain ⟨t₀, u, out, hinit, hrounds, hpasses⟩ := ih rfl
    exact ⟨t₀, _, _, hinit, hrounds.snoc hpasses hbody hstep, htest⟩

/-- A body that ends without a result ends its block, in a loop if the bound allows that round. -/
theorem Segment.Round.render_of_failure {o : Outcome TemplateError Empty} (h : x.Round env s k f t)
    (hk : ∀ header body, x = .loop header body → k < env.options.maxLoopIterations)
    (hbody : renderAll env x.body "" t = (.ofFailure o, u)) :
    x.render env s = (.ofFailure o, { u with scope := u.scope.leave }) := by
  cases x with
  | each collection names body =>
    cases h with
    | @item _ _ _ v item items t u' w out i hv hitems hitem hbefore =>
      rw [Segment.render, Run.bind_eq_of_ok hv, Run.bind_eq_of_ok hitems]
      refine renderItems_of_failure hbefore hitem ?_
      have hinside : renderAll env body "" _ = _ := hbody
      rw [Nat.zero_add]
      unfold withFrame
      rw [hinside]
  | loop header body =>
    obtain ⟨t₀, p, out, hinit, hrounds, hpasses⟩ := h.rounds
    have hrun := hrounds.run (.stop (.body hpasses hbody))
    have hloop :
      renderLoop env header (renderAll env body "") { s with scope := s.scope.enter [] } =
        (.ofFailure o, u) := by
      refine (Run.bind_eq_of_ok hinit).trans ?_
      rw [repeatBody_of_run hrun (Nat.add_comm 1 k ▸ hk header body rfl), Outcome.map_ofFailure,
        Outcome.map_ofFailure]
    rw [Segment.render]
    unfold withFrame
    rw [hloop]
  | text _ | escaped _ | raw _ | conditional _ _ _ => cases h

/-! ### Places in the body -/

/-- Whether rendering the alternatives of a conditional goes into a branch, in a state. -/
inductive Alternatives.Takes (env : Env σ) (b : List Segment) :
    Alternatives → Rendering σ → Rendering σ → Prop
  | otherwise {s : Rendering σ} : Takes env b (.otherwise b) s s
  | passes {test : Expr} {more : Alternatives} {s t : Rendering σ} {v : Value}
    (hv : evalIn env test s = (.ok v, t))
    (htest : v.truthy = true) : Takes env b (.elseIf test b more) s t
  | fails {test : Expr} {body : List Segment} {more : Alternatives}
    {s t u : Rendering σ} {v : Value}
    (hv : evalIn env test s = (.ok v, t)) (htest : v.truthy = false) (h : Takes env b more t u) :
    Takes env b (.elseIf test body more) s u

/-- Whether rendering segments from a state gets to a state without going into a round that binds a
name. -/
inductive Reaches (env : Env σ) (name : String) : List Segment → Rendering σ → Rendering σ → Prop
  | here {ss : List Segment} {s : Rendering σ} : Reaches env name ss s s
  | next {x : Segment} {ss : List Segment} {s t r : Rendering σ} {out : String}
    (hx : x.render env s = (.ok out, t))
    (h : Reaches env name ss t r) : Reaches env name (x :: ss) s r
  | branch {test : Expr} {body b : List Segment} {more : Alternatives} {ss : List Segment}
    {s t r : Rendering σ}
    (hb : (Alternatives.elseIf test body more).Takes env b s t) (h : Reaches env name b t r) :
    Reaches env name (.conditional test body more :: ss) s r
  | round {x : Segment} {ss : List Segment} {s t r : Rendering σ} {f : Frame} {k : Nat}
    (hx : x.Round env s k f t) (hname : name ∉ x.boundIn k) (h : Reaches env name x.body t r) :
    Reaches env name (x :: ss) s r

theorem Alternatives.Takes.scope_eq {a : Alternatives} {b : List Segment} (h : a.Takes env b s t) :
    t.scope = s.scope := by
  induction h with
  | otherwise => rfl
  | passes hv => exact evalIn_scope hv
  | fails hv _ _ ih => exact ih.trans (evalIn_scope hv)

theorem Alternatives.Takes.assigned_subset {a : Alternatives} {b : List Segment}
    (h : a.Takes env b s t) :
    Segment.assignedAll b ⊆ a.assigned := by
  induction h with
  | otherwise => exact List.Subset.refl _
  | passes => exact List.subset_append_left _ _
  | fails _ _ _ ih => exact List.subset_append_of_subset_right _ ih

/-- In a round the body gives new values around the block to those names only that the block does
not bind. -/
theorem Segment.Round.assigned_subset (h : x.Round env s k f t) :
    (assignedAll x.body).filter (· ∉ x.boundIn k) ⊆ x.assigned := by
  have hloop (header : LoopHeader) (body : List Segment) (k : Nat) :
      (assignedAll body).filter (· ∉ (Segment.loop header body).boundIn k) ⊆
        (Segment.loop header body).assigned := by
    intro n hn
    rw [List.mem_filter, decide_eq_true_iff] at hn
    rw [Segment.assigned, List.mem_filter, decide_eq_true_iff]
    exact ⟨List.mem_append_right _ hn.1, fun hd => hn.2 (declared_subset_boundIn header body k hd)⟩
  cases h with
  | item =>
    rw [Segment.assigned, Segment.boundIn]
    exact List.Subset.refl _
  | first | again => exact hloop _ _ _

/-- What keeps the frames inside a round keeps them around the block. -/
theorem Segment.Round.leave (h : x.Round env s k f t) {u : Scope}
    (hkept : Kept env.fields (assignedAll x.body) t.scope u) :
    Kept env.fields x.assigned s.scope u.leave := by
  obtain ⟨-, hopens, hbefore⟩ := h.starts
  exact hbefore.trans ((hkept.leave hopens.binds).2.mono h.assigned_subset)

/-- Where the rendering gets to, frames that do not bind the name stand inside those from which it
started. -/
theorem Reaches.inside {ss : List Segment} (h : Reaches env name ss s r) :
    ∃ inside u, r.scope = ⟨inside ++ Scope.inner u, u.outer⟩ ∧ (∀ g ∈ inside, name ∉ g.names) ∧
      Kept env.fields (Segment.assignedAll ss) s.scope u := by
  induction h with
  | here => exact ⟨[], _, rfl, List.forall_mem_nil _, .refl _ _⟩
  | next hx _ ih =>
    obtain ⟨inside, u, hr, hinside, hkept⟩ := ih
    refine ⟨inside, u, hr, hinside, Kept.trans ?_ (hkept.mono (List.subset_append_right _ _))⟩
    exact ((Segment.render_within _).kept hx).mono (List.subset_append_left _ _)
  | branch hb _ ih =>
    obtain ⟨inside, u, hr, hinside, hkept⟩ := ih
    rw [hb.scope_eq] at hkept
    refine ⟨inside, u, hr, hinside, hkept.mono ?_⟩
    rw [Segment.assignedAll, Segment.assigned]
    exact List.subset_append_of_subset_left _ hb.assigned_subset
  | @round x ss s t r f k hx hname _ ih =>
    obtain ⟨inside, u, hr, hinside, hkept⟩ := ih
    obtain ⟨g, gs, hg, hnames⟩ := hkept.opens hx.starts.2.1
    refine ⟨inside ++ [g], u.leave, ?_, ?_, (hx.leave hkept).mono (List.subset_append_left _ _)⟩
    · rw [hr, Scope.leave, hg, List.tail_cons, List.append_assoc, List.singleton_append]
    · rw [List.forall_mem_append, List.forall_mem_singleton, hnames]
      exact ⟨hinside, hname⟩

end Rounds

/-! ### Reading back -/

/-- How a name of a block is read back: wherever a round gets to without going into a block that
hides the name, it evaluates to what the frame of this block binds it to, which is what the round
started with unless the body assigned to it.  A round starts with the item, the index or the
collection, and with the value of what a loop declares. -/
structure Segment.ReadsBack (env : Env σ) (x : Segment) (name : String) : Prop where
  read : ∀ {s t r : Rendering σ} {k : Nat} {f : Frame}, x.Round env s k f t → name ∈ x.boundIn k →
    Reaches env name x.body t r → ∃ v, r.scope.BindsAt s.scope.inner.length name v ∧
      evalIn env (.ident name) r = (.ok v, r) ∧ (name ∉ assignedAll x.body → f.get? name = some v)
  item : ∀ {collection : Expr} {names : List String} {body : List Segment} {j : Nat},
    x = .each collection names body →
    names[j]? = some name → (∀ i, j < i → names[i]? ≠ some name) →
    ∀ item index v, (eachFrame names item index v).get? name = [item, .ofNat index, v][j]?
  init : ∀ {header : LoopHeader} {body : List Segment} {e : Expr}, x = .loop header body →
    header.init = some (.declare name e) → ∀ {s t : Rendering σ} {f : Frame}, x.Round env s 0 f t →
    ∃ v u, evalIn env e { s with scope := s.scope.enter [] } = (.ok v, u) ∧ f.get? name = some v
  step : ∀ {header : LoopHeader} {body : List Segment} {e : Expr}, x = .loop header body →
    header.step = some (.declare name e) → ∀ {s t : Rendering σ} {k : Nat} {f : Frame},
    x.Round env s (k + 1) f t →
    ∃ g u out v w y, x.Round env s k g u ∧ renderAll env body "" u = (.ok out, v) ∧
      evalIn env e v = (.ok w, y) ∧
      f.get? name = some w

/-- In the frame in which a round starts a name is read back from all places of the body that do not
hide it. -/
theorem Segment.Round.read {env : Env σ} {s t r : Rendering σ} {x : Segment} {k : Nat} {f : Frame}
    {name : String} (h : x.Round env s k f t) (hname : name ∈ x.boundIn k)
    (hr : Reaches env name x.body t r) :
    ∃ v, r.scope.BindsAt s.scope.inner.length name v ∧ evalIn env (.ident name) r = (.ok v, r) ∧
      (name ∉ assignedAll x.body → f.get? name = some v) := by
  obtain ⟨hhead, hopens, -⟩ := h.starts
  obtain ⟨inside, u, hu, hinside, hkept⟩ := hr.inside
  obtain ⟨g, gs, hg, hnames⟩ := hkept.opens hopens
  obtain ⟨v, hv⟩ := Option.isSome_iff_exists.1 (Frame.get?_isSome_iff.2 ((hnames name).2 hname))
  have hlength : gs.length = s.scope.inner.length := by
    have hinner := congrArg List.length (h.leave hkept).names_inner
    simpa [Scope.leave, hg] using hinner
  have hbinds : r.scope.BindsAt s.scope.inner.length name v :=
    ⟨inside, g, gs, by rw [hu, hg], hlength, hinside, hv⟩
  refine ⟨v, hbinds, ?_, fun hassigned => ?_⟩
  · unfold evalIn inScope
    simp only [Expr.eval, hbinds.lookup?]
    rfl
  · rw [← hkept.get?_head hhead hg hassigned, hv]

/-- The names of an each-block and the names that the header of a loop declares are read back. -/
theorem Segment.readsBack (env : Env σ) {x : Segment}
    (hnames : ∀ {collection : Expr} {names : List String} {body : List Segment},
      x = .each collection names body → names.length ≤ 3) (name : String) :
    x.ReadsBack env name where
  read := Round.read
  item := by
    intro collection names body j hx hname hlast item index v
    have hj : j < names.length := (List.getElem?_eq_some_iff.1 hname).1
    exact Frame.get?_reverse_zip (Nat.lt_of_lt_of_le hj (hnames hx)) hname hlast
  init := by
    rintro header body e rfl he s t f h
    exact h.get?_init he
  step := by
    rintro header body e rfl he s t k f h
    exact h.get?_step he

/-- A block binds its names in each round, but for those that only its step declares: these it binds
from the second round on. -/
theorem Segment.mem_boundIn {x : Segment} {name : String}
    (hnames : ∀ {collection : Expr} {names : List String} {body : List Segment},
      x = .each collection names body → names.length ≤ 3) (hname : name ∈ x.bound) (k : Nat) :
    name ∈ x.boundIn k ∨
      k = 0 ∧ ∃ header body, x = .loop header body ∧ name ∈ header.declaredAfter ∧
      name ∉ header.declared := by
  cases x with
  | loop header body =>
    rw [bound, List.mem_append] at hname
    by_cases hd : name ∈ header.declared
    · exact Or.inl (declared_subset_boundIn header body k hd)
    · have hafter := hname.resolve_left hd
      cases k with
      | zero => exact Or.inr ⟨rfl, header, body, rfl, hafter, hd⟩
      | succ k => exact Or.inl (List.mem_append_left _ hafter)
  | each collection names body =>
    rw [boundIn, eachNames, List.take_of_length_le (hnames rfl)]
    exact Or.inl hname
  | text _ | escaped _ | raw _ | conditional _ _ _ => exact absurd hname List.not_mem_nil

/-- A template binds names that are names of expressions and are read back as such, but also literal
words, which are read as literals, and names with characters beyond ASCII, which are no
expressions. -/
theorem Template.bound_readBack {source : String} {t : Template}
    (ht : Template.parse source = .ok t) {x : Segment} (hx : x.Occurs t.segments) {name : String}
    (hname : name ∈ x.bound) :
    (IsName name ↔ name ∉ literalWords ∧ ∀ c ∈ name.toList, c.toNat < 128) ∧
      (IsName name → Nesting.interpolation name.toList = .ok (.ident name)) ∧
      (∀ {σ : Type} (env : Env σ), x.ReadsBack env name) ∧
      (∀ k, name ∈ x.boundIn k ∨
        k = 0 ∧ ∃ header body, x = .loop header body ∧ name ∈ header.declaredAfter ∧
        name ∉ header.declared) ∧
      (name ∈ literalWords → ∃ l, Nesting.interpolation name.toList = .ok (.literal l)) ∧
      ((∃ c ∈ name.toList, 128 ≤ c.toNat) →
        ∃ near, Nesting.interpolation name.toList = .error (.unexpectedToken near name)) := by
  obtain ⟨hbindable, hlength⟩ := isBindable_of_bound ht hx
  have hliteral : ∀ w ∈ literalWords, (∀ c ∈ w.toList, c.toNat < 128) ∧
    ∃ l, Grammar.word w = .literal l := by
    unfold literalWords
    simp [Grammar.word]
  have hdisjoint (hc : ∀ c ∈ name.toList, c.toNat < 128) : ¬∃ c ∈ name.toList, 128 ≤ c.toNat := by
    rintro ⟨c, hmem, hle⟩
    exact absurd (hc c hmem) (Nat.not_lt.2 hle)
  have hread := Nesting.interpolation_of_isBindable (hbindable name hname)
  refine ⟨⟨fun h => ⟨h.notLiteral, IsIdentifier.toNat_lt h.parts⟩, fun h => ?_⟩, fun h => ?_,
    fun env => x.readsBack env (hlength _ _ _) name, x.mem_boundIn (hlength _ _ _) hname,
    fun h => ?_, fun h => ?_⟩
  · have hidentifier := (hread.resolve_right fun hr => hdisjoint h.2 hr.1).1
    exact ⟨hidentifier, h.1⟩
  · obtain ⟨-, hword⟩ := hread.resolve_right fun hr =>
      hdisjoint (IsIdentifier.toNat_lt h.parts) hr.1
    rw [hword, Grammar.word_of_isName h]
  · obtain ⟨hc, l, hl⟩ := hliteral name h
    obtain ⟨-, hword⟩ := hread.resolve_right fun hr => hdisjoint hc hr.1
    exact ⟨l, hword.trans (congrArg _ hl)⟩
  · exact (hread.resolve_left fun hr => hdisjoint hr.1.toNat_lt h).2

/-- Of two bindings of one name the interpolation reads the later one, the index. -/
theorem Template.bound_readBack_repeated :
    let x : Segment := .each (.ident "xs") ["x", "x"] [.escaped (.ident "x")]
    let env : Env Unit :=
      ⟨⟨fun _ _ _ w => (.error .bound, w), 0⟩, defaultOptions, [("xs", .array 0)]⟩
    let s : Rendering Unit := ⟨⟨⟨#[#[.string "a", .string "b"]], #[]⟩, ()⟩, .empty⟩
    Template.parse "\x7b#each xs as x, x\x7d\x7b\x7bx\x7d\x7d\x7b/each\x7d" = .ok ⟨[x]⟩ ∧
    x.Occurs [x] ∧
      "x" ∈ x.bound ∧
      Nesting.interpolation "x".toList = .ok (.ident "x") ∧
      ∃ f t, x.Round env s 0 f t ∧ evalIn env (.ident "x") t = (.ok (.ofNat 0), t) := by
  intro x env s
  have hinline (name : String) (hname : IsName name)
      (h : '}' ∉ name.toList ∧ '@' ∉ name.toList ∧ '\n' ∉ name.toList) :
        (Expr.ident name).PrintsInline name.toList :=
    ⟨⟨h.1, h.2.1, h.2.2⟩, hname, .last (.name hname.parts)⟩
  have hnames : EachHeader.Binds ["x", "x"] ['x', ',', ' ', 'x'] :=
    .cons (x := "x") (u := []) (v := [' ']) (by decide) (by decide) (by simp) (by simp)
      (.last (x := "x") (by decide) (by decide))
  have hparse : Template.parse "\x7b#each xs as x, x\x7d\x7b\x7bx\x7d\x7d\x7b/each\x7d" =
    .ok ⟨[x]⟩ := by
    refine (parse_eq_ok_iff ⟨[.eachOpen (EachHeader.chars ['x', 's'] ['x', ',', ' ', 'x']),
      .escaped ['x'], .endEach],
      ?_, by simp [Directive.Apart, Directive.isText], by rfl⟩).2 rfl
    refine .cons (.eachOpen (hinline "xs" (by decide) (by decide)) hnames (by decide)) ?_
    exact .cons (.escaped (hinline "x" (by decide) (by decide))) (.cons .endEach .nil)
  have hmem : "x" ∈ x.bound := List.mem_cons_self
  obtain ⟨-, hread, hback, -⟩ := bound_readBack hparse .here hmem
  have hitem : [Value.string "a", .string "b"][0]? = some (.string "a") := rfl
  have hround : x.Round env s 0 (eachFrame ["x", "x"] (.string "a") 0 (.array 0)) _ :=
    .item rfl rfl hitem rfl
  obtain ⟨v, -, hv, hsame⟩ := (hback env).read hround (List.mem_cons_self) .here
  have hindex : some v = some (.ofNat 0) := by
    rw [← hsame List.not_mem_nil]
    refine (hback env).item rfl (j := 1) rfl (fun i hi => ?_) _ _ _
    rw [List.getElem?_eq_none hi]
    exact (Option.some_ne_none _).symm
  cases hindex
  exact ⟨hparse, .here, hmem, hread (by decide), _, _, hround, hv⟩

/-- Each-blocks also bind names that expressions cannot refer to: one with a letter beyond ASCII is
no expression, and a literal word is read as the literal. -/
theorem Template.bound_not_readBack :
    (∃ (t : Template) (x : Segment), Template.parse "\x7b#each xs as xé\x7dx\x7b/each\x7d" = .ok t ∧
      x.Occurs t.segments ∧ "xé" ∈ x.bound ∧ ∀ e, Nesting.interpolation "xé".toList ≠ .ok e) ∧
    ∃ (t : Template) (x : Segment),
      Template.parse "\x7b#each xs as true\x7d\x7b\x7btrue\x7d\x7d\x7b/each\x7d" = .ok t ∧
      x.Occurs t.segments ∧
      "true" ∈ x.bound ∧ Nesting.interpolation "true".toList = .ok (.literal (.bool true)) := by
  have hexists (source : String) (names : List String)
      (h : (Template.parse source).toOption.map (·.segments.map Segment.bound) = some [names]) :
      ∃ (t : Template) (x : Segment), Template.parse source = .ok t ∧ x.Occurs t.segments ∧
        x.bound = names := by
    cases hparse : Template.parse source with
    | error e =>
      rw [hparse] at h
      cases h
    | ok t =>
      rw [hparse] at h
      obtain ⟨x, hx, hbound⟩ := List.map_eq_singleton_iff.1 (Option.some_inj.1 h)
      exact ⟨t, x, rfl, hx ▸ .here, hbound⟩
  constructor
  · obtain ⟨t, x, hparse, hx, hbound⟩ :=
      hexists "\x7b#each xs as xé\x7dx\x7b/each\x7d" ["xé"] (by decide +kernel)
    refine ⟨t, x, hparse, hx, hbound ▸ List.mem_cons_self, fun e he => ?_⟩
    have herror : (Nesting.interpolation "xé".toList).isOk = false := by decide +kernel
    rw [he] at herror
    cases herror
  · obtain ⟨t, x, hparse, hx, hbound⟩ :=
      hexists "\x7b#each xs as true\x7d\x7b\x7btrue\x7d\x7d\x7b/each\x7d" ["true"]
        (by decide +kernel)
    refine ⟨t, x, hparse, hx, hbound ▸ List.mem_cons_self, ?_⟩
    have hword := Expr.parse_identifier (x := "true") (by decide)
    rw [Nesting.interpolation, if_neg (by decide)]
    exact hword

end LiveMarkup
