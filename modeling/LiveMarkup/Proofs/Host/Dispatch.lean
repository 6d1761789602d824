import LiveMarkup.Markup.Reference
import LiveMarkup.Proofs.Arena.Climb
import LiveMarkup.Proofs.Host.Listeners
import LiveMarkup.Proofs.Host.Reachable

/-!
# Dispatching an event

The listeners that an event calls are collected before the first of them is called, on the walk from
the node at which it is dispatched up to the root.  They may then do anything to the host:
`Host.Answers` follows the world from one listener to the next while all of them succeed, and the
list of those that are still to be called stays as it was collected.  The main result is
`Host.dispatch_runs_path`.
-/

namespace LiveMarkup

variable {σ : Type}

/-! ### What a reachable host displays -/

theorem Page.exists_represents_display {p : Page} (h : ∃ a : Arena String, a.Represents p.document)
    (new : List Node) : ∃ a : Arena String, a.Represents (p.display new).document := by
  obtain ⟨a, ha⟩ := h
  obtain ⟨a', ha', -⟩ :=
    Arena.Holds.bind (fun _ method => method) (r := p.registry) (ha.reconcile (p := rootId) new).2
  exact ⟨a', ha'⟩

/-- If a page can be kept in an arena, it still can after more nodes have been displayed. -/
theorem Page.exists_represents_after {p : Page} (h : ∃ a : Arena String, a.Represents p.document)
    (shown : List (List Node)) : ∃ a : Arena String, a.Represents (p.after shown).document := by
  induction shown generalizing p with
  | nil => exact h
  | cons new shown ih => exact ih (Page.exists_represents_display h new)

namespace Host

variable {host : Host σ} {w w' : HostWorld σ}

theorem Reachable.exists_page_eq [EntityCodec] (hw : host.Reachable w) :
    ∃ shown, w.user.page = Page.empty.after shown := by
  induction hw with
  | start h c => exact ⟨[], rfl⟩
  | @script α n s w _ ih =>
    obtain ⟨before, hbefore⟩ := ih
    obtain ⟨ps, hps⟩ := s.run_within host.history_free (host.engine_history n) w
    exact ⟨before ++ allShown ps, by rw [hps.page_eq, hbefore, Page.after_append]⟩
  | drop _ ih => exact ih

theorem Reachable.exists_represents [EntityCodec] (hw : host.Reachable w) :
    ∃ a : Arena String, a.Represents w.user.document := by
  obtain ⟨shown, hpage⟩ := hw.exists_page_eq
  have hdocument : w.user.document = (Page.empty.after shown).document :=
    congrArg Page.document hpage
  rw [hdocument]
  exact Page.exists_represents_after ⟨_, Arena.represents_empty⟩ shown

/-! ### Calling listeners -/

variable (host)

/-- Whether listeners that are called one after the other all succeed, and lead from one world to
another. -/
inductive Answers (e : Engine σ) (event : Event) : HostWorld σ → List String → HostWorld σ → Prop
  | nil (w : HostWorld σ) : Answers e event w [] w
  | cons {w w₁ w' : HostWorld σ} {method : String} {methods : List String}
    (h : host.Called e method event w (.ok ()) w₁) (hrest : Answers e event w₁ methods w') :
    Answers e event w (method :: methods) w'

/-- Whether one of several listeners that are called one after the other ends as told and without a
result, after all before it have succeeded. -/
def StopsAt (e : Engine σ) (event : Event) (o : Outcome Error Empty) (w : HostWorld σ)
    (methods : List String) (w' : HostWorld σ) : Prop :=
  ∃ before method after w₁, methods = before ++ method :: after ∧ host.Answers e event w before w₁ ∧
    host.Called e method event w₁ (.ofFailure o) w'

variable {host} {e : Engine σ} {event : Event} {target : NodeId} {o : Outcome Error Empty}
  {method : String} {methods : List String}

theorem stopsAt_nil : ¬ host.StopsAt e event o w [] w' := by
  rintro ⟨before, method, after, w₁, heq, -⟩
  simp at heq

theorem stopsAt_cons_iff : host.StopsAt e event o w (method :: methods) w' ↔
    host.Called e method event w (.ofFailure o) w' ∨
      ∃ w₁, host.Called e method event w (.ok ()) w₁ ∧ host.StopsAt e event o w₁ methods w' := by
  constructor
  · rintro ⟨before, method', after, w₁, heq, hbefore, hstop⟩
    cases hbefore with
    | nil =>
      cases heq
      exact Or.inl hstop
    | cons h hrest =>
      cases heq
      exact Or.inr ⟨_, h, _, _, _, _, rfl, hrest, hstop⟩
  · rintro (hstop | ⟨w₁, h, before, method', after, w₂, rfl, hbefore, hstop⟩)
    · exact ⟨[], method, methods, w, rfl, .nil w, hstop⟩
    · exact ⟨method :: before, method', after, w₂, rfl, .cons h hbefore, hstop⟩

variable (host)

/-- No method makes the host go away. -/
theorem alive_of_callListener [EntityCodec] (n : Nat) (ha : w.user.alive = true)
    {out : Outcome Error Unit} (h : host.callListener (host.engine n) method event w = (out, w')) :
    w'.user.alive = true := by
  have hf := host.history_free
  have he := host.engine_history n
  have hcall :=
    (host.callListener_agreeOn (hf.on w) (he.agreeOn w) method event w (host.history.refl w)).2
  rw [h] at hcall
  obtain ⟨ps, hps⟩ := hcall
  exact hps.alive_eq.trans ha

theorem callAll_eq_ok_iff [EntityCodec] (n : Nat) (ha : w.user.alive = true) :
    host.callAll (host.engine n) event methods w = (.ok (), w') ↔
    host.Answers (host.engine n) event w methods w' := by
  induction methods generalizing w with
  | nil =>
    constructor
    · intro h
      cases h
      exact .nil _
    · intro h
      cases h
      rfl
  | cons method methods ih =>
    rw [callAll, Run.bind_eq_ok_iff]
    constructor
    · rintro ⟨_, w₁, h, hrest⟩
      exact .cons ((callListener_eq_iff ha).1 h) ((ih (host.alive_of_callListener n ha h)).1 hrest)
    · intro h
      cases h with
      | cons hcalled hrest =>
        have hcall := (callListener_eq_iff ha).2 hcalled
        exact ⟨(), _, hcall, (ih (host.alive_of_callListener n ha hcall)).2 hrest⟩

theorem callAll_eq_failure_iff [EntityCodec] (n : Nat) (ha : w.user.alive = true) :
    host.callAll (host.engine n) event methods w = (.ofFailure o, w') ↔
      host.StopsAt (host.engine n) event o w methods w' := by
  induction methods generalizing w with
  | nil => exact iff_of_false (fun h => Outcome.ok_ne_ofFailure (congrArg Prod.fst h)) stopsAt_nil
  | cons method methods ih =>
    rw [callAll, Run.bind_eq_failure_iff, stopsAt_cons_iff, callListener_eq_iff ha]
    refine or_congr_right ⟨?_, ?_⟩
    · rintro ⟨_, w₁, h, hrest⟩
      exact ⟨w₁, (callListener_eq_iff ha).1 h, (ih (host.alive_of_callListener n ha h)).1 hrest⟩
    · rintro ⟨w₁, hcalled, hrest⟩
      have hcall := (callListener_eq_iff ha).2 hcalled
      exact ⟨(), w₁, hcall, (ih (host.alive_of_callListener n ha hcall)).2 hrest⟩

/-! ### Dispatching -/

theorem dispatch_of_not_contains (hi : w.user.document.contains target = false) :
    host.dispatch e target event w = (.ok 0, w) := by
  have hnone : w.user.document.bubbling? target event.kind = none := by
    rw [← Bool.not_eq_true, Document.contains_iff, not_or] at hi
    rw [Document.bubbling?, if_neg hi.1, Option.map_eq_none_iff, ← Option.not_isSome_iff_eq_none,
      Document.path?, Live.isSome_pathIn?_iff]
    exact hi.2
  unfold dispatch
  rw [Run.read_bind, hnone]
  rfl

theorem dispatch_of_bubbling?
    (hmethods : w.user.document.bubbling? target event.kind = some methods) :
    host.dispatch e target event w =
      (do host.callAll e (event.withTarget target) methods; pure methods.length : Run (HostWorld σ)
        Error Nat) w := by
  unfold dispatch
  rw [Run.read_bind, hmethods]

/-- All listeners are called, and their number is the result, just if each of them succeeds where
the one before it has left the world. -/
theorem dispatch_eq_ok_iff [EntityCodec] (n : Nat) (ha : w.user.alive = true)
    (hmethods : w.user.document.bubbling? target event.kind = some methods) {k : Nat} :
    host.dispatch (host.engine n) target event w = (.ok k, w') ↔
      k = methods.length ∧ host.Answers (host.engine n) (event.withTarget target) w methods w' := by
  rw [host.dispatch_of_bubbling? hmethods, Run.bind_eq_ok_iff]
  constructor
  · rintro ⟨_, w₁, h, hpure⟩
    cases hpure
    exact ⟨rfl, (host.callAll_eq_ok_iff n ha).1 h⟩
  · rintro ⟨rfl, h⟩
    exact ⟨(), w', (host.callAll_eq_ok_iff n ha).2 h, rfl⟩

/-- The first listener that does not succeed ends the dispatch as it has ended itself. -/
theorem dispatch_eq_failure_iff [EntityCodec] (n : Nat) (ha : w.user.alive = true)
    (hmethods : w.user.document.bubbling? target event.kind = some methods) :
    host.dispatch (host.engine n) target event w = (.ofFailure o, w') ↔
      host.StopsAt (host.engine n) (event.withTarget target) o w methods w' := by
  rw [host.dispatch_of_bubbling? hmethods, Run.bind_eq_failure_iff,
    ← host.callAll_eq_failure_iff n ha]
  refine or_iff_left ?_
  rintro ⟨_, w₁, -, hpure⟩
  exact Outcome.ok_ne_ofFailure (congrArg Prod.fst hpure)

/-- An event that is dispatched at a node in the tree calls the listeners for its kind that the tree
has at that moment: those of the node, then those of the node above it, and so on up to the root,
where no node is met twice.  The way is the one along the slots of any arena that keeps the tree.
All of them get the kind and the detail of the event, and this node as its target.  Each runs the
handler of its method in the world as the one before it has left it, and whatever it does to the
tree, those that come next are the same.  If all succeed, the result is their number; if one fails,
the dispatch ends with its error in the world that it has left, and none behind it is called.
Nothing is called for a node that is not in the tree.  This holds for each tree that a host can come
to display, in the midst of a pass or of another listener too. -/
theorem dispatch_runs_path [EntityCodec] (n : Nat) {w₀ w : HostWorld σ} (hw : host.Reachable w₀)
    (hdocument : w.user.document = w₀.user.document) (ha : w.user.alive = true) (target : NodeId)
    (event : Event) :
    (w.user.document.contains target = false →
      host.dispatch (host.engine n) target event w = (.ok 0, w)) ∧
    (w.user.document.contains target = true → ∃ path methods,
      Climbs w.user.document.parent? target path ∧ path.getLast? = some rootId ∧ path.Nodup ∧
      methods = path.flatMap (fun i => w.user.document.listenersFor i event.kind) ∧
      (∃ a : Arena String, a.Represents w.user.document) ∧
      (∀ a : Arena String, a.Represents w.user.document →
        Climbs a.parent? target path ∧ ∀ i, a.listenersOf i = w.user.document.listenersOf i) ∧
      (∀ k w', host.dispatch (host.engine n) target event w = (.ok k, w') ↔
        k = methods.length ∧
        host.Answers (host.engine n) ⟨event.kind, some target, event.detail⟩ w methods w') ∧
      (∀ err w', host.dispatch (host.engine n) target event w = (.error err, w') ↔
        ∃ before method after w₁, methods = before ++ method :: after ∧
          host.Answers (host.engine n) ⟨event.kind, some target, event.detail⟩ w before w₁ ∧
          host.Called (host.engine n) method ⟨event.kind, some target, event.detail⟩ w₁
            (.error err) w') ∧
      ∀ why w', host.dispatch (host.engine n) target event w = (.stopped why, w') ↔
        ∃ before method after w₁, methods = before ++ method :: after ∧
          host.Answers (host.engine n) ⟨event.kind, some target, event.detail⟩ w before w₁ ∧
          host.Called (host.engine n) method ⟨event.kind, some target, event.detail⟩ w₁
            (.stopped why) w') := by
  refine ⟨host.dispatch_of_not_contains, fun hi => ?_⟩
  obtain ⟨a, hrep⟩ := hw.exists_represents
  rw [← hdocument] at hrep
  obtain ⟨path, hclimbs, hlast, hbubbling⟩ := hrep.exists_climb hi
  have hparent : w.user.document.parent? = a.parent? := funext fun i => hrep.parent?_eq
  refine ⟨path, _, hparent ▸ hclimbs, hlast, hclimbs.nodup, rfl, ⟨a, hrep⟩, fun b hb => ?_,
    fun k w' => host.dispatch_eq_ok_iff n ha (hbubbling _),
    fun err w' => host.dispatch_eq_failure_iff (o := .error err) n ha (hbubbling _),
    fun why w' => host.dispatch_eq_failure_iff (o := .stopped why) n ha (hbubbling _)⟩
  have hsame : a.parent? = b.parent? := funext fun i => hrep.parent?_eq.symm.trans hb.parent?_eq
  exact ⟨hsame ▸ hclimbs, fun i => hb.listenersOf_eq.symm⟩

section

attribute [local instance] EntityCodec.common

/-- A host of three nested elements, which notes for each method the target of the event.  The
method of the innermost element makes it display something else, and that of the next one fails. -/
def collapsing : Host (List (String × Option NodeId)) := .ofComponent {
  render := .look fun w => pure (match w.user.component with
    | [] => "<ul @click=\"outer\"><li @click=\"middle\"><b @click=\"inner\"></b></li></ul>"
    | _ => "<p></p>")
  css := ""
  fields := pure []
  methods := [
    ("inner", fun event => .keep (· ++ [("inner", event.target)]) (.ask .update fun _ =>
      pure (.ok ()))),
    ("middle", fun event =>
      .keep (· ++ [("middle", event.target)]) (pure (.error (.state (.custom "no"))))),
    ("outer", fun event => .keep (· ++ [("outer", event.target)]) (pure (.ok ())))]
  functions := fun _ _ => pure .undefined
  connected := pure ()
  disconnected := pure ()
  adopted := pure ()
  attributeChanged := fun _ _ _ => pure () }

/-- This host after its first pass. -/
def collapsingStart : HostWorld (List (String × Option NodeId)) :=
  ((.ask .update fun _ => pure () : Script (List (String × Option NodeId)) Unit).run
    (collapsing.engine 1)
    (collapsing.start ⟨#[], #[]⟩ [])).2

/-- The world that its innermost element leaves. -/
def collapsingInner : HostWorld (List (String × Option NodeId)) :=
  (collapsing.callListener (collapsing.engine 1) "inner" ⟨"click", some 3, .undefined⟩
    collapsingStart).2

theorem dispatch_runs_path_collapsing : ∃ w',
    Climbs collapsingStart.user.document.parent? 3 [3, 2, 1, rootId] ∧
    collapsing.Answers (collapsing.engine 1) ⟨"click", some 3, .undefined⟩ collapsingStart
    ["inner"] collapsingInner ∧
    collapsingInner.user.document.contains 2 = false ∧
    collapsing.dispatch (collapsing.engine 1) 3 (.ofKind "click") collapsingStart =
      (.error (.state (.custom "no")), w') ∧
    w'.user.component = [("inner", some 3), ("middle", some 3)] ∧ w'.user.renders = 2 := by
  obtain ⟨h3, h2, h1, h0, halive, halive', hin, hlisteners, hinner, hgone, hcomponent, hrenders⟩ :
      collapsingStart.user.document.parent? 3 = some 2 ∧
      collapsingStart.user.document.parent? 2 = some 1 ∧
      collapsingStart.user.document.parent? 1 = some rootId ∧
      collapsingStart.user.document.parent? rootId = none ∧
      collapsingStart.user.alive = true ∧ collapsingInner.user.alive = true ∧
      collapsingStart.user.document.contains 3 = true ∧
      ([3, 2, 1, rootId].flatMap fun i => collapsingStart.user.document.listenersFor i "click") =
        ["inner", "middle", "outer"] ∧
      (collapsing.callListener (collapsing.engine 1) "inner" ⟨"click", some 3, .undefined⟩
        collapsingStart).1.ok?.isSome = true ∧
      collapsingInner.user.document.contains 2 = false ∧
      collapsingInner.user.component = [("inner", some 3)] ∧ collapsingInner.user.renders = 2 := by
        decide +kernel
  have hclimbs : Climbs collapsingStart.user.document.parent? 3 [3, 2, 1, rootId] :=
    .step h3 (.step h2 (.step h1 (.last h0)))
  obtain ⟨-, hdispatch⟩ := collapsing.dispatch_runs_path 1 (.script 1 _ (.start ⟨#[], #[]⟩ []))
    (w := collapsingStart) rfl halive 3 (.ofKind "click")
  obtain ⟨path, methods, hpath, -, -, rfl, -, -, -, herror, -⟩ := hdispatch hin
  rw [hclimbs.unique hpath, show (Event.ofKind "click").kind = "click" from rfl,
    hlisteners] at herror
  have hanswers :
    collapsing.Answers (collapsing.engine 1) ⟨"click", some 3, .undefined⟩ collapsingStart
      ["inner"] collapsingInner :=
    .cons ((callListener_eq_iff halive).1 (Prod.ext (Outcome.eq_ok_of_isSome hinner ()) rfl))
      (.nil _)
  have hmiddle : collapsing.Called (collapsing.engine 1) "middle" ⟨"click", some 3,
    .undefined⟩ collapsingInner
      (.error (.state (.custom "no"))) _ := .failure rfl rfl
  refine ⟨_, hclimbs, hanswers, hgone,
    (herror _ _).2 ⟨["inner"], "middle", ["outer"], _, rfl, hanswers, hmiddle⟩, ?_, hrenders⟩
  show collapsingInner.user.component ++ [("middle", some 3)] = _
  rw [hcomponent]
  rfl

end

end Host

end LiveMarkup
