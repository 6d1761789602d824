import LiveMarkup.Markup.Reference
import LiveMarkup.Proofs.Document.Bound
import LiveMarkup.Proofs.Host.Passes

/-!
# Listeners over a run

A `Page` is what a host displays with the registry of what is bound in it.  Passes change it by
displaying nodes, and nothing else does, so the page after a run is determined by what was displayed
(`Host.Passes.page_eq`). `Page.read` and `Page.attached` list the markers that were read and the
listeners that were attached on the way.  The main result is `Host.listeners_match_registry`:
between passes a node in the tree has a listener just for the kinds of event that the registry lists
for it, each the method of the first marker that was read; the registry has an entry for each
listener that was ever attached and never shrinks; and no entry counts for a node that is displayed
later. Calling a listener runs the handler of the method that it names (`Host.Called`).
-/

namespace LiveMarkup

variable {σ : Type}

/-- What is displayed, and what is bound in it. -/
structure Page where
  document : Document String
  registry : Registry

def HostState.page (s : HostState σ) : Page := ⟨s.document, s.registry⟩

namespace Page

/-- Nothing is displayed and nothing is bound. -/
def empty : Page := ⟨.empty, .empty⟩

variable (p : Page)

/-- The document patched with new nodes, with their markers in it. -/
def marked (new : List Node) : Document String := (p.document.reconcile rootId new).2

/-- What reading the markers gives, when new nodes are displayed. -/
def bound (new : List Node) : List Binding × Document String × Registry :=
  (p.marked new).bind p.registry fun _ method => method

/-- The page after new nodes have been displayed. -/
def display (new : List Node) : Page := ⟨(p.bound new).2.1, (p.bound new).2.2⟩

/-- The page after several lists of nodes have been displayed, one after the other. -/
def after (shown : List (List Node)) : Page := shown.foldl display p

/-- What `f` gives for each list of nodes and the page on which it is displayed. -/
def collect (f : Page → List Node → List Binding) (p : Page) : List (List Node) → List Binding
  | [] => []
  | new :: shown => f p new ++ collect f (p.display new) shown

/-- The markers that are read while lists of nodes are displayed, one after the other. -/
def read (shown : List (List Node)) : List Binding :=
  p.collect (fun p new => (p.marked new).markers) shown

/-- The listeners that are attached while lists of nodes are displayed, one after the other. -/
def attached (shown : List (List Node)) : List Binding :=
  p.collect (fun p new => (p.bound new).1) shown

variable {p} {log : List Binding}

theorem after_append (shown shown' : List (List Node)) :
    p.after (shown ++ shown') = (p.after shown).after shown' :=
  List.foldl_append

/-- The listeners of a page are those that markers ask for which were read in this order. -/
def Bound (log : List Binding) (p : Page) : Prop :=
  p.document.Bound (fun _ method => method) log p.registry

theorem Bound.display (h : p.Bound log) (new : List Node) :
    (p.display new).Bound (log ++ (p.marked new).markers) :=
  (Document.Bound.reconcile h new).bind

/-- Whatever is displayed, the markers that are read count after those that were read before. -/
theorem Bound.after (h : p.Bound log) (shown : List (List Node)) :
    (p.after shown).Bound (log ++ p.read shown) := by
  induction shown generalizing p log with
  | nil =>
    show p.Bound (log ++ [])
    rwa [List.append_nil]
  | cons new shown ih =>
    have hrest := ih (h.display new)
    rwa [List.append_assoc] at hrest

theorem bound_after_empty (shown : List (List Node)) :
    (empty.after shown).Bound (empty.read shown) :=
  Bound.after (p := empty) Document.bound_empty shown

theorem Bound.listenersFor_eq (h : p.Bound log) {i : NodeId} (hi : p.document.contains i = true)
    (kind : String) :
    p.document.listenersFor i kind = (Binding.first? i kind log).toList := by
  rw [Document.Bound.listenersFor_eq h hi, Option.map_id_fun']
  rfl

/-- A node has one listener where the registry lists it, and none where it does not. -/
theorem Bound.listenersFor_cases (h : p.Bound log) {i : NodeId} (hi : p.document.contains i = true)
    (kind : String) :
    (p.registry.contains i kind = true →
      ∃ method, Binding.first? i kind log = some method ∧
        p.document.listenersFor i kind = [method]) ∧
    (p.registry.contains i kind = false → p.document.listenersFor i kind = []) := by
  rw [h.listenersFor_eq hi, h.knows]
  cases Binding.first? i kind log <;> simp

theorem Bound.bubbling?_eq (h : p.Bound log) {i : NodeId} {path : List (Live String)}
    (hpath : p.document.path? i = some path) (kind : String) :
    p.document.bubbling? i kind = some (path.filterMap fun n => Binding.first? n.id kind log) := by
  rw [Document.Bound.bubbling?_eq h hpath, Option.map_id_fun']
  rfl

/-- The registry grows by what is attached. -/
theorem pairs_after (p : Page) (shown : List (List Node)) :
    (p.after shown).registry.pairs = ((p.attached shown).map Binding.pair).reverse ++
      p.registry.pairs := by
  induction shown generalizing p with
  | nil => rfl
  | cons new shown ih =>
    have hnew : (p.display new).registry.pairs = ((p.bound new).1.map Binding.pair).reverse ++
      p.registry.pairs :=
      (p.marked new).pairs_bind p.registry fun _ method => method
    show ((p.display new).after shown).registry.pairs =
      (((p.bound new).1 ++ (p.display new).attached shown).map Binding.pair).reverse ++
        p.registry.pairs
    rw [ih, hnew, List.map_append, List.reverse_append, List.append_assoc]

/-- A node that is displayed has been there before, or its identity is a new one. -/
theorem mem_ids_after (p : Page) (shown : List (List Node)) :
    p.document.next ≤ (p.after shown).document.next ∧
      ∀ i ∈ (p.after shown).document.ids, i ∈ p.document.ids ∨ p.document.next ≤ i := by
  induction shown generalizing p with
  | nil => exact ⟨Nat.le_refl _, fun i hi => Or.inl hi⟩
  | cons new shown ih =>
    have hrenewed := p.document.renewed_reconcile new
    obtain ⟨hle, hids⟩ := ih (p.display new)
    refine ⟨Nat.le_trans hrenewed.le hle, fun i hi => ?_⟩
    rcases hids i hi with hi | hi
    · have hmem : i ∈ (p.marked new).ids := by
        rw [← (p.marked new).ids_bind p.registry fun _ method => method]
        exact hi
      exact (hrenewed.id_cases hmem).imp_right And.left
    · exact Or.inr (Nat.le_trans hrenewed.le hi)

/-- A node that was not there before finds no pair of its own in the registry, and only the markers
count for it that are read since. -/
theorem Bound.listenersFor_of_new (h : p.Bound log) {shown : List (List Node)} {i : NodeId}
    (hi : (p.after shown).document.contains i = true) (hnew : p.document.contains i = false)
    (kind : String) :
    p.registry.contains i kind = false ∧
      (p.after shown).document.listenersFor i kind =
        (Binding.first? i kind (p.read shown)).toList := by
  rw [← Bool.not_eq_true, Document.contains_iff, not_or] at hnew
  have hmem := (Document.contains_iff.1 hi).resolve_left hnew.1
  have hge := ((p.mem_ids_after shown).2 i hmem).resolve_left hnew.2
  have hnone : Binding.first? i kind log = none :=
    Binding.first?_eq_none fun m hm => Nat.ne_of_lt (Nat.lt_of_lt_of_le (h.log_between m hm).2 hge)
  constructor
  · rw [h.knows, hnone]
    rfl
  · rw [(h.after shown).listenersFor_eq hi, Binding.first?_append, hnone, Option.none_or]

end Page

/-! ### Calling a listener -/

namespace Host

variable (host : Host σ) {e : Engine σ} {method : String} {event : Event} {w w' : HostWorld σ}
  {o : Outcome Error Unit}

/-- What calling a method by its name comes to: the handler that the component has under this name
runs with the event, and the call ends as the handler does.  If there is none, nothing happens. -/
inductive Called (e : Engine σ) (method : String) (event : Event) (w : HostWorld σ) :
    Outcome Error Unit → HostWorld σ → Prop
  | missing (hnone : Entries.get? method host.component.methods = none) :
      Called e method event w (.ok ()) w
  | success {handler : Handler σ} {w' : HostWorld σ}
    (hsome : Entries.get? method host.component.methods = some handler)
    (hrun : (handler event).run e w = (.ok (.ok ()), w')) : Called e method event w (.ok ()) w'
  | failure {handler : Handler σ} {w' : HostWorld σ} {err : Error}
    (hsome : Entries.get? method host.component.methods = some handler)
    (hrun : (handler event).run e w = (.ok (.error err), w')) :
      Called e method event w (.error err) w'
  | stop {handler : Handler σ} {w' : HostWorld σ} {why : Stop}
    (hsome : Entries.get? method host.component.methods = some handler)
    (hrun : (handler event).run e w = (.error why, w')) : Called e method event w (.stopped why) w'

variable {host}

/-- A call has one end. -/
theorem Called.eq {o' : Outcome Error Unit} {w'' : HostWorld σ}
    (h : host.Called e method event w o w') (h' : host.Called e method event w o' w'') :
    (o, w') = (o', w'') := by
  cases h <;> cases h' <;> simp_all

variable (host e method event w)

theorem called_invoke :
    host.Called e method event w ((host.invoke e method event w).1.map fun _ => ())
    (host.invoke e method event w).2 := by
  unfold invoke
  cases hmethod : Entries.get? method host.component.methods with
  | none => exact .missing hmethod
  | some handler =>
    dsimp only
    rcases hrun : (handler event).run e w with ⟨why | err | ⟨⟩, w'⟩
    · have hstop : (e.run (handler event) : Run (HostWorld σ) Error _) w = (.stopped why, w') := by
        simp only [Engine.run, hrun, Outcome.ofStop]
      rw [Run.bind_eq_of_stopped hstop]
      exact .stop hmethod hrun
    · have hok :
        (e.run (handler event) : Run (HostWorld σ) Error _) w = (.ok (.error err), w') := by
        simp only [Engine.run, hrun, Outcome.ofStop]
      rw [Run.bind_eq_of_ok hok]
      exact .failure hmethod hrun
    · have hok : (e.run (handler event) : Run (HostWorld σ) Error _) w = (.ok (.ok ()), w') := by
        simp only [Engine.run, hrun, Outcome.ofStop]
      rw [Run.bind_eq_of_ok hok]
      exact .success hmethod hrun

variable {host e method event w}

/-- As long as the host is there, calling a listener is calling the method that it names. -/
theorem callListener_eq_iff (ha : w.user.alive = true) :
    host.callListener e method event w = (o, w') ↔ host.Called e method event w o w' := by
  have hcall : host.callListener e method event w =
      ((host.invoke e method event w).1.map fun _ => (), (host.invoke e method event w).2) := by
    have hinvoke : host.callListener e method event w =
        (do let _ ← host.invoke e method event; pure () : Run (HostWorld σ) Error Unit) w := by
      unfold callListener
      rw [Run.read_bind, ha]
      rfl
    rw [hinvoke]
    rcases h : host.invoke e method event w with ⟨known | err | _, w₁⟩
    · rw [Run.bind_eq_of_ok h]
      rfl
    · rw [Run.bind_eq_of_error h]
      rfl
    · rw [Run.bind_eq_of_stopped h]
      rfl
  have hcalled := host.called_invoke e method event w
  rw [hcall]
  refine ⟨fun h => ?_, fun h => hcalled.eq h⟩
  obtain ⟨rfl, rfl⟩ := Prod.mk.inj h
  exact hcalled

/-- Once the host is gone, nothing happens. -/
theorem callListener_of_not_alive (ha : w.user.alive = false) :
    host.callListener e method event w = (.ok (), w) := by
  unfold callListener
  rw [Run.read_bind, ha]
  rfl

end Host

/-! ### Runs -/

/-- The lists of nodes that were displayed by those of several passes that succeeded. -/
def allShown (ps : List (Option (List Node))) : List (List Node) := ps.filterMap id

namespace Host

variable {host : Host σ} {w w' : HostWorld σ} {ps : List (Option (List Node))}

/-- Of all that happens in a run, only what is displayed changes the page. -/
theorem Passes.page_eq [EntityCodec] (h : host.Passes w ps w') :
    w'.user.page = w.user.page.after (allShown ps) := by
  induction h with
  | refl => rfl
  | code _ _ _ ih => exact ih
  | pass hw n rs hidle ih =>
    rw [allShown, List.filterMap_append, Page.after_append, ← allShown, ← ih]
    rcases host.update_cases ((host.engine_inFlight n).lock rs) hidle with
      ⟨new, h, c, hshown, hu⟩ | ⟨o, h, c, hshown, -, hu⟩
    · rw [hu, hshown]
      rfl
    · rw [hu, hshown]
      rfl

variable (host)

/-- Between passes a node in the tree has just one listener for each kind of event that the registry
lists for it, and none for any other: the method of the first marker of this kind that was ever read
for it, which an event that passes the node calls.  The registry lists a pair once for each listener
that was ever attached, and no pair is given up.  A node that is displayed later finds no pair of
its own, and is bound by the first markers that are read since.  As long as the host is there,
calling a listener runs the handler of the method that it names, with the event. -/
theorem listeners_match_registry [EntityCodec] (n : Nat) (h : Heap) (c : σ) :
    (∀ (e : Engine σ) (method : String) (event : Event) (w : HostWorld σ),
      (w.user.alive = true → ∀ o w', host.callListener e method event w = (o, w') ↔
        host.Called e method event w o w') ∧
      (w.user.alive = false → host.callListener e method event w = (.ok (), w))) ∧
    (∀ calls, ∃ ps,
      host.Passes (host.start h c) ps (Call.afterAll host (host.engine n) (host.start h c) calls)) ∧
    ∀ ps w, host.Passes (host.start h c) ps w →
      (∀ i kind, w.user.registry.contains i kind =
        (Binding.first? i kind (Page.empty.read (allShown ps))).isSome) ∧
      (∀ i kind, w.user.document.contains i = true →
        (w.user.registry.contains i kind = true → ∃ method,
          Binding.first? i kind (Page.empty.read (allShown ps)) = some method ∧
          w.user.document.listenersFor i kind = [method]) ∧
        (w.user.registry.contains i kind = false → w.user.document.listenersFor i kind = [])) ∧
      (∀ i kind path, w.user.document.path? i = some path → w.user.document.bubbling? i kind =
        some (path.filterMap fun n => Binding.first? n.id kind (Page.empty.read (allShown ps)))) ∧
      w.user.registry.pairs.Nodup ∧
      w.user.registry.size = (Page.empty.attached (allShown ps)).length ∧
      ∀ qs w', host.Passes w qs w' →
        w.user.registry.pairs <:+ w'.user.registry.pairs ∧
        ∀ i kind, w'.user.document.contains i = true → w.user.document.contains i = false →
          w.user.registry.contains i kind = false ∧
          w'.user.document.listenersFor i kind =
            (Binding.first? i kind (w.user.page.read (allShown qs))).toList := by
  refine ⟨fun e method event w =>
    ⟨fun ha o w' => callListener_eq_iff ha, callListener_of_not_alive⟩,
    Call.exists_passes_all host n _, fun ps w hps => ?_⟩
  have hpage : w.user.page = Page.empty.after (allShown ps) := hps.page_eq
  have hbound : w.user.page.Bound (Page.empty.read (allShown ps)) := by
    rw [hpage]
    exact Page.bound_after_empty (allShown ps)
  refine ⟨hbound.knows, fun i kind hi => hbound.listenersFor_cases hi kind,
    fun i kind path hpath => hbound.bubbling?_eq hpath kind, hbound.pairs_nodup, ?_,
    fun qs w' hqs => ?_⟩
  · show w.user.page.registry.pairs.length = _
    rw [hpage, Page.pairs_after, List.length_append, List.length_reverse, List.length_map]
    rfl
  · have hpage' : w'.user.page = w.user.page.after (allShown qs) := hqs.page_eq
    have hpairs : w'.user.registry.pairs = _ :=
      (congrArg (·.registry.pairs) hpage').trans (Page.pairs_after _ _)
    refine ⟨⟨_, hpairs.symm⟩, fun i kind hi hnew => ?_⟩
    have hdocument : w'.user.document = _ := congrArg Page.document hpage'
    rw [hdocument] at hi ⊢
    exact hbound.listenersFor_of_new hi hnew kind

section

attribute [local instance] EntityCodec.common

/-- A host whose component names another method in its second pass and asks for another element in
its third one. One method takes a note of its own, and the other one fails. -/
def fickle : Host Nat := .ofComponent {
  render := .look fun w => .keep (· + 1) (pure (match w.user.component with
    | 0 => "<b @click=\"one\"></b>"
    | 1 => "<b @click=\"two\"></b>"
    | _ => "<i @click=\"two\"></i>"))
  css := ""
  fields := pure []
  methods :=
    [("one", fun _ => .keep (· + 10) (pure (.ok ()))),
      ("two", fun _ => pure (.error (.state (.custom "no"))))]
  functions := fun _ _ => pure .undefined
  connected := pure ()
  disconnected := pure ()
  adopted := pure ()
  attributeChanged := fun _ _ _ => pure () }

/-- The world of this host after some passes. -/
def fickleAfter : Nat → HostWorld Nat
  | 0 => fickle.start ⟨#[], #[]⟩ 0
  | n + 1 => (fickle.update (fickle.engine 1) (fickleAfter n)).2

/-- What this host displays in the pass after some others. -/
def fickleShown (n : Nat) : Option (List Node) := fickle.shownBy (fickle.engine 1) (fickleAfter n)

theorem listeners_match_registry_fickle :
    (fickleAfter 2).user.registry.contains 1 "click" = true ∧
      (fickleAfter 2).user.document.listenersFor 1 "click" = ["one"] ∧
      (fickleAfter 2).user.registry.size = 1 ∧
      (fickleAfter 2).user.registry.pairs <:+ (fickleAfter 3).user.registry.pairs ∧
      (fickleAfter 2).user.registry.contains 2 "click" = false ∧
      (fickleAfter 3).user.document.listenersFor 2 "click" = ["two"] ∧
      (∃ w', fickle.callListener (fickle.engine 1) "one" (.ofKind "click") (fickleAfter 2) =
        (.ok (), w') ∧
        w'.user.component = 12) ∧
      fickle.callListener (fickle.engine 1) "two" (.ofKind "click") (fickleAfter 3) =
        (.error (.state (.custom "no")), fickleAfter 3) := by
  have hstart : fickle.Passes (fickleAfter 0) [] (fickleAfter 0) := .refl _
  have hone := hstart.pass 1 [] rfl
  have hps : fickle.Passes (fickleAfter 0) [fickleShown 0, fickleShown 1] (fickleAfter 2) :=
    hone.pass 1 [] (hone.renders_eq rfl).1
  have hstay : fickle.Passes (fickleAfter 2) [] (fickleAfter 2) := .refl _
  have hqs : fickle.Passes (fickleAfter 2) [fickleShown 2] (fickleAfter 3) :=
    hstay.pass 1 [] (hps.renders_eq rfl).1
  -- two markers for node 1, then one for node 2 that has taken its place
  obtain ⟨hread, hattached, hsince, hin, hout, hin'⟩ :
      Page.empty.read (allShown [fickleShown 0, fickleShown 1]) =
        [⟨1, "click", "one"⟩, ⟨1, "click", "two"⟩] ∧
      Page.empty.attached (allShown [fickleShown 0, fickleShown 1]) = [⟨1, "click", "one"⟩] ∧
      (fickleAfter 2).user.page.read (allShown [fickleShown 2]) = [⟨2, "click", "two"⟩] ∧
      (fickleAfter 2).user.document.contains 1 = true ∧
      (fickleAfter 2).user.document.contains 2 = false ∧
      (fickleAfter 3).user.document.contains 2 = true := by decide +kernel
  obtain ⟨hcalls, -, hruns⟩ := fickle.listeners_match_registry 1 ⟨#[], #[]⟩ 0
  obtain ⟨hknows, hlisteners, -, -, hsize, hlater⟩ := hruns _ (fickleAfter 2) hps
  obtain ⟨hgrows, hnew⟩ := hlater _ (fickleAfter 3) hqs
  rw [hread] at hknows hlisteners
  rw [hattached] at hsize
  rw [hsince] at hnew
  have hc : (fickleAfter 2).user.registry.contains 1 "click" = true :=
    (hknows 1 "click").trans (by decide)
  obtain ⟨method, hmethod, hlistener⟩ := (hlisteners 1 "click" hin).1 hc
  obtain ⟨hfree, hlistener'⟩ := hnew 2 "click" hin' hout
  cases hmethod
  obtain ⟨halive, halive', hcount⟩ : (fickleAfter 2).user.alive = true ∧
    (fickleAfter 3).user.alive = true ∧
      (fickleAfter 2).user.component = 2 := by decide +kernel
  refine ⟨hc, hlistener, hsize, hgrows, hfree, hlistener',
    ⟨_, ((hcalls _ _ _ _).1 halive _ _).2 (.success rfl rfl), ?_⟩,
    ((hcalls _ _ _ _).1 halive' _ _).2 (.failure rfl rfl)⟩
  show (fickleAfter 2).user.component + 10 = 12
  rw [hcount]

end

end Host

end LiveMarkup
