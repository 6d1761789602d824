import LiveMarkup.Markup.Reference
import LiveMarkup.Proofs.Eval.Interpolate
import LiveMarkup.Proofs.Host.Failure
import LiveMarkup.Proofs.Host.Rerender
import LiveMarkup.Proofs.Markup.Placed

/-!
# Views that keep up with state

A host whose template only interpolates, with holes in texts and quoted values, displays what a new
host would display (`Host.html_in_sync`), as long as in no pass a text faced an element.  The
invariant of a run of writes is `Host.UpToDate`: what is displayed is what the last pass asked for.
-/

namespace LiveMarkup

open Item

variable {σ : Type}

namespace Host

variable (host : Host σ) (e : Engine σ)

/-- A host that writes inert texts only. -/
def WritesInert : Prop :=
  ∀ v w t w', (host.options e).escape (host.runtime e) v true w = (.ok t, w') → Inert t.toList

/-- A host whose template is always `t`, which only interpolates, in texts and in quoted values. -/
structure Interpolates [EntityCodec] (t : Template) : Prop where
  source : ∀ {w src w'}, host.source e w = (.ok src, w') → Template.parse src = .ok t
  simple : ∀ s ∈ t.segments, s.interpolates = true
  placed : Placed (t.segments.flatMap Segment.items)
  inert : host.WritesInert e

/-- A host that asks for the same nodes again while shared containers stay as the last pass left
them, whoever displays them. -/
def Steady [EntityCodec] : Prop :=
  ∀ w w' : HostWorld σ, w.user.phase = .rendering → w'.user.phase = .rendering →
    w'.heap = (host.wanted e w).2.heap → (host.wanted e w').1 = (host.wanted e w).1

/-- The worlds of a host that displays certain nodes: it has been mounted, and then state was
written, each write running a pass that succeeded and in which no text faced an element.  The
component may take private notes. -/
inductive Displays [EntityCodec] : HostWorld σ → List Node → Prop
  | mount {h : Heap} {c : σ} {w : HostWorld σ} {stats : PatchStats} {new : List Node}
    (hu : host.update e (host.start h c) = (.ok stats, w))
    (hn : (host.wanted e ⟨h, (host.start h c).user.withPhase .rendering⟩).1 = .ok new) :
      Displays w new
  | write {w w' : HostWorld σ} {h : Heap} {old new : List Node} (t : Trigger) (ht : t ≠ .connected)
    (hd : Displays w old) (hc : t.call host e w = (.ok (), w')) (hw : t.written w.heap = .ok h)
    (hn : (host.wanted e ⟨h, w.user.withPhase .rendering⟩).1 = .ok new)
    (hs : Node.AllSameKind old new) :
    Displays w' new
  | note {w : HostWorld σ} {new : List Node} (c : σ) (hd : Displays w new) :
    Displays ⟨w.heap, { w.user with component := c }⟩ new

/-- A host that displays the nodes that its last pass asked for, and what that pass left in shared
containers. -/
structure UpToDate [EntityCodec] (w : HostWorld σ) (new : List Node) : Prop where
  idle : w.user.phase = .idle
  alive : w.user.alive = true
  nodes : w.user.document.nodesOf rootId = new
  wanted : ∃ w₀, w₀.user.phase = .rendering ∧ (host.wanted e w₀).1 = .ok new ∧
    w.heap = (host.wanted e w₀).2.heap

variable {host e} {w w' : HostWorld σ} {t : Template} {new : List Node}

/-- Being put into a page is a pass, and a hook that takes private notes at most adds nothing to
that. -/
theorem Displays.connected [EntityCodec] {h : Heap} {c : σ} {stats : PatchStats}
    (hhook : ∀ w : HostWorld σ, ∃ c', (host.component.connected.run e w).2 =
      ⟨w.heap, { w.user with component := c' }⟩)
    (hc : host.connected e (host.start h c) = (.ok stats, w))
    (hn : (host.wanted e ⟨h, (host.start h c).user.withPhase .rendering⟩).1 = .ok new) :
    host.Displays e w new := by
  obtain ⟨stats', w₁, hu, hc₁⟩ := Run.bind_eq_ok_iff.1 hc
  obtain ⟨u, w₂, hr, hc₂⟩ := Run.bind_eq_ok_iff.1 hc₁
  obtain rfl : w₂ = w := congrArg Prod.snd hc₂
  obtain ⟨c', hw⟩ := hhook w₁
  have hw₂ : (host.component.connected.run e w₁).2 = w₂ := congrArg Prod.snd hr
  rw [← hw₂, hw]
  exact .note c' (.mount hu hn)

theorem writesInert_of_none (h : host.escape = none) : host.WritesInert e := by
  intro v w t w' ht
  unfold options at ht
  rw [h] at ht
  exact escapeHtml_inert ht

/-- What a host with interpolations asks for is read from a text that comes of its items. -/
theorem Interpolates.wanted_fills [EntityCodec] (hi : host.Interpolates e t)
    (h : (host.wanted e w).1 = .ok new) :
    ∃ cs, Fills (t.segments.flatMap Segment.items) cs ∧ Markup.parseChars cs = .ok new := by
  have h₀ : host.wanted e w = (.ok new, (host.wanted e w).2) := Prod.ext h rfl
  obtain ⟨src, w₁, hsrc, h₁⟩ := Run.bind_eq_ok_iff.1 h₀
  obtain ⟨fields, w₂, -, h₂⟩ := Run.bind_eq_ok_iff.1 h₁
  obtain ⟨t', w₃, ht, h₃⟩ := Run.bind_eq_ok_iff.1 h₂
  obtain ⟨text, w₄, htext, h₄⟩ := Run.bind_eq_ok_iff.1 h₃
  have hparse := congrArg Prod.fst ht
  change (Outcome.ofExcept (Template.parse src)).mapError Error.template = .ok t' at hparse
  rw [hi.source hsrc] at hparse
  cases hparse
  have hrender := congrArg Prod.fst htext
  change (renderAll _ t.segments "" _).1.mapError Error.template = .ok text at hrender
  rcases hr : renderAll ⟨host.runtime e, host.options e, fields⟩ t.segments "" ⟨w₃, .empty⟩ with
    ⟨o, s⟩
  rw [hr] at hrender
  cases o <;> cases hrender
  obtain ⟨cs, hcs, hf⟩ := renderAll_fills (by exact hi.inert) hi.simple hr
  have hnodes := congrArg Prod.fst h₄
  change (Outcome.ofExcept (Markup.parse text)).mapError Error.markup = .ok new at hnodes
  refine ⟨cs, hf, ?_⟩
  rw [Markup.parse, hcs] at hnodes
  cases hm : Markup.parseChars cs <;> simp [hm, Outcome.ofExcept, Outcome.mapError] at hnodes
  rw [hnodes]

theorem Interpolates.allKin [EntityCodec] {old : List Node} (hi : host.Interpolates e t)
    (h : (host.wanted e w).1 = .ok old) (h' : (host.wanted e w').1 = .ok new) :
    Node.AllKin old new := by
  obtain ⟨cs, hcs, hp⟩ := hi.wanted_fills h
  obtain ⟨cs', hcs', hp'⟩ := hi.wanted_fills h'
  exact hi.placed.allKin hcs hcs' hp hp'

variable (host)

/-- A write that is not refused, or a call, is a pass. -/
theorem call_eq_ok [EntityCodec] {t : Trigger} (ht : t ≠ .connected)
    (ha : w.user.alive = true) {h : Heap} (hw : t.written w.heap = .ok h)
    (hc : t.call host e w = (.ok (), w')) :
    ∃ stats, host.update e ⟨h, w.user⟩ = (.ok stats, w') := by
  have hnotify (hc : host.notify e ⟨h, w.user⟩ = (.ok (), w')) :
      ∃ stats, host.update e ⟨h, w.user⟩ = (.ok stats, w') := by
    replace hc := (Run.read_bind _ _).symm.trans hc
    rw [if_pos ha] at hc
    obtain ⟨stats, w₁, hu, hc⟩ := Run.bind_eq_ok_iff.1 hc
    cases hc
    exact ⟨stats, hu⟩
  have hcommit {target : Value} {written : Heap → Except StateError Heap}
    (hw : written w.heap = .ok h)
      (hc : (host.tracked e target).commit e.locked written w = (.ok (), w')) :
      host.notify e ⟨h, w.user⟩ = (.ok (), w') := by
    unfold Tracked.commit at hc
    rw [hw] at hc
    dsimp only at hc
    split at hc
    · cases hc
    · exact hc
  cases t with
  | update =>
    cases hw
    obtain ⟨stats, w₁, hu, hc⟩ := Run.bind_eq_ok_iff.1 hc
    cases hc
    exact ⟨stats, hu⟩
  | connected => exact absurd rfl ht
  | set target k v => exact hnotify (hcommit hw hc)
  | push target v => exact hnotify (hcommit hw hc)

/-- A pass patches what is displayed with what it asks for. -/
theorem nodesOf_of_update [EntityCodec] {n : Nat} {h : Heap} {stats : PatchStats}
    (hp : w.user.phase = .idle) (hu : host.update (host.engine n) ⟨h, w.user⟩ = (.ok stats, w'))
    (hn : (host.wanted (host.engine n) ⟨h, w.user.withPhase .rendering⟩).1 = .ok new) :
    w'.user.document.nodesOf rootId =
      Node.unmarkAll (Node.patchAll AttrPatch.byName (w.user.document.nodesOf rootId) new).1 := by
  obtain ⟨new', w₀, hw, rfl⟩ := update_eq_ok (w := ⟨h, w.user⟩) hp hu
  rw [hw] at hn
  cases hn
  have hdoc : w₀.user.document = w.user.document := by
    have huser :=
      host.user_wanted (host.engine_inFlight n) (w := ⟨h, w.user.withPhase .rendering⟩)
        (by simp [HostState.withPhase])
    rw [hw] at huser
    rw [huser]
    rfl
  show (w₀.user.display new).2.document.nodesOf rootId = _
  rw [HostState.nodesOf_display, hdoc]

/-- A pass of a host with interpolations in which no text faces an element displays what it asks
for. -/
theorem upToDate_of_update [EntityCodec] {n : Nat}
    (hi : host.Interpolates (host.engine n) t) {h : Heap} {stats : PatchStats}
    (hp : w.user.phase = .idle) (ha : w.user.alive = true)
    (hu : host.update (host.engine n) ⟨h, w.user⟩ = (.ok stats, w'))
    (hn : (host.wanted (host.engine n) ⟨h, w.user.withPhase .rendering⟩).1 = .ok new)
    (hs : (Node.patchAll AttrPatch.byName (w.user.document.nodesOf rootId) new).1 = new) :
    host.UpToDate (host.engine n) w' new := by
  have hnodes : w'.user.document.nodesOf rootId = new := by
    rw [host.nodesOf_of_update hp hu hn, hs, (hi.allKin hn hn).unmarkAll_eq]
  obtain ⟨new', w₀, hw, rfl⟩ := update_eq_ok (w := ⟨h, w.user⟩) hp hu
  have huser :=
    host.user_wanted (host.engine_inFlight n) (w := ⟨h, w.user.withPhase .rendering⟩)
      (by simp [HostState.withPhase])
  rw [hw] at huser
  refine ⟨rfl, ?_, hnodes, ⟨h, w.user.withPhase .rendering⟩, rfl, hn, by rw [hw]⟩
  show w₀.user.alive = true
  rw [huser]
  exact ha

theorem Displays.upToDate [EntityCodec] {n : Nat} (hi : host.Interpolates (host.engine n) t)
    (hd : host.Displays (host.engine n) w new) : host.UpToDate (host.engine n) w new := by
  induction hd with
  | @mount h c _ _ new hu hn =>
    refine host.upToDate_of_update hi (w := host.start h c) rfl rfl hu hn ?_
    show (Node.patchAll AttrPatch.byName [] new).1 = new
    rw [Node.patchAll]
  | write t ht _ hc hw hn hs ih =>
    obtain ⟨stats, hu⟩ := host.call_eq_ok ht ih.alive hw hc
    obtain ⟨w₀, -, hold, -⟩ := ih.wanted
    refine host.upToDate_of_update hi ih.idle ih.alive hu hn ?_
    rw [ih.nodes]
    exact (hi.allKin hold hn).patchAll_eq hs
  | note c _ ih => exact ⟨ih.idle, ih.alive, ih.nodes, ih.wanted⟩

/-! ### A component with one label -/

/-- The text of a property of the state. -/
def label (h : Heap) : Value := .string ((Key.name "a").read h (.object 0)).plainText

/-- The host of a component that has a template and a label. -/
def labelled (template : String) : Host Unit :=
  .ofComponent
    { (still template).component with fields := .look fun w => pure [("a", label w.heap)] }

/-- Changes that keep all objects. -/
def objectsKept : Effect (HostWorld Unit) where
  rel w w' := w'.heap.objects = w.heap.objects
  refl _ := rfl
  trans h h' := h'.trans h

theorem labelled_shown_within [EntityCodec] (template source : String)
    (fields : Entries Value) (n : Nat) :
    ((labelled template).shown ((labelled template).engine n) source fields).Within
      objectsKept := by
  have hcall (rs : List ArrayId) (f : FunctionId) (args : List Value) (w : HostWorld Unit) :
    objectsKept.rel w
      (((labelled template).runtime ((labelled template).engine n)).call rs f args w).2 := rfl
  have henv : Env.Within objectsKept ⟨(labelled template).runtime ((labelled template).engine n),
      (labelled template).options ((labelled template).engine n), fields⟩ :=
    ⟨fun _ _ => rfl, hcall, fun v escape w => escapeHtml_within hcall v escape w⟩
  exact (Run.within_ofOutcome _).bind fun t =>
    Run.Within.bind (t.render_within henv) fun _ => Run.within_ofOutcome _

/-- Rendering a label changes no object, so it can be done again. -/
theorem steady_labelled [EntityCodec] (template : String) (n : Nat) :
    (labelled template).Steady ((labelled template).engine n) := by
  intro w w' _ _ hheap
  have hread (w : HostWorld Unit) :
      (labelled template).Reads ((labelled template).engine n) w template [("a", label w.heap)] w :=
    ⟨w, rfl, rfl⟩
  rw [wanted_of_reads (hread w)] at hheap
  have hlabel : label w'.heap = label w.heap := by
    have hobjects : w'.heap.objects = w.heap.objects :=
      (congrArg Heap.objects hheap).trans (labelled_shown_within template _ _ n w)
    unfold label Key.read Heap.entries
    rw [hobjects]
  rw [wanted_of_reads (hread w), wanted_of_reads (hread w'), hlabel]
  refine shown_alike (writesAlike_of_none rfl) (fun name => ?_) (Matching.holds_empty _ _) template
  unfold Entries.get?
  split
  · exact .some (.string _)
  · exact .none

/-- A label in a text, and once more in a quoted value. -/
def labelSource : String := "\x7b\x7ba\x7d\x7d<b id=\"\x7b\x7ba\x7d\x7d\"></b>z"

def labelTemplate : Template := ((Template.parse labelSource).toOption).getD ⟨[]⟩

theorem interpolates_labelled [EntityCodec] (n : Nat) :
    (labelled labelSource).Interpolates ((labelled labelSource).engine n) labelTemplate where
  source h := by
    cases h
    exact eq_ok_of_isOk (by decide +kernel) _
  simple := by decide +kernel
  placed := by
    have hitems : labelTemplate.segments.flatMap Segment.items =
        [.hole] ++ (.char '<' :: (ofChars ['b'] ++
          (ofChars ([' '] ++ ('i' :: (['d'] ++ ([] ++ '=' :: ([] ++ ['"']))))) ++
            ([.hole] ++ .char '"' ::
            (ofChars (Token.tagEnd [] false) ++
              (ofChars "</b>".toList ++ ([.char 'z'] ++ []))))))) := by
      decide +kernel
    have htag : Token.TagSource (.char '<' :: (ofChars ['b'] ++
        (ofChars ([' '] ++ ('i' :: (['d'] ++ ([] ++ '=' :: ([] ++ ['"']))))) ++
          ([.hole] ++ .char '"' ::
          (ofChars (Token.tagEnd [] false) ++ (ofChars "</b>".toList ++ ([.char 'z'] ++ [])))))))
        (Token.lower ['b']) [Token.lower ['i', 'd']] false (ofChars "</b>".toList ++
          ([.char 'z'] ++ [])) :=
      .mk rfl (List.forall_mem_nil _) (List.forall_mem_nil _)
        (.quoted (by decide) (List.forall_mem_singleton.2 rfl) rfl (List.forall_mem_singleton.2 rfl)
          (List.forall_mem_nil _) (List.forall_mem_nil _) (by decide) (.done _))
    rw [hitems]
    refine .text (by decide) (Or.inr rfl)
      (.opening htag (by decide) (by decide) (Or.inr (Or.inr (by decide))) ?_)
    refine .bare (t := .closing (Token.lower ['b'])) trivial (fun total r _ => rfl) ?_
    exact .text (by decide) (Or.inl rfl) .done
  inert := writesInert_of_none rfl

/-- The state with a label, and what writes another one. -/
def labelHeap (text : String) : Heap := ⟨#[], #[[("a", .string text)]]⟩

def relabel (text : String) : Trigger := .set (.object 0) (.name "a") (.string text)

/-! ### Views that keep up -/

/-- A host with interpolations shows what a new host shows that is mounted on the same state. -/
theorem html_in_sync [EntityCodec] (n : Nat) (hi : host.Interpolates (host.engine n) t)
    (hs : host.Steady (host.engine n)) (hd : host.Displays (host.engine n) w new) (c : σ) :
    ∃ stats w', host.update (host.engine n) (host.start w.heap c) = (.ok stats, w') ∧
      w'.user.document.html = w.user.document.html := by
  have hup := hd.upToDate host hi
  obtain ⟨w₀, hp, hn, hheap⟩ := hup.wanted
  have hn' :=
    (hs w₀ ⟨w.heap, (host.start w.heap c).user.withPhase .rendering⟩ hp rfl hheap).trans hn
  have hu := update_of_wanted (w := host.start w.heap c) rfl (Prod.ext hn' rfl)
  have hnew := host.upToDate_of_update hi (w := host.start w.heap c) rfl rfl hu hn' (by
    show (Node.patchAll AttrPatch.byName [] new).1 = new
    rw [Node.patchAll])
  exact ⟨_, _, hu, congrArg (Node.htmlAll false) (hnew.nodes.trans hup.nodes.symm)⟩

section

attribute [local instance] EntityCodec.common

/-- A host that has displayed a label and then another one. -/
theorem html_in_sync_labelled :
    ∃ (w w' : HostWorld Unit) (stats : PatchStats),
      (labelled labelSource).update ((labelled labelSource).engine 1)
        ((labelled labelSource).start w.heap ()) = (.ok stats, w') ∧
      w.user.document.html = "y<b id=\"y\"></b>z" ∧
      w'.user.document.html = "y<b id=\"y\"></b>z" := by
  let host := labelled labelSource
  let e := host.engine 1
  let w₀ := host.start (labelHeap "x") ()
  let w₁ := (host.update e w₀).2
  let w₂ := ((relabel "y").call host e w₁).2
  let h := ((relabel "y").written w₁.heap).toOption.getD ⟨#[], #[]⟩
  let old := (host.wanted e ⟨w₀.heap, w₀.user.withPhase .rendering⟩).1.ok?.getD []
  let new := (host.wanted e ⟨h, w₁.user.withPhase .rendering⟩).1.ok?.getD []
  have hmount : (host.update e w₀).1.ok?.isSome = true ∧
      (host.wanted e ⟨w₀.heap, w₀.user.withPhase .rendering⟩).1.ok?.isSome = true := by
        decide +kernel
  have hcall : ((relabel "y").call host e w₁).1.ok?.isSome = true := by decide +kernel
  have hwanted : (host.wanted e ⟨h, w₁.user.withPhase .rendering⟩).1.ok?.isSome = true := by
    decide +kernel
  have hwritten : (relabel "y").written w₁.heap = .ok h := eq_ok_of_isOk (by decide +kernel) _
  have hkind : Node.AllSameKind old new := by decide +kernel
  have hhtml : w₂.user.document.html = "y<b id=\"y\"></b>z" := by decide +kernel
  have hd₁ : host.Displays e w₁ old :=
    .mount (Prod.ext (Outcome.eq_ok_of_isSome hmount.1 .none) rfl)
      (Outcome.eq_ok_of_isSome hmount.2 [])
  have hd₂ : host.Displays e w₂ new :=
    .write (relabel "y") nofun hd₁ (Prod.ext (Outcome.eq_ok_of_isSome hcall ()) rfl) hwritten
      (Outcome.eq_ok_of_isSome hwanted []) hkind
  obtain ⟨stats, w', hu, hh⟩ := host.html_in_sync 1 (interpolates_labelled 1)
    (steady_labelled labelSource 1) hd₂ ()
  exact ⟨w₂, w', stats, hu, hhtml, hh.trans hhtml⟩

/-- Whether a host that has displayed a label and then another one shows something else than a new
host. -/
def OutOfSync (host : Host Unit) (old new : String) : Prop :=
  let mounted := host.update (host.engine 1) (host.start (labelHeap old) ())
  let written := (relabel new).call host (host.engine 1) mounted.2
  let fresh := host.update (host.engine 1) (host.start written.2.heap ())
  mounted.1.ok?.isSome ∧ written.1.ok?.isSome ∧ fresh.1.ok?.isSome ∧
    written.2.user.document.html ≠ fresh.2.user.document.html

/-- A host that writes values as they are. -/
def verbatim : Host Unit :=
  { labelled "<b id=\"\x7b\x7ba\x7d\x7d\"></b>" with escape := some fun v _ => pure v.plainText }

/-- A host whose component makes its label longer whenever it is read. -/
def growing : Host Unit := .ofComponent { (labelled labelSource).component with
  fields := .touch [] (fun h => (label h, labelHeap ((label h).plainText ++ "x"))) fun v =>
    pure [("a", v)] }

/-- A label that becomes empty leaves no text, so that texts face elements.  Written as it is, a
value brings attributes of its own, and if reading the label changes it, it has changed before a new
host reads it. -/
theorem html_out_of_sync :
    (∀ n, (labelled labelSource).Interpolates ((labelled labelSource).engine n) labelTemplate ∧
      (labelled labelSource).Steady ((labelled labelSource).engine n)) ∧
    OutOfSync (labelled labelSource) "x" "" ∧ OutOfSync verbatim "x" "y\" id=\"z" ∧
      OutOfSync growing "x" "y" := by
  refine ⟨fun n => ⟨interpolates_labelled n, steady_labelled labelSource n⟩, ?_⟩
  unfold OutOfSync
  decide +kernel

end

end Host

end LiveMarkup
