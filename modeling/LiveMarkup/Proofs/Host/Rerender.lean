import LiveMarkup.Markup.Reference
import LiveMarkup.Proofs.Eval.Alike
import LiveMarkup.Proofs.Host.Reachable

/-!
# Rendering again

A pass that finds what the last one found asks for the same nodes (`Host.shown_alike`), and these
are faced by what is displayed.  So it succeeds and keeps all identities, tags and texts;
`Host.update_again` says when it keeps the attributes too.  It does not always: the marker that is
read in one pass is missing in the next one, where attributes are compared by position
(`Host.update_again_marker_first`).
-/

namespace LiveMarkup

variable {σ : Type}

namespace Host

variable (host : Host σ) (e : Engine σ)

/-! ### What a pass reads -/

/-- The source and the fields that a pass reads, and the world after that. -/
def Reads (w : HostWorld σ) (source : String) (fields : Entries Value) (w' : HostWorld σ) : Prop :=
  ∃ w₀, host.source e w = (.ok source, w₀) ∧ host.component.fields.run e w₀ = (.ok fields, w')

/-- The nodes that a source asks for, given the fields. -/
def shown [EntityCodec] (source : String) (fields : Entries Value) :
    Run (HostWorld σ) Error (List Node) := do
  let t ← Run.ofOutcome ((Outcome.ofExcept (Template.parse source)).mapError .template)
  let text ← host.renderText e t fields
  Run.ofOutcome ((Outcome.ofExcept (Markup.parse text)).mapError .markup)

/-- A host that writes values in the same way if they are alike, and then leaves containers
alike. -/
def WritesAlike : Prop :=
  ∀ {m : Matching} {v v' : Value} {w w' : HostWorld σ} (escape : Bool),
    World.Alike m w w' → Value.Alike m v v' →
    ∃ m', m ≤ m' ∧ World.Alike m' ((host.options e).escape (host.runtime e) v escape w).2
        ((host.options e).escape (host.runtime e) v' escape w').2 ∧
      ((host.options e).escape (host.runtime e) v escape w).1 =
        ((host.options e).escape (host.runtime e) v' escape w').1

variable {host e}

/-- A host writes in this way unless it was told to write values in a way of its own. -/
theorem writesAlike_of_none (h : host.escape = none) : host.WritesAlike e := by
  intro m v v' w w' escape hw hv
  obtain ⟨t, ht, ht'⟩ : ∃ t, escapeHtml (host.runtime e) v escape w = (.ok t, w) ∧
      escapeHtml (host.runtime e) v' escape w' = (.ok t, w') := escapeHtml_alike hw escape hv
  unfold options
  rw [h]
  dsimp only
  rw [ht, ht']
  exact ⟨m, le_rfl, hw, rfl⟩

theorem wanted_of_reads [EntityCodec] {w w' : HostWorld σ} {source : String}
    {fields : Entries Value} (h : host.Reads e w source fields w') :
    host.wanted e w = host.shown e source fields w' := by
  obtain ⟨w₀, hs, hf⟩ := h
  have hrun : (e.run host.component.fields : Run (HostWorld σ) Error (Entries Value)) w₀ =
      (.ok fields, w') := by
    unfold Engine.run
    rw [hf]
    rfl
  exact (Run.bind_eq_of_ok hs).trans (Run.bind_eq_of_ok hrun)

theorem renderText_alike (hw : host.WritesAlike e) {m : Matching} {fields fields' : Entries Value}
    {w w' : HostWorld σ}
    (hf : ∀ name, Option.Rel (Value.Alike m) (Entries.get? name fields) (Entries.get? name fields'))
    (hm : World.Alike m w w') (t : Template) :
    (host.renderText e t fields w).1 = (host.renderText e t fields' w').1 := by
  have hE : Env.Alike m (⟨host.runtime e, host.options e, fields⟩ : Env (HostState σ))
      ⟨host.runtime e, host.options e, fields'⟩ :=
        ⟨hf, rfl, fun escape _ hw' hv => hw escape hw' hv⟩
  exact congrArg (Outcome.mapError Error.template) (Template.render_alike hE t hm)

/-- Fields that are alike ask for the same nodes. -/
theorem shown_alike [EntityCodec] (hw : host.WritesAlike e) {m : Matching}
    {fields fields' : Entries Value} {w w' : HostWorld σ}
    (hf : ∀ name, Option.Rel (Value.Alike m) (Entries.get? name fields) (Entries.get? name fields'))
    (hm : World.Alike m w w') (source : String) :
    (host.shown e source fields w).1 = (host.shown e source fields' w').1 := by
  refine Run.fst_bind_congr rfl fun t v v' h h' => Run.fst_bind_congr ?_ fun text _ _ _ _ => rfl
  obtain rfl : w = v := congrArg Prod.snd h
  obtain rfl : w' = v' := congrArg Prod.snd h'
  exact renderText_alike hw hf hm t

theorem update_eq_ok [EntityCodec] {w w₁ : HostWorld σ} {stats : PatchStats}
    (hp : w.user.phase = .idle) (h : host.update e w = (.ok stats, w₁)) :
    ∃ new w₀, host.wanted e ⟨w.heap, w.user.withPhase .rendering⟩ = (.ok new, w₀) ∧
      w₁ = ⟨w₀.heap, (w₀.user.display new).2.withPhase .idle⟩ := by
  rw [host.update_of_idle hp] at h
  rcases hw : host.wanted e ⟨w.heap, w.user.withPhase .rendering⟩ with ⟨new | err | _, w₀⟩
  · rw [host.pass_of_ok hw] at h
    cases h
    exact ⟨new, w₀, rfl, rfl⟩
  · rw [host.pass_of_error hw] at h
    cases h
  · rw [host.pass_of_stopped hw] at h
    cases h

theorem update_of_wanted [EntityCodec] {w w₀ : HostWorld σ} {new : List Node}
    (hp : w.user.phase = .idle)
    (hw : host.wanted e ⟨w.heap, w.user.withPhase .rendering⟩ = (.ok new, w₀)) :
    host.update e w =
      (.ok (w₀.user.display new).1, ⟨w₀.heap, (w₀.user.display new).2.withPhase .idle⟩) := by
  rw [host.update_of_idle hp, host.pass_of_ok hw]

end Host

mutual

theorem Live.bare_node {L : Type} : (l : Live L) → l.bare.node = l.node.bare
  | .text i ls t => rfl
  | .element i ls tag as cs => by
    rw [bare, node, node, Node.bare, nodes_bareAll cs]

theorem Live.nodes_bareAll {L : Type} :
    (ls : List (Live L)) → Live.nodes (Live.bareAll ls) = Node.bareAll (Live.nodes ls)
  | [] => rfl
  | l :: ls => by
    rw [bareAll, nodes_cons, nodes_cons, Node.bareAll, Live.bare_node l, Live.nodes_bareAll ls]

end

/-- Documents that differ in attributes and listeners alone are written in the same way just if they
have the same attributes. -/
theorem Document.html_eq_iff [EntityCodec] {L : Type} {d d' : Document L}
    (hp : Node.AllPlain (d.nodesOf rootId)) (hp' : Node.AllPlain (d'.nodesOf rootId))
    (hb : Live.bareAll d.children = Live.bareAll d'.children) :
    d.html = d'.html ↔ d.nodesOf rootId = d'.nodesOf rootId := by
  refine ⟨fun h => Node.eq_of_htmlAll_eq hp hp' ?_ h, congrArg (Node.htmlAll false)⟩
  have hn := congrArg Live.nodes hb
  rwa [Live.nodes_bareAll, Live.nodes_bareAll] at hn

namespace Host

variable (host : Host σ)

/-- A pass that finds the template and the fields of the last one unchanged succeeds and keeps all
identities, tags and texts.  It keeps the markup just if the attributes that are displayed are
settled for the nodes that both passes ask for. -/
theorem update_again [EntityCodec] (n : Nat) {w w₁ v v' : HostWorld σ} {stats : PatchStats}
    {source : String} {fields fields' : Entries Value} {m : Matching} (hr : host.Reachable w)
    (hu : host.update (host.engine n) w = (.ok stats, w₁))
    (hwrite : host.WritesAlike (host.engine n))
    (hread : host.Reads (host.engine n) ⟨w.heap, w.user.withPhase .rendering⟩ source fields v)
    (hread' : host.Reads (host.engine n) ⟨w₁.heap, w₁.user.withPhase .rendering⟩ source fields' v')
    (hf : ∀ name,
      Option.Rel (Value.Alike m) (Entries.get? name fields) (Entries.get? name fields'))
    (hm : World.Alike m v v') :
    ∃ new stats' w₂, (host.shown (host.engine n) source fields v).1 = .ok new ∧
      host.update (host.engine n) w₁ = (.ok stats', w₂) ∧
      Live.bareAll w₂.user.document.children = Live.bareAll w₁.user.document.children ∧
      (w₂.user.document.html = w₁.user.document.html ↔
        Node.AllSettled (w₁.user.document.nodesOf rootId) new) := by
  have hplain : Node.AllPlain (w₁.user.document.nodesOf rootId) := by
    have h := host.update_plainKept _ (host.engine_plainKept n) w hr.plain
    rwa [hu] at h
  obtain ⟨new, w₀, hw, rfl⟩ := update_eq_ok hr.idle hu
  have hshown : (host.shown (host.engine n) source fields v).1 = .ok new := by
    rw [← wanted_of_reads hread, hw]
  obtain ⟨w₂, hw₂⟩ : ∃ w₂, host.wanted (host.engine n) _ = (.ok new, w₂) :=
    ⟨_, Prod.ext (by rw [wanted_of_reads hread', ← shown_alike hwrite hf hm, hshown]) rfl⟩
  -- Reading what to display leaves the document alone.
  have hdoc : w₂.user.document = (w₀.user.display new).2.document := by
    have h := host.user_wanted (host.engine_inFlight n)
      (w := ⟨w₀.heap, ((w₀.user.display new).2.withPhase .idle).withPhase .rendering⟩)
      (by simp [HostState.withPhase])
    rw [hw₂] at h
    rw [h]
    rfl
  have hface : Node.AllFace (w₂.user.document.nodesOf rootId) new := by
    rw [hdoc]
    exact w₀.user.allFace_display new
  have hbare : Live.bareAll (w₂.user.display new).2.document.children =
      Live.bareAll (w₀.user.display new).2.document.children := by
    rw [w₂.user.bareAll_display new hface, hdoc]
  have hplain' : Node.AllPlain ((w₂.user.display new).2.document.nodesOf rootId) := by
    rw [HostState.nodesOf_display, hdoc]
    exact (hplain.patchAll (host.plain_of_wanted hw₂)).unmarkAll
  have hsame := w₂.user.nodesOf_display_eq_iff new hface
  rw [hdoc] at hsame
  exact ⟨new, _, _, hshown, update_of_wanted rfl hw₂, hbare,
    (Document.html_eq_iff hplain' hplain hbare).trans hsame⟩

section

attribute [local instance] EntityCodec.common

/-- The host of a component that has a template and nothing else. -/
def still (template : String) : Host Unit := .ofComponent {
  render := pure template
  css := ""
  fields := pure []
  methods := []
  functions := fun _ _ => pure .undefined
  connected := pure ()
  disconnected := pure ()
  adopted := pure ()
  attributeChanged := fun _ _ _ => pure () }

/-- A pass of such a host, and the world in which the first one finds itself. -/
def stillPass (template : String) : Run (HostWorld Unit) Error PatchStats :=
  (still template).update ((still template).engine 1)

def stillStart : HostWorld Unit := (still "").start ⟨#[], #[]⟩ ()

/-- A host with a field, whose marker stands behind the other attribute. -/
def markerLast : Host Unit := .ofComponent {
  (still "<b class=x @click=\"add\">\x7b\x7blabel\x7d\x7d</b>").component with
  fields := pure [("label", .string "on")] }

def markerLastPass : Run (HostWorld Unit) Error PatchStats :=
  markerLast.update (markerLast.engine 1)

/-- Where the marker stands last, nothing moves when it has been read. -/
theorem update_again_marker_last :
    ∃ stats w₁ stats' w₂ new, markerLastPass stillStart = (.ok stats, w₁) ∧
      markerLastPass w₁ = (.ok stats', w₂) ∧
      Live.bareAll w₂.user.document.children = Live.bareAll w₁.user.document.children ∧
      w₂.user.document.html = "<b class=\"x\">on</b>" ∧
      Node.AllSettled (w₁.user.document.nodesOf rootId) new := by
  have hok : (markerLastPass stillStart).1.ok? = some ⟨0, 0, 0, 0, 0, 1⟩ := by decide +kernel
  have hhtml : (markerLastPass stillStart).2.user.document.html = "<b class=\"x\">on</b>" ∧
      (markerLastPass (markerLastPass stillStart).2).2.user.document.html =
        "<b class=\"x\">on</b>" := by
    decide +kernel
  have hu : markerLastPass stillStart = (.ok _, _) := Prod.ext (Outcome.ok?_eq_some_iff.1 hok) rfl
  have hr : markerLast.Reachable stillStart := .start _ _
  have hfields (name : String) :
    Option.Rel (Value.Alike .empty) (Entries.get? name [("label", .string "on")])
      (Entries.get? name [("label", .string "on")]) := by
    by_cases hname : "label" = name <;> simp only [Entries.get?, hname, if_true, if_false]
    · exact .some (.string "on")
    · exact .none
  obtain ⟨new, stats', w₂, -, hu', hb, hh⟩ :=
    markerLast.update_again 1 hr hu (writesAlike_of_none rfl)
    ⟨_, rfl, rfl⟩ ⟨_, rfl, rfl⟩ hfields (Matching.holds_empty _ _)
  have hw : w₂ = (markerLastPass (markerLastPass stillStart).2).2 := (congrArg Prod.snd hu').symm
  have hlast : w₂.user.document.html = "<b class=\"x\">on</b>" := by rw [hw, hhtml.2]
  exact ⟨_, _, stats', w₂, new, hu, hu', hb, hlast, hh.1 (hlast.trans hhtml.1.symm)⟩

/-- A marker that stands first leaves its place to the next attribute, which is then written
over. -/
theorem update_again_marker_first :
    let pass := stillPass "<b @click=\"add\" class=x id=y></b>"
    (pass stillStart).1.ok?.isSome ∧ (pass (pass stillStart).2).1.ok?.isSome ∧
      (pass stillStart).2.user.document.html = "<b class=\"x\" id=\"y\"></b>" ∧
      (pass (pass stillStart).2).2.user.document.html = "<b class=\"click,add\" id=\"y\"></b>" := by
  decide +kernel

end

end Host

end LiveMarkup
