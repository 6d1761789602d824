import LiveMarkup.Markup.Reference
import LiveMarkup.Proofs.Document.Counterpart
import LiveMarkup.Proofs.Host.Listeners

/-!
# Markers and the pass that displays them

A pass puts new nodes over what is displayed, and a marker of a new element binds the live element
that stands for it only if the patch leaves it under the name of markers.
`Host.bound_by_marker_iff` says when this is so: always where the element is planted in this pass,
and otherwise just if the marker's slot lies behind the attributes that the live element had before.
A marker that faces an old attribute is written into that one and binds nothing
(`Host.marker_in_class`).
-/

namespace LiveMarkup

variable {σ : Type}

/-! ### One page -/

namespace Page

variable {p : Page} {log : List Binding} {new cs : List Node} {l : Live String} {tag : String}
  {as : List Attr}

/-- An element that stands for a new one is bound by the markers that were read for it before and by
the marker that it has after the patch. -/
theorem Bound.exists_tookFrom (h : p.Bound log)
    (hl : (l, .element tag as cs) ∈ Live.pairsAll (p.display new).document.children new)
    (htag : l.tag? = some tag) :
    ∃ l', l'.id = l.id ∧ Live.TookFrom p.document.next
      (Live.subtrees p.document.children) l' tag as ∧
      ∀ kind, (p.display new).document.listenersFor l.id kind =
        ((Binding.first? l.id kind log).or
          (Binding.first? l.id kind l'.marker?.toList)).toList := by
  obtain ⟨l', hl', hid, htag'⟩ :=
    Live.exists_pairsAll_of_bindAll (fun _ method => method) _ _ new hl
  have hmem : l' ∈ Live.subtrees (p.marked new).children := Live.mem_subtrees_of_pairsAll _ new hl'
  have hnd : (p.marked new).ids.Nodup := (Document.Bound.reconcile h new).ids_nodup
  have hin : (p.display new).document.contains l.id = true := by
    rw [Document.contains_iff]
    refine Or.inr ?_
    show l.id ∈ ((p.marked new).bind p.registry fun _ method => method).2.1.ids
    rw [Document.ids_bind, ← hid]
    exact List.mem_map_of_mem hmem
  refine ⟨l', hid, Live.tookFrom_patchAll _ (htag'.trans htag) _ new hl', fun kind => ?_⟩
  have hmarkers :
    Binding.first? l'.id kind (p.marked new).markers =
      Binding.first? l'.id kind l'.marker?.toList :=
    Live.first?_markers_of_mem hnd hmem kind
  rw [(h.display new).listenersFor_eq hin, Binding.first?_append, ← hid, hmarkers]

/-- The method that the marker of a node names for a kind of event. -/
theorem first?_marker? (l : Live String) (kind : String) :
    Binding.first? l.id kind l.marker?.toList =
    (((Attributes.get? eventAttribute l.attrs).bind splitMarker?).filter fun km =>
      km.1 = kind).map Prod.snd := by
  unfold Live.marker?
  rcases (Attributes.get? eventAttribute l.attrs).bind splitMarker? with _ | ⟨kind', method⟩
  · rfl
  · by_cases hk : kind' = kind
    · simp [Binding.first?, Binding.pair, Option.filter, hk]
    · simp [Binding.first?, Binding.pair, Option.filter, hk]

variable {slot : Nat} {marker kind method : String}

/-- An element that is planted has the listener that its marker asks for. -/
theorem Bound.listenersFor_planted (h : p.Bound log)
    (hl : (l, .element tag as cs) ∈ Live.pairsAll (p.display new).document.children new)
    (htag : l.tag? = some tag) (hm : Attributes.SoleMarker as slot marker)
    (hsplit : splitMarker? marker = some (kind, method))
    (hnew : p.document.contains l.id = false) :
    (p.display new).document.listenersFor l.id kind = [method] := by
  obtain ⟨l', hid, htook, hlisteners⟩ := h.exists_tookFrom hl htag
  rw [← Bool.not_eq_true, Document.contains_iff, not_or] at hnew
  rcases htook with ⟨hge, has⟩ | ⟨o, ho, hoid, -⟩
  · have hnone : Binding.first? l.id kind log = none := by
      refine Binding.first?_eq_none fun m hmem => Nat.ne_of_lt ?_
      rw [← hid]
      exact Nat.lt_of_lt_of_le (h.log_between m hmem).2 hge
    rw [hlisteners, hnone, Option.none_or, ← hid, first?_marker?, has, hm.get?_eq,
      Option.bind_some, hsplit]
    simp
  · exact absurd (hoid.trans hid ▸ List.mem_map_of_mem ho) hnew.2

/-- An element that was there before has a listener if it had one, or if the patch gave it a marker
for one. -/
theorem Bound.listenersFor_kept_iff (h : p.Bound log)
    (hl : (l, .element tag as cs) ∈ Live.pairsAll (p.display new).document.children new)
    (htag : l.tag? = some tag) (hold : p.document.contains l.id = true) (kind : String) :
    (p.display new).document.listenersFor l.id kind ≠ [] ↔ p.document.listenersFor l.id kind ≠ [] ∨
      ∃ method,
        (Attributes.get? eventAttribute (AttrPatch.byName (p.document.attrs l.id) as).attrs).bind
          splitMarker? =
        some (kind, method) := by
  obtain ⟨l', hid, htook, hlisteners⟩ := h.exists_tookFrom hl htag
  have hroot : l.id ≠ rootId := by
    rcases htook with ⟨hge, -⟩ | ⟨o, ho, hoid, -⟩
    · have := h.root_lt_next
      lia
    · rw [← hid, ← hoid]
      exact Nat.ne_of_gt (h.ids_between o.id (List.mem_map_of_mem ho)).1
  have hmem := (Document.contains_iff.1 hold).resolve_left hroot
  have hlt := (h.ids_between l.id hmem).2
  rcases htook with ⟨hge, -⟩ | ⟨o, ho, hoid, -, hattrs⟩
  · lia
  · have hfind := Document.find?_of_mem h.ids_nodup ho
    rw [hoid, hid] at hfind
    have has : p.document.attrs l.id = o.attrs := by
      unfold Document.attrs
      rw [if_neg hroot, hfind]
      rfl
    rw [hlisteners, h.listenersFor_eq hold, ← hid, first?_marker?, hattrs, hid, has]
    rcases Binding.first? l.id kind log with _ | method
    · rcases (Attributes.get? eventAttribute (AttrPatch.byName o.attrs as).attrs).bind splitMarker?
        with _ | ⟨kind', method⟩
      · simp
      · by_cases hk : kind' = kind
        · simp [hk]
        · simp [hk]
    · simp

/-- An element that was there before without a marker has a listener if it had one, or if the marker
stands behind the attributes that it had. -/
theorem Bound.listenersFor_unmarked_iff (h : p.Bound log)
    (hl : (l, .element tag as cs) ∈ Live.pairsAll (p.display new).document.children new)
    (htag : l.tag? = some tag) (hm : Attributes.SoleMarker as slot marker)
    (hsplit : splitMarker? marker = some (kind, method)) (hold : p.document.contains l.id = true)
    (hunmarked : eventAttribute ∉ Attributes.names (p.document.attrs l.id)) :
    (p.display new).document.listenersFor l.id kind ≠ [] ↔
      p.document.listenersFor l.id kind ≠ [] ∨ (p.document.attrs l.id).length ≤ slot := by
  rw [h.listenersFor_kept_iff hl htag hold, hm.get?_byName hunmarked]
  refine or_congr_right ?_
  split_ifs with hle
  · rw [Option.bind_some, hsplit]
    simp [hle]
  · simp [hle]

end Page

/-! ### Runs -/

namespace Host

variable (host : Host σ)

/-- In every run and for every pass in it that succeeds: take an element of the new nodes with just
one marker, and the live element of its tag that stands for it after the pass.  If it is new, it has
the listener that the marker asks for. If it was there before, it has a listener for this kind of
event just if it had one before, or if the patch left a marker for this kind under the name of
markers; if no marker was left on it by an earlier pass, this means that the marker stands behind
all attributes that it had. -/
theorem bound_by_marker_iff [EntityCodec] (n : Nat) (h : Heap) (c : σ) :
    (∀ calls, ∃ ps,
      host.Passes (host.start h c) ps (Call.afterAll host (host.engine n) (host.start h c) calls)) ∧
    ∀ ps w k new, host.Passes (host.start h c) ps w → host.shownBy (host.engine k) w = some new →
      ∀ w', (host.update (host.engine k) w).2 = w' →
      ∀ l tag as cs slot marker kind method,
        (l, .element tag as cs) ∈ Live.pairsAll w'.user.document.children new → l.tag? = some tag →
        Attributes.SoleMarker as slot marker → splitMarker? marker = some (kind, method) →
        (w.user.document.contains l.id = false →
          w'.user.document.listenersFor l.id kind = [method]) ∧
        (w.user.document.contains l.id = true →
          (w'.user.document.listenersFor l.id kind ≠ [] ↔
            w.user.document.listenersFor l.id kind ≠ [] ∨
            ∃ method', (Attributes.get? eventAttribute
              (AttrPatch.byName (w.user.document.attrs l.id) as).attrs).bind splitMarker? =
                some (kind, method')) ∧
          (eventAttribute ∉ Attributes.names (w.user.document.attrs l.id) →
            (w'.user.document.listenersFor l.id kind ≠ [] ↔
              w.user.document.listenersFor l.id kind ≠ [] ∨
              (w.user.document.attrs l.id).length ≤ slot))) := by
  refine ⟨Call.exists_passes_all host n _, ?_⟩
  intro ps w k new hps hshown w' hw' l tag as cs slot marker kind method hl htag hm hsplit
  have hbound : w.user.page.Bound (Page.empty.read (allShown ps)) := by
    have hpage : w.user.page = Page.empty.after (allShown ps) := hps.page_eq
    rw [hpage]
    exact Page.bound_after_empty (allShown ps)
  have hidle : w.user.phase = .idle := (hps.renders_eq rfl).1
  have hdocument : w'.user.document = (w.user.page.display new).document := by
    have hpass :
      host.Passes w [host.shownBy (host.engine k) w] (host.update (host.engine k) w).2 := by
      rw [← host.engine_lock_nil k]
      exact (Passes.refl w).pass k [] hidle
    have hpage := hpass.page_eq
    rw [hshown, hw'] at hpage
    exact congrArg Page.document hpage
  rw [hdocument] at hl ⊢
  exact ⟨hbound.listenersFor_planted hl htag hm hsplit, fun hold =>
    ⟨hbound.listenersFor_kept_iff hl htag hold kind,
      hbound.listenersFor_unmarked_iff hl htag hm hsplit hold⟩⟩

section

attribute [local instance] EntityCodec.common

/-- A host whose component asks for an element with a class first, and then for a markup text. -/
def relabelled (second : String) : Host Nat := .ofComponent {
  render := .look fun w => .keep (· + 1) (pure (match w.user.component with
    | 0 => "<b class=\"x\"></b>"
    | _ => second))
  css := ""
  fields := pure []
  methods := []
  functions := fun _ _ => pure .undefined
  connected := pure ()
  disconnected := pure ()
  adopted := pure ()
  attributeChanged := fun _ _ _ => pure () }

/-- The world of this host after some passes. -/
def relabelledAfter (second : String) : Nat → HostWorld Nat
  | 0 => (relabelled second).start ⟨#[], #[]⟩ 0
  | n + 1 =>
    ((relabelled second).update ((relabelled second).engine 1) (relabelledAfter second n)).2

/-- What its second pass displays. -/
def relabelledShown (second : String) : Option (List Node) :=
  (relabelled second).shownBy ((relabelled second).engine 1) (relabelledAfter second 1)

theorem relabelled_passes (second : String) :
    ∃ ps, (relabelled second).Passes ((relabelled second).start ⟨#[], #[]⟩ 0) ps
      (relabelledAfter second 1) :=
  ⟨_, (Passes.refl _).pass 1 [] rfl⟩

/-- A marker behind the class binds the element. -/
theorem bound_by_marker_iff_behind :
    let second := "<b class=\"x\" @click=\"add\"></b>"
    (relabelledAfter second 1).user.document.contains 1 = true ∧
      (relabelledAfter second 1).user.document.attrs 1 = [⟨"class", "x"⟩] ∧
      (relabelledAfter second 2).user.document.listenersFor 1 "click" ≠ [] := by
  intro second
  obtain ⟨ps, hps⟩ := relabelled_passes second
  have hshown : relabelledShown second =
      some [.element "b" [⟨"class", "x"⟩, ⟨eventAttribute, "click,add"⟩] []] := by decide +kernel
  have hpairs : (Live.pairsAll (relabelledAfter second 2).user.document.children
      [.element "b" [⟨"class", "x"⟩, ⟨eventAttribute, "click,add"⟩] []]).map
        (fun p => ((p.1.id, p.1.tag?), p.2)) =
      [((1, some "b"), .element "b" [⟨"class", "x"⟩, ⟨eventAttribute, "click,add"⟩] [])] := by
        decide +kernel
  have hin : (relabelledAfter second 1).user.document.contains 1 = true ∧
      (relabelledAfter second 1).user.document.attrs 1 = [⟨"class", "x"⟩] := by decide +kernel
  obtain ⟨⟨l, n⟩, hl, heq⟩ : ∃ p ∈ Live.pairsAll (relabelledAfter second 2).user.document.children
      [.element "b" [⟨"class", "x"⟩, ⟨eventAttribute, "click,add"⟩] []],
        ((p.1.id, p.1.tag?), p.2) =
          ((1, some "b"), .element "b" [⟨"class", "x"⟩, ⟨eventAttribute, "click,add"⟩] []) :=
    List.mem_map.1 (by rw [hpairs]; exact List.mem_singleton.2 rfl)
  obtain ⟨hidtag, rfl⟩ := Prod.mk.inj heq
  obtain ⟨hid, htag⟩ := Prod.mk.inj hidtag
  have hm : Attributes.SoleMarker [⟨"class", "x"⟩, ⟨eventAttribute, "click,add"⟩] 1 "click,add" :=
    ⟨[⟨"class", "x"⟩], [], rfl, rfl, by decide, by decide⟩
  obtain ⟨-, hruns⟩ := (relabelled second).bound_by_marker_iff 1 ⟨#[], #[]⟩ 0
  obtain ⟨-, hkept⟩ :=
    hruns ps _ 1 _ hps hshown _ rfl l "b" _ [] 1 "click,add" "click" "add" hl htag hm (by decide)
  obtain ⟨-, hunmarked⟩ := hkept (by rw [hid]; exact hin.1)
  rw [hid, hin.2] at hunmarked
  exact ⟨hin.1, hin.2, (hunmarked (by decide)).2 (Or.inr (by decide))⟩

/-- A marker that faces the class goes into it, and the element has no listener. -/
theorem marker_in_class :
    let second := "<b @click=\"add\"></b>"
    relabelledShown second = some [.element "b" [⟨eventAttribute, "click,add"⟩] []] ∧
      (relabelledAfter second 2).user.document.tag? 1 = some "b" ∧
      (relabelledAfter second 2).user.document.ids = [1] ∧
      (relabelledAfter second 2).user.document.html = "<b class=\"click,add\"></b>" ∧
      (relabelledAfter second 2).user.document.listenersFor 1 "click" = [] := by
  decide +kernel

end

end Host

end LiveMarkup
