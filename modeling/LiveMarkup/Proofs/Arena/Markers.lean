import LiveMarkup.Markup.Reference
import LiveMarkup.Proofs.Arena.Reconcile
import LiveMarkup.Proofs.Document.Markers
import LiveMarkup.Template.Shorthand

/-!
# What reading the markers of an arena leaves

`Arena.bind` takes the first marker off each node and binds what these markers name.  A name may
occur twice in an element, and then the second marker stays in the tree and its pair is not bound.
So all markers are read just if no element has two of them (`Arena.bind_takes_first_markers`).
-/

namespace LiveMarkup

namespace Arena

open Attributes (names)

variable {L : Type} {a : Arena L} {d : Document L}

namespace Represents

theorem kind?_of_mem (h : a.Represents d) {n : Live L} (hn : n ∈ Live.subtrees d.children) :
    a.kind? n.id = some n.kind := by
  obtain ⟨hroot, hnodup⟩ := List.nodup_cons.1 h.nodup
  have hne : n.id ≠ rootId := fun heq => hroot (heq ▸ List.mem_map_of_mem hn)
  rw [h.kind?_eq hne, Document.find?_of_mem hnodup hn]
  rfl

theorem attrs_of_mem (h : a.Represents d) {n : Live L} (hn : n ∈ Live.subtrees d.children) :
    a.attrs n.id = n.attrs := by
  rw [attrs, h.kind?_of_mem hn]
  exact Live.attrs_kind n

theorem tag?_of_mem (h : a.Represents d) {n : Live L} (hn : n ∈ Live.subtrees d.children) :
    a.tag? n.id = n.tag? := by
  rw [tag?, h.kind?_of_mem hn]
  cases n <;> rfl

/-- The pairs that first markers name. -/
theorem exists_marker_iff (h : a.Represents d) {i : NodeId} {kind : String} :
    (∃ m ∈ d.markers, m.pair = (i, kind)) ↔ i ∈ d.ids ∧ ∃ marker method,
      a.attribute? i eventAttribute = some marker ∧ splitMarker? marker = some (kind, method) := by
  constructor
  · rintro ⟨m, hm, hpair⟩
    obtain ⟨n, hn, hmarker⟩ := List.mem_filterMap.1 hm
    obtain ⟨⟨kind', method⟩, hsplit, rfl⟩ := Option.map_eq_some_iff.1 hmarker
    obtain ⟨marker, hget, hsplit⟩ := Option.bind_eq_some_iff.1 hsplit
    cases hpair
    exact ⟨List.mem_map_of_mem hn, marker, method,
      by rw [attribute?, h.attrs_of_mem hn, hget], hsplit⟩
  · rintro ⟨hi, marker, method, hget, hsplit⟩
    obtain ⟨n, hn, rfl⟩ := List.mem_map.1 hi
    rw [attribute?, h.attrs_of_mem hn] at hget
    refine ⟨⟨n.id, kind, method⟩, List.mem_filterMap.2 ⟨n, hn, ?_⟩, rfl⟩
    rw [Live.marker?, hget, Option.bind_some, hsplit]
    rfl

/-- What is seen of an arena after the first marker has been taken off each node of the document. -/
theorem taken (h : a.Represents d) {a' : Arena L} {d' : Document L} (h' : a'.Represents d')
    (houtline : (Live.subtrees d'.children).map Live.outline =
      (Live.subtrees d.children).map Live.readOutline) :
    d'.ids = d.ids ∧ ∀ i ∈ d.ids, a'.tag? i = a.tag? i ∧
      a'.attrs i = Attributes.drop eventAttribute (a.attrs i) := by
  constructor
  · have hids := congrArg (List.map Prod.fst) houtline
    rwa [List.map_map, List.map_map] at hids
  · intro i hi
    obtain ⟨n, hn, rfl⟩ := List.mem_map.1 hi
    obtain ⟨n', hn', heq⟩ :=
      List.mem_map.1 (houtline ▸ List.mem_map_of_mem (f := Live.readOutline) hn)
    obtain ⟨hid, htag, hattrs⟩ : n'.id = n.id ∧ n'.tag? = n.tag? ∧ n'.attrs = _ := by
      simpa [Live.outline, Live.readOutline] using heq
    rw [h.tag?_of_mem hn, h.attrs_of_mem hn, ← hid, h'.tag?_of_mem hn', h'.attrs_of_mem hn']
    exact ⟨htag, hattrs⟩

end Represents

/-- Reading the markers of an arena takes the first marker off each node and binds what these first
markers name, besides what was bound before.  So markers are left just if some element has two of
them, and of an element that has only one the pair is bound. -/
theorem bind_takes_first_markers (h : a.WellFormed) (hissued : a.Issued) (r : Registry)
    (make : String → String → L) :
    ∃ below added a' r', a.descendants? rootId = some below ∧ a.bind r make = some (added, a', r') ∧
      (a'.WellFormed ∧ a'.Issued ∧ a'.descendants? rootId = some below) ∧
      (∀ i ∈ below, a'.tag? i = a.tag? i ∧
        a'.attrs i = Attributes.drop eventAttribute (a.attrs i)) ∧
      (∀ i kind, r'.contains i kind = true ↔ r.contains i kind = true ∨ i ∈ below ∧ ∃ marker method,
        a.attribute? i eventAttribute = some marker ∧ splitMarker? marker = some (kind, method)) ∧
      ((∀ i ∈ below, eventAttribute ∉ names (a'.attrs i)) ↔
        ∀ i ∈ below, (names (a.attrs i)).count eventAttribute ≤ 1) ∧
      ∀ i ∈ below, (names (a.attrs i)).count eventAttribute ≤ 1 →
        ∀ attr ∈ a.attrs i, attr.name = eventAttribute → ∀ kind method,
          splitMarker? attr.value = some (kind, method) → r'.contains i kind = true := by
  obtain ⟨d, hd⟩ := h.exists_represents hissued
  obtain ⟨houtline, hcontains, -, -⟩ := d.bind_reads_first_markers r make
  obtain ⟨a', ha', hbind⟩ := Holds.bind make (r := r) hd
  have hd' : a'.Represents (d.bind r make).2.1 := ha'
  obtain ⟨hids, hkept⟩ := hd.taken hd' houtline
  have hbound (i : NodeId) (kind : String) :=
    (hcontains i kind).trans (or_congr_right hd.exists_marker_iff)
  refine ⟨d.ids, _, a', _, hd.descendants?_root, hbind,
    ⟨hd'.wellFormed, hd'.issued, hids ▸ hd'.descendants?_root⟩, hkept, hbound,
    forall₂_congr fun i hi => ?_,
    fun i hi hcount attr hattr hname kind method hsplit => (hbound i kind).2 ?_⟩
  · rw [(hkept i hi).2, Attributes.mem_names_drop_self, Nat.not_lt]
  · rw [← hname] at hcount
    have hget := Attributes.get?_eq_of_mem hattr hcount
    rw [hname] at hget
    exact Or.inr ⟨hi, attr.value, method, hget, hsplit⟩

section

attribute [local instance] EntityCodec.common

/-- The arena that keeps a markup text with its shorthands written out. -/
def ofMarkup (source : String) : Arena String :=
  ofNodes ((Markup.parse (expandShorthand source)).toOption.getD [])

theorem bind_takes_first_markers_one_each :
    let a := ofMarkup "<b @click=\"add\"><i data-event=\"input,note,x\"></i></b>"
    a.descendants? rootId = some [1, 2] ∧ ∃ added a' r',
      a.bind .empty (fun _ method => method) = some (added, a', r') ∧
      (∀ i ∈ [1, 2], eventAttribute ∉ names (a'.attrs i)) ∧ r'.contains 1 "click" = true ∧
      r'.contains 2 "input" = true := by
  intro a
  obtain ⟨hbelow, hcount, hclick, hinput⟩ : a.descendants? rootId = some [1, 2] ∧
      (∀ i ∈ [1, 2], (names (a.attrs i)).count eventAttribute ≤ 1) ∧
      a.attrs 1 = [⟨eventAttribute, "click,add"⟩] ∧
      a.attrs 2 = [⟨eventAttribute, "input,note,x"⟩] := by decide +kernel
  obtain ⟨hwf, hissued, -, -⟩ := ofNodes_spec ((Markup.parse (expandShorthand
    "<b @click=\"add\"><i data-event=\"input,note,x\"></i></b>")).toOption.getD [])
  obtain ⟨below, added, a', r', hids, hbind, -, -, -, hleft, hbound⟩ :=
    bind_takes_first_markers hwf hissued .empty fun _ method => method
  cases hbelow.symm.trans hids
  refine ⟨hbelow, added, a', r', hbind, hleft.2 hcount, ?_, ?_⟩
  · exact hbound 1 (by decide) (hcount 1 (by decide)) ⟨eventAttribute,
      "click,add"⟩ (hclick ▸ List.mem_singleton_self _)
      rfl "click" "add" (by decide)
  · exact hbound 2 (by decide) (hcount 2 (by decide)) ⟨eventAttribute, "input,note,x"⟩
      (hinput ▸ List.mem_singleton_self _) rfl "input" "note,x" (by decide)

/-- Of two shorthands in an element the second one stays in the tree, and its pair is not bound. -/
theorem bind_leaves_second_marker :
    let a := ofMarkup "<b @click=\"add\" @input=\"note\"></b>"
    a.attrs 1 = [⟨eventAttribute, "click,add"⟩, ⟨eventAttribute, "input,note"⟩] ∧
      ((a.bind .empty fun _ method => method).map fun after =>
        (after.2.1.attribute? 1 eventAttribute, after.2.2.contains 1 "click",
          after.2.2.contains 1 "input")) = some (some "input,note", true, false) := by
  decide +kernel

end

end Arena

end LiveMarkup
