import LiveMarkup.Markup.Reference
import LiveMarkup.Proofs.Document.Bound
import LiveMarkup.Proofs.Document.Repatch
import LiveMarkup.Proofs.Markup.RoundTrip
import LiveMarkup.Proofs.Template.Shorthand
import Mathlib.Data.List.Infix
import Mathlib.Data.List.ReduceOption

/-!
# From a shorthand to a listener

In a `Labelled` tree any element may have a label, a kind of event with a method.  Written with a
shorthand for each label, the tree becomes the same tree with markers for shorthands when these are
written out (`Labelled.expands_charsAll`), and that is still in normal form, so it is what is read.
A document that displays it has the labels as its markers, node by node in preorder
(`Labelled.map_label?_subtrees`).  All its nodes are new, and so reading its markers binds each of
them (`Live.readAll_of_fresh`) and leaves the tree without labels (`Labelled.bindsEach_reconcile`).
-/

namespace LiveMarkup

/-- A markup tree in which elements may have a label, which is a kind of event with a method. -/
inductive Labelled where
  | text (value : String)
  | element (label : Option (String × String)) (tag : String) (attrs : List Attr)
    (children : List Labelled)

namespace Labelled

mutual

/-- A node, in which labels are attributes in front of the others. -/
def node (f : String × String → List Attr) : Labelled → Node
  | text t => .text t
  | element label tag as cs => .element tag (label.elim [] f ++ as) (nodes f cs)

/-- Several nodes, in which labels are attributes in front of the others. -/
def nodes (f : String × String → List Attr) : List Labelled → List Node
  | [] => []
  | n :: ns => n.node f :: nodes f ns

end

mutual

/-- The labels in a subtree in preorder; nodes without a label are counted too. -/
def labels : Labelled → List (Option (String × String))
  | text _ => [none]
  | element label _ _ cs => label :: labelsAll cs

/-- The labels in several subtrees in preorder; nodes without a label are counted too. -/
def labelsAll : List Labelled → List (Option (String × String))
  | [] => []
  | n :: ns => n.labels ++ labelsAll ns

end

/-- A label as a shorthand: an attribute whose name starts with an at sign. -/
def shorthand (label : String × String) : List Attr := [⟨"@" ++ label.1, label.2⟩]

/-- A label as a marker. -/
def marker (label : String × String) : List Attr := [⟨eventAttribute, label.1 ++ "," ++ label.2⟩]

/-- Nodes without their labels. -/
def plain (ls : List Labelled) : List Node := nodes (fun _ => []) ls

/-- Nodes with a shorthand for each label. -/
def short (ls : List Labelled) : List Node := nodes shorthand ls

/-- Nodes with a marker for each label. -/
def marked (ls : List Labelled) : List Node := nodes marker ls

/-- Whether a label can be written as a shorthand. -/
def IsPair (label : String × String) : Prop := Shorthand.IsPair label.1.toList label.2.toList

variable {f g : String × String → List Attr} {label : String × String}

/-- Nothing stands for a label in the tree alone. -/
theorem elim_nil_append (label : Option (String × String)) (as : List Attr) :
    label.elim [] (fun _ => []) ++ as = as := by
  cases label <;> rfl

/-! ### Writing out the shorthands -/

theorem IsPair.not_mem (h : IsPair label) {c : Char} (hlower : c.isLower = false)
    (hword : (isWord c || c == '$') = false) : c ∉ label.1.toList ∧ c ∉ label.2.toList :=
  ⟨h.not_mem_kind hlower, h.not_mem_method hword⟩

/-- Nothing in a label has to be encoded. -/
theorem IsPair.encodeAttribute_eq [EntityCodec] (h : IsPair label) {s : List Char}
    (hs : ∀ c ∈ s, c = ',' ∨ c ∈ label.1.toList ∨ c ∈ label.2.toList) :
    EntityCodec.encodeAttribute s = s := by
  refine EntityCodec.encodeAttribute_self fun c hc hm => ?_
  have hno : c ≠ ',' ∧ c ∉ label.1.toList ∧ c ∉ label.2.toList := by
    simp only [List.mem_cons, List.not_mem_nil, or_false] at hm
    rcases hm with rfl | rfl | rfl | rfl <;> exact ⟨by decide, h.not_mem (by decide) (by decide)⟩
  rcases hs c hc with hc | hc | hc
  · exact hno.1 hc
  · exact hno.2.1 hc
  · exact hno.2.2 hc

theorem IsPair.chars_shorthand [EntityCodec] (h : IsPair label) :
    (shorthand label).flatMap Attr.chars = ' ' ::
      Shorthand.chars label.1.toList label.2.toList := by
  have hvalue : EntityCodec.encodeAttribute label.2.toList = label.2.toList :=
    h.encodeAttribute_eq fun c hc => Or.inr (Or.inr hc)
  simp [shorthand, Attr.chars, hvalue, Shorthand.chars]

theorem IsPair.chars_marker [EntityCodec] (h : IsPair label) :
    (marker label).flatMap Attr.chars = ' ' :: Shorthand.marker label.1.toList label.2.toList := by
  have hvalue : EntityCodec.encodeAttribute (label.1.toList ++ ',' :: label.2.toList) =
      label.1.toList ++ ',' :: label.2.toList := by
    refine h.encodeAttribute_eq fun c hc => ?_
    rw [List.mem_append, List.mem_cons] at hc
    exact or_left_comm.1 hc
  simp [marker, Attr.chars, hvalue, Shorthand.marker]

theorem expands_openTag [EntityCodec] {label : Option (String × String)} {tag : String}
    {as : List Attr} (hlabel : ∀ km ∈ label, IsPair km) (hat : '@' ∉ openTag tag as) :
    Shorthand.Expands (openTag tag (label.elim [] shorthand ++ as))
    (openTag tag (label.elim [] marker ++ as)) := by
  cases label with
  | none => exact Shorthand.expands_self hat
  | some km =>
    have hkm := hlabel km rfl
    have hopen (bs : List Attr) : openTag tag (bs ++ as) =
        ('<' :: tag.toList) ++ (bs.flatMap Attr.chars ++ (as.flatMap Attr.chars ++ ['>'])) := by
      simp [openTag]
    have hsplit := hopen []
    rw [List.nil_append] at hsplit
    rw [hsplit, List.mem_append, List.mem_append, not_or, not_or] at hat
    have hshort :
      Shorthand.Expands ((shorthand km).flatMap Attr.chars) ((marker km).flatMap Attr.chars) := by
      rw [hkm.chars_shorthand, hkm.chars_marker]
      exact (Shorthand.expands_self (s := [' ']) (by decide)).append (Shorthand.expands_chars hkm)
    show Shorthand.Expands (openTag tag (shorthand km ++ as)) (openTag tag (marker km ++ as))
    rw [hopen, hopen]
    exact (Shorthand.expands_self hat.1).append (hshort.append (Shorthand.expands_self hat.2.2))

mutual

theorem expands_chars [EntityCodec] (raw : Bool) :
    (l : Labelled) → (∀ km, some km ∈ l.labels → IsPair km) →
    '@' ∉ (l.node fun _ => []).chars raw →
    Shorthand.Expands ((l.node shorthand).chars raw) ((l.node marker).chars raw)
  | text t, _, hat => Shorthand.expands_self hat
  | element label tag as cs, hl, hat => by
    rw [labels] at hl
    rw [node, elim_nil_append, Node.chars, List.mem_append, not_or] at hat
    rw [node, node, Node.chars, Node.chars]
    refine (expands_openTag (fun km hkm => hl km ?_) hat.1).append ?_
    · rw [Option.mem_def.1 hkm]
      exact List.mem_cons_self
    · split_ifs with hv
      · exact Shorthand.expands_self List.not_mem_nil
      · rw [if_neg hv, List.mem_append, not_or] at hat
        have hcs :=
          expands_charsAll (isRawText tag) cs (fun km hkm =>
            hl km (List.mem_cons_of_mem _ hkm)) hat.2.1
        exact hcs.append (Shorthand.expands_self hat.2.2)

/-- Where the rest of the markup has no at sign, just the shorthands are written out. -/
theorem expands_charsAll [EntityCodec] (raw : Bool) :
    (ls : List Labelled) → (∀ km, some km ∈ labelsAll ls → IsPair km) →
    '@' ∉ Node.charsAll raw (plain ls) →
    Shorthand.Expands (Node.charsAll raw (short ls)) (Node.charsAll raw (marked ls))
  | [], _, hat => Shorthand.expands_self hat
  | l :: ls, hl, hat => by
    rw [labelsAll] at hl
    rw [plain, nodes, Node.charsAll, List.mem_append, not_or] at hat
    rw [short, marked, nodes, nodes, Node.charsAll, Node.charsAll]
    refine (expands_chars raw l (fun km hkm => hl km (List.mem_append_left _ hkm)) hat.1).append ?_
    exact expands_charsAll raw ls (fun km hkm => hl km (List.mem_append_right _ hkm)) hat.2

end

/-! ### Markers in normal form -/

theorem isRawContent_nodes {tag : String} {cs : List Labelled}
    (h : Node.IsRawContent tag (nodes f cs)) :
    Node.IsRawContent tag (nodes g cs) := by
  match cs with
  | [] => exact .nil
  | [text t] => exact h
  | [element label tag as cs] =>
    rw [nodes, node] at h
    cases h
  | l :: l' :: ls =>
    rw [nodes, nodes] at h
    generalize l.node f = n at h
    cases h

theorem isText_node (l : Labelled) : (l.node f).isText = (l.node g).isText := by
  cases l <;> rfl

mutual

theorem normal_node (hg : ∀ km, ∀ a ∈ g km, IsAttrName a.name) :
    (l : Labelled) → (l.node f).Normal →
    (l.node g).Normal
  | text t, h => h
  | element label tag as cs, h => by
    rw [node, Node.Normal] at h ⊢
    obtain ⟨htag, has, hvoid, hraw, hcs⟩ := h
    rw [List.forall_mem_append] at has ⊢
    refine ⟨htag, ⟨?_, has.2⟩, fun hv => ?_, fun hr => isRawContent_nodes (hraw hr), fun hr => ?_⟩
    · cases label with
      | none => exact List.forall_mem_nil _
      | some km => exact hg km
    · cases cs with
      | nil => rfl
      | cons l ls => cases hvoid hv
    · exact allNormal_nodes hg cs (hcs hr)

/-- Whether nodes are in normal form does not depend on how labels are written, if they are
attributes. -/
theorem allNormal_nodes (hg : ∀ km, ∀ a ∈ g km, IsAttrName a.name) : (ls : List Labelled) →
    Node.AllNormal (nodes f ls) → Node.AllNormal (nodes g ls)
  | [], h => h
  | l :: ls, h => by
    rw [nodes, Node.AllNormal] at h ⊢
    refine ⟨normal_node hg l h.1, ?_, allNormal_nodes hg ls h.2.2⟩
    cases ls with
    | nil => exact fun m hm => absurd hm (Option.not_mem_none m)
    | cons l' ls =>
      intro m hm hboth
      cases hm
      refine h.2.1 _ rfl ?_
      rwa [isText_node l, isText_node l']

end

theorem parse_expand_short [EntityCodec] {ls : List Labelled} (hnormal : Node.AllNormal (plain ls))
    (hat : '@' ∉ Node.charsAll false (plain ls)) (hl : ∀ km, some km ∈ labelsAll ls → IsPair km) :
    Markup.parse (expandShorthand (String.join ((short ls).map Node.html))) = .ok (marked ls) := by
  have hmarked : Node.AllNormal (marked ls) := by
    have hname : IsAttrName eventAttribute := by decide
    refine allNormal_nodes (fun km a ha => ?_) ls hnormal
    rwa [List.mem_singleton.1 ha]
  unfold Markup.parse expandShorthand
  rw [Node.toList_join_html, String.toList_ofList, (expands_charsAll false ls hl hat).expand_eq]
  exact (Node.writes_charsAll _ hmarked).parseChars

end Labelled

/-! ### Reading the markers of new nodes -/

namespace Live

variable {L : Type} (make : String → String → L) {b : Binder}

/-- The kind of event and the method that the marker of a node names. -/
def label? (n : Live L) : Option (String × String) :=
  (Attributes.get? eventAttribute n.attrs).bind splitMarker?

/-- The listeners that a label asks for. -/
def asked (make : String → String → L) (label : Option (String × String)) : Listeners L :=
  (label.map fun km => (km.1, make km.1 km.2)).toList

/-- What is attached to a node for a label. -/
def binding? (i : NodeId) (label : Option (String × String)) : Option Binding :=
  label.map fun km => ⟨i, km.1, km.2⟩

theorem marker?_eq (n : Live L) : n.marker? = binding? n.id n.label? := rfl

/-- The marker of a node that is not bound yet is bound. -/
theorem readOne_of_fresh {n : Live L} (hfree : ∀ kind, b.registry.contains n.id kind = false)
    (hl : n.listeners = []) :
    (readOne make b n).1 = asked make n.label? ∧
      (readOne make b n).2.attached = n.marker?.toList ++ b.attached ∧
      ∀ i kind, i ≠ n.id → (readOne make b n).2.registry.contains i kind =
        b.registry.contains i kind := by
  unfold readOne
  rw [marker?_eq]
  rcases n.label? with _ | ⟨k, m⟩
  · exact ⟨hl, rfl, fun _ _ _ => rfl⟩
  · simp only [binding?, Option.map_some, hfree, hl]
    refine ⟨rfl, rfl, fun i kind hi => ?_⟩
    have hne : (n.id, k) ≠ (i, kind) := fun he => hi (Prod.mk.inj he).1.symm
    simp only [Bool.false_eq_true, if_false]
    rw [Registry.contains_insert, decide_eq_false hne, Bool.false_or]

/-- The markers of distinct nodes that are not bound yet are bound, all of them and in their
order. -/
theorem readAll_of_fresh {ns : List (Live L)} (hnd : (ns.map id).Nodup)
    (hfree : ∀ n ∈ ns, ∀ kind, b.registry.contains n.id kind = false)
    (hl : ∀ n ∈ ns, n.listeners = []) :
    (readAll make b ns).1 = ns.map (fun n => (n.id, asked make n.label?)) ∧
      (readAll make b ns).2.attached = (ns.filterMap marker?).reverse ++ b.attached := by
  induction ns generalizing b with
  | nil => exact ⟨rfl, rfl⟩
  | cons n ns ih =>
    rw [List.forall_mem_cons] at hfree hl
    rw [List.map_cons, List.nodup_cons] at hnd
    obtain ⟨hone, hattached, hother⟩ := readOne_of_fresh make hfree.1 hl.1
    have hrest : ∀ n' ∈ ns, ∀ kind, (readOne make b n).2.registry.contains n'.id kind = false := by
      intro n' hn' kind
      rw [hother _ _ fun he => hnd.1 (he ▸ List.mem_map_of_mem hn')]
      exact hfree.2 n' hn' kind
    obtain ⟨hlisteners, hall⟩ := ih hnd.2 hrest hl.2
    refine ⟨?_, ?_⟩
    · rw [readAll, List.map_cons, hlisteners, hone]
    · rw [readAll, hall, hattached]
      cases hm : n.marker? <;> simp [hm]

end Live

namespace Labelled

variable {L : Type}

/-! ### The markers of a tree -/

theorem splitMarker?_of_isPair {km : String × String} (h : IsPair km) :
    splitMarker? (km.1 ++ "," ++ km.2) = some km := by
  have hcomma : ¬[','] <:+: km.1.toList := by
    rw [List.singleton_infix_iff]
    exact (h.not_mem (by decide) (by decide)).1
  have hs : (km.1 ++ "," ++ km.2).toList = km.1.toList ++ ([','] ++ km.2.toList) := by simp
  unfold splitMarker?
  rw [hs, Token.splitAt?_append List.not_mem_nil hcomma]
  simp

mutual

theorem map_label?_subtree : {l : Live L} → {n : Labelled} → l.node = n.node marker →
    (n.node fun _ => []).Unmarked → (∀ km, some km ∈ n.labels → IsPair km) →
    l.subtree.map Live.label? = n.labels
  | .text i ls t, text t', _, _, _ => rfl
  | .text i ls t, element label tag as cs, h, _, _ => by cases h
  | .element i ls tag as cs, text t, h, _, _ => by cases h
  | .element i ls tag as cs, element label tag' as' cs', h, hunmarked, hl => by
    rw [Live.node, node, Node.element.injEq] at h
    obtain ⟨-, rfl, hcs⟩ := h
    rw [node, elim_nil_append, Node.Unmarked] at hunmarked
    rw [labels] at hl ⊢
    have hlabel : Live.label? (.element i ls tag (label.elim [] marker ++ as') cs) = label := by
      cases label with
      | none =>
        unfold Live.label?
        rw [Live.attrs, Option.elim_none, List.nil_append,
          Attributes.get?_eq_none_iff.2 hunmarked.1, Option.bind_none]
      | some km => exact splitMarker?_of_isPair (hl km List.mem_cons_self)
    rw [Live.subtree_element, List.map_cons, hlabel,
      map_label?_subtrees hcs hunmarked.2 fun km hkm => hl km (List.mem_cons_of_mem _ hkm)]

/-- The labels of a tree are the markers of the nodes that display it, in preorder. -/
theorem map_label?_subtrees : {ls : List (Live L)} → {ns : List Labelled} →
    Live.nodes ls = marked ns →
    Node.AllUnmarked (plain ns) → (∀ km, some km ∈ labelsAll ns → IsPair km) →
    (Live.subtrees ls).map Live.label? = labelsAll ns
  | [], [], _, _, _ => rfl
  | [], n :: ns, h, _, _ => by cases h
  | l :: ls, [], h, _, _ => by cases h
  | l :: ls, n :: ns, h, hunmarked, hl => by
    rw [Live.nodes_cons, marked, nodes, List.cons.injEq] at h
    rw [plain, nodes, Node.AllUnmarked] at hunmarked
    rw [labelsAll] at hl ⊢
    rw [Live.subtrees_cons, List.map_append,
      map_label?_subtree h.1 hunmarked.1 fun km hkm => hl km (List.mem_append_left _ hkm),
      map_label?_subtrees h.2 hunmarked.2 fun km hkm => hl km (List.mem_append_right _ hkm)]

end

mutual

theorem unmark_node : (n : Labelled) → (n.node fun _ => []).Unmarked →
    (n.node marker).unmark = n.node fun _ => []
  | text t, _ => rfl
  | element label tag as cs, h => by
    rw [node, elim_nil_append, Node.Unmarked] at h
    have hdrop : Attributes.drop eventAttribute (label.elim [] marker ++ as) = as := by
      cases label with
      | none => exact Attributes.drop_eq_iff.2 h.1
      | some km => exact if_pos rfl
    rw [node, node, Node.unmark, hdrop, elim_nil_append, ← marked, ← plain, unmarkAll_marked cs h.2]

/-- Taking the markers off leaves the tree without its labels. -/
theorem unmarkAll_marked : (ns : List Labelled) → Node.AllUnmarked (plain ns) →
    Node.unmarkAll (marked ns) = plain ns
  | [], _ => rfl
  | n :: ns, h => by
    rw [plain, nodes, Node.AllUnmarked] at h
    rw [marked, plain, nodes, nodes, Node.unmarkAll, unmark_node n h.1, ← marked, ← plain,
      unmarkAll_marked ns h.2]

end

/-- Whether what was attached, together with the document and the registry after that, is what the
labels of a tree ask for. -/
structure BindsEach (make : String → String → L) (ls : List Labelled)
    (bound : List Binding × Document L × Registry) :
    Prop where
  /-- A listener was made for each label, once and in preorder. -/
  made : bound.1.map (fun m => (m.kind, m.method)) = (labelsAll ls).reduceOption
  /-- It was attached to the node that has the place of the label in preorder. -/
  attached : bound.1 = (bound.2.1.ids.zip (labelsAll ls)).filterMap fun p => Live.binding? p.1 p.2
  ids_nodup : bound.2.1.ids.Nodup
  /-- No node has other listeners. -/
  listeners : (Live.subtrees bound.2.1.children).map Live.listeners =
    (labelsAll ls).map (Live.asked make)
  /-- The tree without labels is left. -/
  nodes_eq : Live.nodes bound.2.1.children = plain ls

/-- Where a tree with markers is mounted in an empty document and the markers are read, each label
is bound. -/
theorem bindsEach_reconcile {ls : List Labelled} (hunmarked : Node.AllUnmarked (plain ls))
    (hl : ∀ km, some km ∈ labelsAll ls → IsPair km) (make : String → String → L) :
    BindsEach make ls
    (((Document.empty : Document L).reconcile rootId (marked ls)).2.bind .empty make) := by
  set d := ((Document.empty : Document L).reconcile rootId (marked ls)).2
  have hd : Document.Bound make [] d .empty := Document.bound_empty.reconcile (marked ls)
  have hnodes : Live.nodes d.children = marked ls := Live.nodes_plantAll 1 (marked ls)
  have hlabels : (Live.subtrees d.children).map Live.label? = labelsAll ls :=
    map_label?_subtrees hnodes hunmarked hl
  have hlisteners : ∀ n ∈ Live.subtrees d.children, n.listeners = [] := by
    intro n hn
    rcases (Document.renewed_reconcile Document.empty (marked ls)).kept_or_fresh n hn with
      ⟨o, ho, -⟩ | ⟨-, -, h⟩
    · cases ho
    · exact h
  obtain ⟨htagged, hattached⟩ := Live.readAll_of_fresh make (b := ⟨.empty, []⟩) hd.ids_nodup
    (fun n _ kind => hd.knows n.id kind) hlisteners
  have hbound : (d.bind .empty make).1 = (Live.subtrees d.children).filterMap Live.marker? := by
    rw [d.attached_bind, hattached, List.append_nil, List.reverse_reverse]
  refine ⟨?_, ?_, ?_, ?_, ?_⟩
  · rw [hbound, ← hlabels, List.reduceOption, List.filterMap_map, List.map_filterMap]
    refine List.filterMap_congr fun n _ => ?_
    rw [Live.marker?_eq, Live.binding?, Option.map_map]
    exact Option.map_id'
  · rw [hbound, d.ids_bind, Document.ids, ← hlabels, List.zip_map', List.filterMap_map]
    rfl
  · rw [d.ids_bind]
    exact hd.ids_nodup
  · have hsnd := congrArg (List.map Prod.snd) ((d.tagged_bind .empty make).trans htagged)
    rw [List.map_map, List.map_map] at hsnd
    rw [← hlabels, List.map_map]
    exact hsnd
  · rw [← unmarkAll_marked ls hunmarked, ← hnodes]
    exact Live.nodes_bindAll make _ d.children

/-- Writing out shorthands twice does what writing them out once does.  A tree with shorthands,
whose markup has no other at sign and no marker, is read as the tree with markers for them, and the
markers bind each shorthand once, in preorder and to its own node, and leave the tree without
shorthands. -/
theorem expandShorthand_bind [EntityCodec] :
    (∀ s, expandShorthand (expandShorthand s) = expandShorthand s) ∧
      ∀ ls : List Labelled, Node.AllNormal (plain ls) → Node.AllUnmarked (plain ls) →
        '@' ∉ (String.join ((plain ls).map Node.html)).toList →
        (∀ km, some km ∈ labelsAll ls → IsPair km) →
        ∃ new, Markup.parse (expandShorthand (String.join ((short ls).map Node.html))) = .ok new ∧
          ∀ (L : Type) (make : String → String → L),
            BindsEach make ls
            (((Document.empty : Document L).reconcile rootId new).2.bind .empty make) := by
  refine ⟨fun s => ?_, fun ls hnormal hunmarked hat hl => ?_⟩
  · unfold expandShorthand
    rw [String.toList_ofList, Shorthand.expand_expand]
  · rw [Node.toList_join_html] at hat
    exact ⟨_, parse_expand_short hnormal hat hl, fun L make =>
      bindsEach_reconcile hunmarked hl make⟩

section

attribute [local instance] EntityCodec.common

/-- A form with a button and an input that are listened to. -/
def form : List Labelled :=
  [.element none "form" [⟨"id", "f"⟩]
    [.element (some ("click", "add")) "button" [⟨"class", "x"⟩] [.text "1 < 2"],
      .element (some ("input", "größe$1")) "input" [] []]]

theorem expandShorthand_bind_form :
    String.join ((short form).map Node.html) =
        "<form id=\"f\"><button @click=\"add\" class=\"x\">1 &lt; 2</button>" ++
          "<input @input=\"größe$1\"></form>" ∧
      ∃ new, Markup.parse (expandShorthand (String.join ((short form).map Node.html))) = .ok new ∧
        ((((Document.empty : Document String).reconcile rootId new).2.bind .empty
          fun _ method => method).1.map fun m => (m.kind, m.method)) =
            [("click", "add"), ("input", "größe$1")] := by
  have hparse : Markup.parse (String.join ((plain form).map Node.html)) = .ok _ :=
    eq_ok_of_isOk (by decide +kernel) []
  have hplain : (Markup.parse (String.join ((plain form).map Node.html))).toOption.getD [] =
    plain form := by
    decide +kernel
  have hnormal : Node.AllNormal (plain form) := hplain ▸ Markup.allNormal_of_parse hparse
  have hunmarked : Node.AllUnmarked (plain form) := Node.unmarkAll_eq_iff.1 (by decide +kernel)
  have hat : '@' ∉ (String.join ((plain form).map Node.html)).toList := by decide +kernel
  have hl : ∀ km, some km ∈ labelsAll form → IsPair km := by
    intro km hkm
    have hmem : km = ("click", "add") ∨ km = ("input", "größe$1") := by
      simpa [form, labels, labelsAll] using hkm
    rcases hmem with rfl | rfl
    · exact ⟨by decide, by decide, by decide, by decide⟩
    · exact ⟨by decide, by decide, by decide, by decide +kernel⟩
  obtain ⟨new, hnew, hbind⟩ := expandShorthand_bind.2 form hnormal hunmarked hat hl
  exact ⟨by decide +kernel, new, hnew, (hbind String fun _ method => method).made⟩

end

end Labelled

end LiveMarkup
