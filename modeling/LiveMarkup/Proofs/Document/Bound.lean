import LiveMarkup.Document.Binder
import LiveMarkup.Proofs.Document.Identity
import Mathlib.Data.List.Basic

/-!
# What markers bind

`Document.Bound make log d r` says that the listeners in a document and a registry are those that
the markers in `log`, read in this order, ask for: of all markers for a node and a kind of event the
first one counts, and a node for which no marker was read has no listener.  An empty document with
an empty registry is bound by no markers (`Document.bound_empty`), a patch keeps this up
(`Document.Bound.reconcile`), and reading the markers of the document adds them to the log
(`Document.Bound.bind`).
-/

namespace LiveMarkup

variable {L : Type}

/-! ### Logs of markers -/

namespace Binding

/-- What a registry keeps of a listener that was attached. -/
def pair (m : Binding) : NodeId × String := (m.node, m.kind)

/-- The method that the first of several markers names for a node and a kind of event. -/
def first? (i : NodeId) (kind : String) (log : List Binding) : Option String :=
  log.findSome? fun m => if m.pair = (i, kind) then some m.method else none

variable {i : NodeId} {kind : String}

@[simp] theorem first?_nil : first? i kind [] = none := rfl

theorem first?_append (log log' : List Binding) :
    first? i kind (log ++ log') = (first? i kind log).or (first? i kind log') :=
  List.findSome?_append

theorem first?_singleton (m : Binding) :
    first? i kind [m] = if m.pair = (i, kind) then some m.method else none := by
  unfold first?
  split_ifs with h <;> simp [h]

/-- Markers of other nodes do not count. -/
theorem first?_eq_none {log : List Binding} (h : ∀ m ∈ log, m.node ≠ i) :
    first? i kind log = none := by
  unfold first?
  rw [List.findSome?_eq_none_iff]
  intro m hm
  rw [if_neg]
  intro hpair
  exact h m hm (congrArg Prod.fst hpair)

/-- A marker that is not the first one for its node and its kind of event changes nothing. -/
theorem first?_append_singleton_of_isSome {log : List Binding} {m : Binding}
    (h : (first? m.node m.kind log).isSome) : first? i kind (log ++ [m]) = first? i kind log := by
  rw [first?_append, first?_singleton]
  split_ifs with hm
  · cases hm
    exact Option.or_eq_left_of_isSome h
  · rw [Option.or_none]

end Binding

/-- The listeners for a kind of event, in order of registration. -/
def Listeners.ofKind (ls : Listeners L) (kind : String) : List L :=
  (ls.filter fun kl => kl.1 == kind).map Prod.snd

/-- The pairs in a registry are those for which a marker was read. -/
def Registry.Knows (r : Registry) (log : List Binding) : Prop :=
  ∀ i kind, r.contains i kind = (Binding.first? i kind log).isSome

/-- The listeners of a node are those that the first markers for it ask for. -/
def Listeners.Bound (make : String → String → L) (log : List Binding) (i : NodeId)
    (ls : Listeners L) : Prop :=
  ∀ kind, ls.ofKind kind = ((Binding.first? i kind log).map (make kind)).toList

/-- Each pair of a registry was in another one or comes from a listener that was attached since. -/
def Binder.Over (r : Registry) (b : Binder) : Prop :=
  b.registry.pairs = b.attached.map Binding.pair ++ r.pairs

theorem Registry.contains_insert (r : Registry) (i j : NodeId) (kind kind' : String) :
    (r.insert i kind).contains j kind' =
      (decide ((i, kind) = (j, kind')) || r.contains j kind') := by
  rw [Bool.eq_iff_iff, Registry.contains_iff, pairs_insert, List.mem_cons, Bool.or_eq_true,
    decide_eq_true_iff, Registry.contains_iff, eq_comm]

theorem Registry.Knows.insert {r : Registry} {log : List Binding} (h : r.Knows log) (m : Binding) :
    (r.insert m.node m.kind).Knows (log ++ [m]) := by
  intro i kind
  rw [Registry.contains_insert, h, Binding.first?_append, Binding.first?_singleton]
  by_cases hm : (m.node, m.kind) = (i, kind)
  · rw [Binding.pair, if_pos hm, decide_eq_true hm]
    cases Binding.first? i kind log <;> rfl
  · rw [Binding.pair, if_neg hm, decide_eq_false hm, Option.or_none, Bool.false_or]

theorem Listeners.ofKind_append_singleton (ls : Listeners L) (kind kind' : String) (l : L) :
    Listeners.ofKind (ls ++ [(kind, l)]) kind' = ls.ofKind kind' ++ if kind = kind' then
      [l] else [] := by
  unfold Listeners.ofKind
  by_cases h : kind = kind' <;> simp [h]

theorem Listeners.Bound.congr {make : String → String → L} {log log' : List Binding} {i : NodeId}
    {ls : Listeners L} (h : Listeners.Bound make log i ls)
    (hlog : ∀ kind, Binding.first? i kind log' = Binding.first? i kind log) :
    Listeners.Bound make log' i ls := by
  intro kind
  rw [h kind, hlog kind]

/-- The first marker for a node and a kind of event adds a listener. -/
theorem Listeners.Bound.insert {make : String → String → L} {log : List Binding} {m : Binding}
    {ls : Listeners L} (h : Listeners.Bound make log m.node ls)
    (hm : Binding.first? m.node m.kind log = none) :
    Listeners.Bound make (log ++ [m]) m.node (ls ++ [(m.kind, make m.kind m.method)]) := by
  intro kind
  rw [Listeners.ofKind_append_singleton, h kind, Binding.first?_append, Binding.first?_singleton]
  by_cases hk : m.kind = kind
  · subst hk
    simp [hm, Binding.pair]
  · simp [hk, Binding.pair]

/-! ### Reading the markers of a list of nodes -/

namespace Live

/-- The marker of a node, if it has one that names a kind of event and a method. -/
def marker? (n : Live L) : Option Binding :=
  ((Attributes.get? eventAttribute n.attrs).bind splitMarker?).map fun km => ⟨n.id, km.1, km.2⟩

theorem node_of_marker? {n : Live L} {m : Binding} (h : n.marker? = some m) : m.node = n.id := by
  obtain ⟨km, -, rfl⟩ := Option.map_eq_some_iff.1 h
  rfl

/-- The markers of some nodes do not count for others. -/
theorem first?_markers_eq_none {ns : List (Live L)} {i : NodeId} (h : i ∉ ns.map id)
    {kind : String} :
    Binding.first? i kind (ns.filterMap marker?) = none := by
  apply Binding.first?_eq_none
  intro m hm hi
  obtain ⟨n, hn, hm⟩ := List.mem_filterMap.1 hm
  rw [node_of_marker? hm] at hi
  exact h (hi ▸ List.mem_map_of_mem hn)

section Read

variable (make : String → String → L)

/-- The listeners of a node and the binder after the marker of the node alone has been read. -/
def readOne (b : Binder) (n : Live L) : Listeners L × Binder :=
  match n.marker? with
  | none => (n.listeners, b)
  | some m =>
    if b.registry.contains m.node m.kind then (n.listeners, b)
    else
      (n.listeners ++ [(m.kind, make m.kind m.method)],
        ⟨b.registry.insert m.node m.kind, m :: b.attached⟩)

/-- Nodes with their listeners, and the binder, after the marker of one node after the other has
been read. -/
def readAll (b : Binder) : List (Live L) → List (NodeId × Listeners L) × Binder
  | [] => ([], b)
  | n :: ns =>
    ((n.id, (readOne make b n).1) :: (readAll (readOne make b n).2 ns).1,
      (readAll (readOne make b n).2 ns).2)

theorem readAll_append (b : Binder) (ns ms : List (Live L)) : readAll make b (ns ++ ms) =
    ((readAll make b ns).1 ++ (readAll make (readAll make b ns).2 ms).1,
      (readAll make (readAll make b ns).2 ms).2) := by
  induction ns generalizing b with
  | nil => rfl
  | cons n ns ih =>
    rw [List.cons_append, readAll, ih, readAll, List.cons_append]

theorem readOne_element (b : Binder) (i : NodeId) (ls : Listeners L) (tag : String) (as : List Attr)
    (cs : List (Live L)) : readOne make b (element i ls tag as cs) =
      match Attributes.get? eventAttribute as with
      | some marker => readMarker make b i ls marker
      | none => (ls, b) := by
  unfold readOne marker?
  dsimp only [attrs]
  rcases Attributes.get? eventAttribute as with _ | marker
  · rfl
  · dsimp only [Option.bind_some, readMarker]
    rcases splitMarker? marker with _ | ⟨kind, method⟩ <;> rfl

/-- A node under its identity with its listeners. -/
def tagged (n : Live L) : NodeId × Listeners L := (n.id, n.listeners)

mutual

theorem tagged_bind (b : Binder) : (l : Live L) →
    ((l.bind make b).1.subtree.map tagged, (l.bind make b).2) = readAll make b l.subtree
  | text i ls t => rfl
  | element i ls tag as cs => by
    rw [subtree_element, readAll, readOne_element, Live.bind, ← tagged_bindAll _ cs]
    cases Attributes.get? eventAttribute as <;> rfl

/-- Reading the markers in trees is reading those of their nodes in preorder. -/
theorem tagged_bindAll (b : Binder) : (ls : List (Live L)) →
    ((subtrees (bindAll make b ls).1).map tagged, (bindAll make b ls).2) =
      readAll make b (subtrees ls)
  | [] => rfl
  | l :: ls => by
    rw [subtrees_cons, readAll_append, ← tagged_bind b l, ← tagged_bindAll _ ls, bindAll,
      subtrees_cons, List.map_append]

end

variable {make} {b : Binder} {log : List Binding}

theorem readOne_bound {n : Live L} (hr : b.registry.Knows log)
    (hn : Listeners.Bound make log n.id n.listeners) :
    (readOne make b n).2.registry.Knows (log ++ [n].filterMap marker?) ∧
      Listeners.Bound make (log ++ [n].filterMap marker?) n.id (readOne make b n).1 := by
  unfold readOne
  rcases hm : n.marker? with _ | m
  · rw [List.filterMap_cons_none hm, List.filterMap_nil, List.append_nil]
    exact ⟨hr, hn⟩
  · rw [List.filterMap_cons_some hm, List.filterMap_nil]
    dsimp only
    split_ifs with hc
    · rw [hr] at hc
      refine ⟨fun i kind => ?_, hn.congr fun kind => Binding.first?_append_singleton_of_isSome hc⟩
      rw [hr, Binding.first?_append_singleton_of_isSome hc]
    · rw [hr, Option.not_isSome_iff_eq_none] at hc
      rw [← node_of_marker? hm] at hn ⊢
      exact ⟨hr.insert m, hn.insert hc⟩

/-- After the markers of distinct nodes have been read, all the nodes are bound by the markers so
far. -/
theorem readAll_bound {ns : List (Live L)} (hnd : (ns.map id).Nodup) (hr : b.registry.Knows log)
    (hns : ∀ n ∈ ns, Listeners.Bound make log n.id n.listeners) :
    (readAll make b ns).2.registry.Knows (log ++ ns.filterMap marker?) ∧
      ∀ p ∈ (readAll make b ns).1, Listeners.Bound make (log ++ ns.filterMap marker?) p.1 p.2 := by
  induction ns generalizing b log with
  | nil =>
    rw [List.filterMap_nil, List.append_nil]
    exact ⟨hr, by simp [readAll]⟩
  | cons n ns ih =>
    rw [List.map_cons, List.nodup_cons] at hnd
    obtain ⟨hr', hn⟩ := readOne_bound hr (hns n List.mem_cons_self)
    have hns' : ∀ n' ∈ ns,
      Listeners.Bound make (log ++ [n].filterMap marker?) n'.id n'.listeners := by
      intro n' hn'
      refine (hns n' (List.mem_cons_of_mem _ hn')).congr fun kind => ?_
      have hne : n'.id ∉ [n].map id := by
        rw [List.map_singleton, List.mem_singleton]
        exact fun h => hnd.1 (h ▸ List.mem_map_of_mem hn')
      rw [Binding.first?_append, first?_markers_eq_none hne, Option.or_none]
    have hlog :
      log ++ [n].filterMap marker? ++ ns.filterMap marker? = log ++
        (n :: ns).filterMap marker? := by
      rw [List.append_assoc, ← List.filterMap_append]
      rfl
    obtain ⟨hr'', hrest⟩ := ih hnd.2 hr' hns'
    rw [hlog] at hr'' hrest
    refine ⟨hr'', fun p hp => ?_⟩
    rcases List.mem_cons.1 hp with rfl | hp
    · -- the markers of the nodes behind this one do not count for it
      refine hn.congr fun kind => ?_
      rw [← hlog, Binding.first?_append, first?_markers_eq_none hnd.1, Option.or_none]
    · exact hrest p hp

theorem readOne_over {r : Registry} {n : Live L} (h : b.Over r) : (readOne make b n).2.Over r := by
  unfold readOne
  rcases n.marker? with _ | m
  · exact h
  · dsimp only
    split_ifs
    · exact h
    · exact congrArg (m.pair :: ·) h

theorem readAll_over {r : Registry} {ns : List (Live L)} (h : b.Over r) :
    (readAll make b ns).2.Over r := by
  induction ns generalizing b with
  | nil => exact h
  | cons n ns ih => exact ih (readOne_over h)

/-- No pair is bound twice. -/
theorem readAll_nodup {ns : List (Live L)} (h : b.registry.pairs.Nodup) :
    (readAll make b ns).2.registry.pairs.Nodup := by
  induction ns generalizing b with
  | nil => exact h
  | cons n ns ih =>
    refine ih (b := (readOne make b n).2) ?_
    unfold readOne
    rcases n.marker? with _ | m
    · exact h
    · dsimp only
      split_ifs with hc
      · exact h
      · rw [Registry.contains_iff] at hc
        exact List.nodup_cons.2 ⟨hc, h⟩

theorem fst_readAll (ns : List (Live L)) : (readAll make b ns).1.map Prod.fst = ns.map id := by
  induction ns generalizing b with
  | nil => rfl
  | cons n ns ih => exact congrArg (n.id :: ·) ih

end Read

end Live

/-! ### Documents -/

namespace Document

/-- The markers in a document that name a kind of event and a method, in preorder. -/
def markers (d : Document L) : List Binding := (Live.subtrees d.children).filterMap Live.marker?

section Bind

variable (d : Document L) (r : Registry) (make : String → String → L)

theorem tagged_bind : (Live.subtrees (d.bind r make).2.1.children).map Live.tagged =
    (Live.readAll make ⟨r, []⟩ (Live.subtrees d.children)).1 :=
  congrArg Prod.fst (Live.tagged_bindAll make ⟨r, []⟩ d.children)

theorem registry_bind :
    (d.bind r make).2.2 = (Live.readAll make ⟨r, []⟩ (Live.subtrees d.children)).2.registry :=
  congrArg (fun p => p.2.registry) (Live.tagged_bindAll make ⟨r, []⟩ d.children)

theorem attached_bind :
    (d.bind r make).1 = (Live.readAll make ⟨r, []⟩ (Live.subtrees d.children)).2.attached.reverse :=
  congrArg (fun p => p.2.attached.reverse) (Live.tagged_bindAll make ⟨r, []⟩ d.children)

theorem ids_bind : (d.bind r make).2.1.ids = d.ids := by
  have h := congrArg (List.map Prod.fst) (d.tagged_bind r make)
  rw [List.map_map, Live.fst_readAll] at h
  exact h

/-- The registry grows by what was attached. -/
theorem pairs_bind :
    (d.bind r make).2.2.pairs = ((d.bind r make).1.map Binding.pair).reverse ++ r.pairs := by
  have h : (⟨r, []⟩ : Binder).Over r := rfl
  rw [registry_bind, attached_bind, List.map_reverse, List.reverse_reverse]
  exact Live.readAll_over h

end Bind

/-- A document and a registry with the listeners that markers ask for which were read in this
order. -/
structure Bound (make : String → String → L) (log : List Binding) (d : Document L)
    (r : Registry) : Prop where
  unbound_root : d.listeners = []
  root_lt_next : rootId < d.next
  ids_nodup : d.ids.Nodup
  ids_between : ∀ i ∈ d.ids, rootId < i ∧ i < d.next
  log_between : ∀ m ∈ log, rootId < m.node ∧ m.node < d.next
  knows : r.Knows log
  pairs_nodup : r.pairs.Nodup
  bound : ∀ n ∈ Live.subtrees d.children, Listeners.Bound make log n.id n.listeners

variable {make : String → String → L} {log : List Binding} {d : Document L} {r : Registry}

theorem bound_empty : Bound make [] (empty : Document L) .empty where
  unbound_root := rfl
  root_lt_next := Nat.one_pos
  ids_nodup := List.nodup_nil
  ids_between := by simp [ids, empty]
  log_between := by simp
  knows i kind := by
    rw [Binding.first?_nil, Option.isSome_none, Bool.eq_false_iff, Ne, Registry.contains_iff]
    exact List.not_mem_nil
  pairs_nodup := List.nodup_nil
  bound := by simp [empty]

theorem renewed_reconcile (d : Document L) (new : List Node) :
    Live.Renewed d.next (Live.subtrees d.children)
    (d.reconcile rootId new).2.next (Live.subtrees (d.reconcile rootId new).2.children) :=
  Live.renewed_patchAll d.next d.children new

/-- Nodes that are kept keep their listeners, and no marker was read for one that is planted. -/
theorem Bound.reconcile (h : Bound make log d r) (new : List Node) :
    Bound make log (d.reconcile rootId new).2 r where
  unbound_root := h.unbound_root
  root_lt_next := Nat.lt_of_lt_of_le h.root_lt_next (d.renewed_reconcile new).le
  ids_nodup := (d.renewed_reconcile new).nodup h.ids_nodup fun o ho =>
    (h.ids_between _ (List.mem_map_of_mem ho)).2
  ids_between i hi := by
    have hroot := h.root_lt_next
    have hle := (d.renewed_reconcile new).le
    rcases (d.renewed_reconcile new).id_cases hi with hi | ⟨hge, hlt⟩
    · obtain ⟨hpos, hlt⟩ := h.ids_between i hi
      exact ⟨hpos, by lia⟩
    · exact ⟨by lia, hlt⟩
  log_between m hm := by
    obtain ⟨hpos, hlt⟩ := h.log_between m hm
    exact ⟨hpos, Nat.lt_of_lt_of_le hlt (d.renewed_reconcile new).le⟩
  knows := h.knows
  pairs_nodup := h.pairs_nodup
  bound n hn := by
    rcases (d.renewed_reconcile new).kept_or_fresh n hn with ⟨o, ho, hid, hl⟩ | ⟨hge, -, hl⟩
    · rw [← hid, ← hl]
      exact h.bound o ho
    · intro kind
      have hnode : ∀ m ∈ log, m.node ≠ n.id :=
        fun m hm => Nat.ne_of_lt (Nat.lt_of_lt_of_le (h.log_between m hm).2 hge)
      rw [hl, Binding.first?_eq_none hnode]
      rfl

/-- Reading the markers of a document adds them to those that were read before. -/
theorem Bound.bind (h : Bound make log d r) :
    Bound make (log ++ d.markers) (d.bind r make).2.1 (d.bind r make).2.2 := by
  obtain ⟨hknows, hbound⟩ := Live.readAll_bound (b := ⟨r, []⟩) h.ids_nodup h.knows h.bound
  refine ⟨h.unbound_root, h.root_lt_next, ?_, ?_, ?_, ?_, ?_, ?_⟩
  · rw [ids_bind]
    exact h.ids_nodup
  · rw [ids_bind]
    exact h.ids_between
  · intro m hm
    rcases List.mem_append.1 hm with hm | hm
    · exact h.log_between m hm
    · obtain ⟨n, hn, hm⟩ := List.mem_filterMap.1 hm
      rw [Live.node_of_marker? hm]
      exact h.ids_between n.id (List.mem_map_of_mem hn)
  · rw [registry_bind]
    exact hknows
  · rw [registry_bind]
    exact Live.readAll_nodup h.pairs_nodup
  · intro n hn
    rw [← tagged_bind] at hbound
    exact hbound n.tagged (List.mem_map_of_mem hn)

/-! ### What can be read off -/

/-- No marker is read for the root. -/
theorem Bound.first?_root (h : Bound make log d r) (kind : String) :
    Binding.first? rootId kind log = none :=
  Binding.first?_eq_none fun m hm => Nat.ne_of_gt (h.log_between m hm).1

theorem Bound.listenersFor_eq (h : Bound make log d r) {i : NodeId} (hi : d.contains i = true)
    (kind : String) :
    d.listenersFor i kind = ((Binding.first? i kind log).map (make kind)).toList := by
  show Listeners.ofKind (d.listenersOf i) kind = _
  unfold listenersOf
  by_cases hroot : i = rootId
  · rw [if_pos hroot, h.unbound_root, hroot, h.first?_root]
    rfl
  · have hsome := isSome_find?_iff.2 ((contains_iff.1 hi).resolve_left hroot)
    obtain ⟨n, hn⟩ := Option.isSome_iff_exists.1 hsome
    obtain ⟨hmem, rfl⟩ := mem_of_find? hn
    rw [if_neg hroot, hn]
    exact h.bound n hmem kind

/-- On the way from a node up to the root there is one listener for each node with a marker. -/
theorem Bound.bubbling?_eq (h : Bound make log d r) {i : NodeId} {path : List (Live L)}
    (hpath : d.path? i = some path) (kind : String) : d.bubbling? i kind =
      some (path.filterMap fun n => (Binding.first? n.id kind log).map (make kind)) := by
  obtain ⟨⟨n, rest, hcons, hid⟩, hmem⟩ := mem_of_path? hpath
  have hroot : i ≠ rootId := by
    rw [← hid]
    refine Nat.ne_of_gt (h.ids_between n.id (List.mem_map_of_mem (hmem n ?_))).1
    simp [hcons]
  unfold bubbling?
  rw [if_neg hroot, hpath, h.unbound_root, Option.map_some]
  refine congrArg some ((List.append_nil _).trans ?_)
  rw [List.filterMap_eq_flatMap_toList]
  exact List.flatMap_congr fun n hn => h.bound n (hmem n hn) kind

end Document

end LiveMarkup
