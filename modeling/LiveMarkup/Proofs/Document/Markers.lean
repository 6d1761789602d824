import LiveMarkup.Proofs.Document.Bound

/-!
# What reading the markers leaves

Attributes are taken off by name, and a name may occur twice in an element.  So reading the markers
of a document takes the first marker off each element and no other one: what is left is the document
with `Attributes.drop` applied once everywhere (`Document.outline_bind`), and what is bound is what
was bound before and what first markers name (`Document.contains_bind_iff`).
-/

namespace LiveMarkup

variable {L : Type}

namespace Attributes

/-- An attribute is left after one of its name has been removed just if there were two. -/
theorem mem_names_drop_self {name : String} {as : List Attr} :
    name ∈ names (drop name as) ↔ 1 < (names as).count name := by
  rw [← List.count_pos_iff, count_names_drop, if_pos rfl]
  omega

/-- The only attribute of a name is the one that is found under it. -/
theorem get?_eq_of_mem {a : Attr} {as : List Attr} (ha : a ∈ as) (h : (names as).count a.name ≤ 1) :
    get? a.name as = some a.value := by
  induction as with
  | nil => cases ha
  | cons b as ih =>
    rw [names_cons, List.count_cons] at h
    rw [get?]
    by_cases hb : b.name = a.name
    · rw [if_pos hb]
      rcases List.mem_cons.1 ha with rfl | ha
      · rfl
      · -- a second attribute of the name would be counted too
        have hpos : 0 < (names as).count a.name := List.count_pos_iff.2 (List.mem_map_of_mem ha)
        simp only [hb, beq_self_eq_true, if_true] at h
        omega
    · rw [if_neg hb]
      rcases List.mem_cons.1 ha with rfl | ha
      · exact absurd rfl hb
      · exact ih ha (by omega)

end Attributes

namespace Live

/-- What reading markers may look at and change in a node, apart from its listeners. -/
def outline (n : Live L) : NodeId × Option String × List Attr := (n.id, n.tag?, n.attrs)

/-- The outline of a node after its first marker has been taken off. -/
def readOutline (n : Live L) : NodeId × Option String × List Attr :=
  (n.id, n.tag?, Attributes.drop eventAttribute n.attrs)

section Bind

variable (make : String → String → L)

mutual

theorem outline_bind (b : Binder) : (l : Live L) →
    (l.bind make b).1.subtree.map outline = l.subtree.map readOutline
  | text i ls t => rfl
  | element i ls tag as cs => by
    rw [Live.bind, subtree_element, subtree_element, List.map_cons, List.map_cons,
      outline_bindAll _ cs]
    rfl

/-- Reading markers takes the first one off each node. -/
theorem outline_bindAll (b : Binder) : (ls : List (Live L)) →
    (subtrees (bindAll make b ls).1).map outline = (subtrees ls).map readOutline
  | [] => rfl
  | l :: ls => by
    rw [bindAll, subtrees_cons, subtrees_cons, List.map_append, List.map_append, outline_bind b l,
      outline_bindAll _ ls]

end

variable {make} {b : Binder}

theorem contains_readOne_iff {n : Live L} {i : NodeId} {kind : String} :
    (readOne make b n).2.registry.contains i kind = true ↔
      b.registry.contains i kind = true ∨ ∃ m, n.marker? = some m ∧ m.pair = (i, kind) := by
  unfold readOne
  rcases hm : n.marker? with _ | m
  · simp
  · dsimp only
    split_ifs with hc
    · constructor
      · exact Or.inl
      · rintro (h | ⟨m', hm', hpair⟩)
        · exact h
        · cases hm'
          cases hpair
          exact hc
    · rw [Registry.contains_insert, Bool.or_eq_true, decide_eq_true_iff, or_comm]
      simp [Binding.pair]

/-- What is bound after markers have been read is what was bound before and what they name. -/
theorem contains_readAll_iff {ns : List (Live L)} {i : NodeId} {kind : String} :
    (readAll make b ns).2.registry.contains i kind = true ↔
      b.registry.contains i kind = true ∨ ∃ m ∈ ns.filterMap marker?, m.pair = (i, kind) := by
  induction ns generalizing b with
  | nil => simp [readAll]
  | cons n ns ih =>
    rw [readAll, ih, contains_readOne_iff, or_assoc]
    refine or_congr_right ?_
    constructor
    · rintro (⟨m, hm, hpair⟩ | ⟨m, hm, hpair⟩)
      · exact ⟨m, List.mem_filterMap.2 ⟨n, List.mem_cons_self, hm⟩, hpair⟩
      · obtain ⟨n', hn', hm⟩ := List.mem_filterMap.1 hm
        exact ⟨m, List.mem_filterMap.2 ⟨n', List.mem_cons_of_mem n hn', hm⟩, hpair⟩
    · rintro ⟨m, hmem, hpair⟩
      obtain ⟨n', hn', hm⟩ := List.mem_filterMap.1 hmem
      rcases List.mem_cons.1 hn' with rfl | hn'
      · exact Or.inl ⟨m, hm, hpair⟩
      · exact Or.inr ⟨m, List.mem_filterMap.2 ⟨n', hn', hm⟩, hpair⟩

end Bind

end Live

namespace Document

section Bind

variable (d : Document L) (r : Registry) (make : String → String → L)

theorem outline_bind : (Live.subtrees (d.bind r make).2.1.children).map Live.outline =
    (Live.subtrees d.children).map Live.readOutline :=
  Live.outline_bindAll make ⟨r, []⟩ d.children

theorem contains_bind_iff (i : NodeId) (kind : String) :
    (d.bind r make).2.2.contains i kind = true ↔
    r.contains i kind = true ∨ ∃ m ∈ d.markers, m.pair = (i, kind) := by
  rw [registry_bind]
  exact Live.contains_readAll_iff

/-- Markers are left just if an element has two of them. -/
theorem unmarked_bind_iff :
    (∀ n ∈ Live.subtrees (d.bind r make).2.1.children, eventAttribute ∉ Attributes.names n.attrs) ↔
      ∀ n ∈ Live.subtrees d.children, (Attributes.names n.attrs).count eventAttribute ≤ 1 := by
  have hattrs : (Live.subtrees (d.bind r make).2.1.children).map Live.attrs =
      (Live.subtrees d.children).map fun n => Attributes.drop eventAttribute n.attrs := by
    have h := congrArg (List.map fun o => o.2.2) (d.outline_bind r make)
    rwa [List.map_map, List.map_map] at h
  rw [← List.forall_mem_map (f := Live.attrs) (P := fun as =>
    eventAttribute ∉ Attributes.names as), hattrs,
    List.forall_mem_map]
  refine forall₂_congr fun n _ => ?_
  rw [Attributes.mem_names_drop_self, Nat.not_lt]

theorem contains_bind_of_mem {n : Live L} (hn : n ∈ Live.subtrees d.children)
    (hcount : (Attributes.names n.attrs).count eventAttribute ≤ 1) {a : Attr} (ha : a ∈ n.attrs)
    (hname : a.name = eventAttribute) {kind method : String}
    (hm : splitMarker? a.value = some (kind, method)) :
    (d.bind r make).2.2.contains n.id kind = true := by
  rw [contains_bind_iff]
  refine Or.inr ⟨⟨n.id, kind, method⟩, List.mem_filterMap.2 ⟨n, hn, ?_⟩, rfl⟩
  rw [← hname] at hcount
  have hget := Attributes.get?_eq_of_mem ha hcount
  unfold Live.marker?
  rw [← hname, hget, Option.bind_some, hm]
  rfl

/-- Reading the markers of a document takes the first marker off each element and binds what these
first markers name, besides what was bound before.  So markers are left just if some element has
two; where none has, the pair of each marker that names a kind of event is bound. -/
theorem bind_reads_first_markers :
    ((Live.subtrees (d.bind r make).2.1.children).map Live.outline =
      (Live.subtrees d.children).map Live.readOutline) ∧
    (∀ i kind, (d.bind r make).2.2.contains i kind = true ↔
      r.contains i kind = true ∨ ∃ m ∈ d.markers, m.pair = (i, kind)) ∧
    ((∀ n ∈ Live.subtrees (d.bind r make).2.1.children, eventAttribute ∉ Attributes.names n.attrs) ↔
      ∀ n ∈ Live.subtrees d.children, (Attributes.names n.attrs).count eventAttribute ≤ 1) ∧
    ((∀ n ∈ Live.subtrees d.children, (Attributes.names n.attrs).count eventAttribute ≤ 1) →
      ∀ n ∈ Live.subtrees d.children, ∀ a ∈ n.attrs, a.name = eventAttribute →
        ∀ kind method, splitMarker? a.value = some (kind, method) →
          (d.bind r make).2.2.contains n.id kind = true) :=
  ⟨d.outline_bind r make, d.contains_bind_iff r make, d.unmarked_bind_iff r make,
    fun hcount n hn _ ha hname _ _ hm => d.contains_bind_of_mem r make hn (hcount n hn) ha hname hm⟩

end Bind

end Document

end LiveMarkup
