import LiveMarkup.Host.Pass
import LiveMarkup.Proofs.Document.PatchTree
import Mathlib.Tactic.ByContra

/-!
# Patching with the same nodes again

After a patch and after its markers have been read, the nodes of a document face the nodes that they
were patched with (`Node.AllFace`): tags and texts agree wherever they are compared.  So patching
with the same nodes again keeps everything but attributes (`HostState.bareAll_display`).  Whether it
keeps the attributes too depends on each list of them alone: it has to be `Attributes.Settled`.
-/

namespace LiveMarkup

namespace Attributes

/-- The value of the last attribute with a name. -/
def last? (name : String) : List Attr → Option String
  | [] => none
  | a :: as =>
    match last? name as with
    | some v => some v
    | none => if a.name = name then some a.value else none

/-- Attributes that stay as they are when new ones are patched in once more and their marker is
read: none of them is left over or is a marker, and what goes to a name last is either a marker or
what stands there. -/
structure Settled (as new : List Attr) : Prop where
  length_le : as.length ≤ new.length
  unmarked : eventAttribute ∉ names as
  value_eq : ∀ name v, last? name (faced as new) = some v → name = eventAttribute ∨
    get? name as = some v

theorem last?_eq_none_iff {name : String} {as : List Attr} :
    last? name as = none ↔ name ∉ names as := by
  induction as with
  | nil => simp [last?]
  | cons a as ih =>
    rw [last?, names_cons, List.mem_cons, not_or]
    rcases h : last? name as with _ | v
    · rw [h] at ih
      by_cases ha : a.name = name
      · simp [ha]
      · simp [ha, Ne.symm ha, ih.1 rfl]
    · rw [h] at ih
      simp at ih
      simp [ih]

/-- The attributes with a name do not matter to another name. -/
theorem last?_filter {name other : String} (h : other ≠ name) (cs : List Attr) :
    last? other (cs.filter (·.name ≠ name)) = last? other cs := by
  induction cs with
  | nil => rfl
  | cons c cs ih =>
    by_cases hc : c.name = name
    · rw [List.filter_cons_of_neg (by simp [hc]), ih, last?]
      have hne : c.name ≠ other := fun e => h (e.symm.trans hc)
      cases last? other cs <;> simp [hne]
    · rw [List.filter_cons_of_pos (by simp [hc]), last?, last?, ih]

/-- Storing goes to an attribute if it has the name, and past it if not. -/
theorem putAll_cons (a : Attr) (as cs : List Attr) :
    putAll (a :: as) cs =
      ⟨a.name, (last? a.name cs).getD a.value⟩ :: putAll as (cs.filter (·.name ≠ a.name)) := by
  induction cs generalizing a as with
  | nil => rfl
  | cons c cs ih =>
    rw [putAll, put]
    by_cases h : a.name = c.name
    · rw [if_pos h, ih, List.filter_cons_of_neg (by simp [h]), last?]
      cases last? a.name cs <;> simp [h]
    · rw [if_neg h, ih, List.filter_cons_of_pos (by simp [Ne.symm h]), putAll, last?]
      cases last? a.name cs <;> simp [Ne.symm h]

theorem count_names_putAll {name : String} {as cs : List Attr} (h : name ∉ names cs) :
    (names (putAll as cs)).count name = (names as).count name := by
  induction cs generalizing as with
  | nil => rfl
  | cons c cs ih =>
    rw [names_cons, List.mem_cons, not_or] at h
    rw [putAll, ih h.2, names_put]
    split_ifs
    · rfl
    · simp [Ne.symm h.1]

theorem names_subset_putAll (as cs : List Attr) : names as ⊆ names (putAll as cs) := by
  induction cs generalizing as with
  | nil => exact List.Subset.refl _
  | cons c cs ih =>
    refine List.Subset.trans ?_ (ih _)
    rw [names_put]
    split_ifs
    · exact List.Subset.refl _
    · exact List.subset_append_left _ _

theorem mem_names_putAll {name : String} {cs : List Attr} (h : name ∈ names cs) (as : List Attr) :
    name ∈ names (putAll as cs) := by
  induction cs generalizing as with
  | nil => cases h
  | cons c cs ih =>
    rw [names_cons, List.mem_cons] at h
    rcases h with rfl | h
    · refine names_subset_putAll _ cs ?_
      rw [names_put]
      split_ifs with hm
      · exact hm
      · simp
    · exact ih h _

/-- Nothing is left if nothing but markers was stored. -/
theorem drop_putAll_nil_iff (cs : List Attr) :
    drop eventAttribute (putAll [] cs) = [] ↔ ∀ name ∈ names cs, name = eventAttribute := by
  constructor
  · intro h name hm
    by_contra hne
    have hc := count_names_drop eventAttribute name (putAll [] cs)
    rw [h, if_neg (Ne.symm hne), names_nil, List.count_nil, Nat.sub_zero] at hc
    exact List.count_eq_zero.1 hc.symm (mem_names_putAll hm [])
  · intro h
    cases cs with
    | nil => rfl
    | cons c cs =>
      have hc : c.name = eventAttribute := h c.name (by simp)
      have hnil : cs.filter (·.name ≠ c.name) = [] := by
        refine List.filter_eq_nil_iff.2 fun d hd => ?_
        have hd := h d.name (List.mem_map_of_mem (List.mem_cons_of_mem c hd))
        simp [hd, hc]
      rw [putAll, put, putAll_cons, hnil, putAll, drop, if_pos hc]

/-- Storing attributes and taking the marker away again changes nothing just if what goes to a name
last is a marker or stands there already. -/
theorem drop_putAll_eq_iff (as cs : List Attr) :
    drop eventAttribute (putAll as cs) = as ↔
      eventAttribute ∉ names as ∧
        ∀ name v, last? name cs = some v → name = eventAttribute ∨ get? name as = some v := by
  induction as generalizing cs with
  | nil =>
    rw [drop_putAll_nil_iff]
    constructor
    · intro h
      refine ⟨by simp, fun name v hl => Or.inl (h name ?_)⟩
      by_contra hm
      rw [last?_eq_none_iff.2 hm] at hl
      cases hl
    · rintro ⟨-, h⟩ name hm
      rcases hl : last? name cs with _ | v
      · exact absurd hm (last?_eq_none_iff.1 hl)
      · exact (h name v hl).resolve_right (by simp [get?])
  | cons a as ih =>
    rw [putAll_cons, drop, names_cons, List.mem_cons, not_or]
    split_ifs with ha
    · -- A marker that stands there is lost, since storing makes no second one.
      refine iff_of_false ?_ fun h => h.1.1 ha.symm
      intro h
      have hc : (names (putAll as (cs.filter (·.name ≠ a.name)))).count eventAttribute =
          (names as).count eventAttribute := by
        refine count_names_putAll fun hm => ?_
        obtain ⟨c, hc, hn⟩ := List.mem_map.1 hm
        exact of_decide_eq_true (List.mem_filter.1 hc).2 (hn.trans ha.symm)
      rw [h, names_cons, List.count_cons, if_pos (beq_iff_eq.2 ha)] at hc
      omega
    · have hcons : (⟨a.name, (last? a.name cs).getD a.value⟩ :: drop eventAttribute
            (putAll as (cs.filter (·.name ≠ a.name))) = a :: as) ↔
          (last? a.name cs).getD a.value = a.value ∧
            drop eventAttribute (putAll as (cs.filter (·.name ≠ a.name))) = as := by
        obtain ⟨name, value⟩ := a
        simp
      rw [hcons, ih]
      constructor
      · rintro ⟨hv, hu, h⟩
        refine ⟨⟨Ne.symm ha, hu⟩, fun name v hl => ?_⟩
        rw [get?]
        split_ifs with hn
        · subst hn
          rw [hl] at hv
          exact Or.inr (congrArg some hv.symm)
        · exact h name v (by rw [last?_filter (Ne.symm hn), hl])
      · rintro ⟨⟨-, hu⟩, h⟩
        refine ⟨?_, hu, fun name v hl => ?_⟩
        · rcases hl : last? a.name cs with _ | v
          · rfl
          · have hv := (h a.name v hl).resolve_left ha
            rw [get?, if_pos rfl] at hv
            exact (Option.some.inj hv).symm
        · by_cases hn : name = a.name
          · rw [last?_eq_none_iff.2 (by simp [names, hn])] at hl
            cases hl
          · rw [last?_filter hn] at hl
            have hv := h name v hl
            rwa [get?, if_neg (Ne.symm hn)] at hv

theorem length_drop_le (name : String) (as : List Attr) : (drop name as).length ≤ as.length := by
  by_cases h : name ∈ names as
  · have := length_drop h
    omega
  · exact Nat.le_of_eq (congrArg List.length (drop_of_not_mem h))

theorem drop_eq_iff {name : String} {as : List Attr} : drop name as = as ↔ name ∉ names as := by
  refine ⟨fun h hm => ?_, drop_of_not_mem⟩
  have := length_drop hm
  rw [h] at this
  omega

theorem length_dropAll_le (as gone : List Attr) : (dropAll as gone).length ≤ as.length := by
  induction gone generalizing as with
  | nil => exact Nat.le_refl _
  | cons g gone ih => exact Nat.le_trans (ih _) (length_drop_le g.name as)

theorem length_dropAll_lt {as gone : List Attr} (hne : gone ≠ []) (h : names gone ⊆ names as) :
    (dropAll as gone).length < as.length := by
  cases gone with
  | nil => exact absurd rfl hne
  | cons g gone =>
    rw [names_cons, List.cons_subset] at h
    have := length_drop h.1
    have := length_dropAll_le (drop g.name as) gone
    rw [dropAll]
    omega

/-- Patching the same attributes in once more and reading their marker changes nothing just if they
are settled. -/
theorem drop_byName_eq_iff (as new : List Attr) :
    drop eventAttribute (AttrPatch.byName as new).attrs = as ↔ Settled as new := by
  rcases Nat.lt_or_ge new.length as.length with h | h
  · refine iff_of_false ?_ fun hs => Nat.not_le.2 h hs.length_le
    intro he
    have hnames : names (putAll as (faced as new)) = names as :=
      names_putAll_of_subset (names_faced_subset (Nat.le_of_lt h))
    have hlen : (putAll as (faced as new)).length = as.length := by
      simpa [names] using congrArg List.length hnames
    have hlt : (AttrPatch.byName as new).attrs.length < (putAll as (faced as new)).length := by
      refine length_dropAll_lt ?_ ?_
      · simpa using h
      · rw [hnames]
        exact List.map_subset _ (List.drop_subset _ _)
    have hle := length_drop_le eventAttribute (AttrPatch.byName as new).attrs
    rw [he] at hle
    omega
  · have hattrs : (AttrPatch.byName as new).attrs = putAll as (faced as new) := by
      simp [AttrPatch.byName, List.drop_eq_nil_of_le h, dropAll]
    rw [hattrs, drop_putAll_eq_iff]
    exact ⟨fun hs => ⟨h, hs.1, hs.2⟩, fun hs => ⟨hs.unmarked, hs.value_eq⟩⟩

end Attributes

/-! ### Nodes -/

namespace Node

mutual

/-- Whether a node has the tag or the text that a new node asks for, and so on below it.  An element
that faces a text is not asked for anything. -/
def Faces : Node → Node → Prop
  | text t, new => t = new.asText?.getD ""
  | element .., text _ => True
  | element tag _ cs, element tag' _ cs' => tag = tag' ∧ AllFace cs cs'

/-- Whether nodes face as many new nodes. -/
def AllFace : List Node → List Node → Prop
  | [], [] => True
  | o :: os, n :: ns => o.Faces n ∧ AllFace os ns
  | _, _ => False

end

mutual

/-- Whether no attribute of a node or of a node below it is a marker. -/
def Unmarked : Node → Prop
  | text _ => True
  | element _ as cs => eventAttribute ∉ Attributes.names as ∧ AllUnmarked cs

/-- Whether no attribute of several nodes is a marker. -/
def AllUnmarked : List Node → Prop
  | [] => True
  | n :: ns => n.Unmarked ∧ AllUnmarked ns

end

mutual

/-- Whether the attributes of a node are settled, and so on below it.  Nothing is patched into an
element that faces a text, but its markers are read. -/
def Settled : Node → Node → Prop
  | text _, _ => True
  | element tag as cs, text _ => (element tag as cs).Unmarked
  | element _ as cs, element _ as' cs' => Attributes.Settled as as' ∧ AllSettled cs cs'

/-- Whether the attributes of nodes are settled. -/
def AllSettled : List Node → List Node → Prop
  | o :: os, n :: ns => o.Settled n ∧ AllSettled os ns
  | _, _ => True

end

mutual

/-- A node without the markers that are read in it. -/
def unmark : Node → Node
  | text t => text t
  | element tag as cs => element tag (Attributes.drop eventAttribute as) (unmarkAll cs)

/-- Nodes without the markers that are read in them. -/
def unmarkAll : List Node → List Node
  | [] => []
  | n :: ns => n.unmark :: unmarkAll ns

end

mutual

/-- A node faces itself. -/
theorem faces_self : (n : Node) → n.Faces n
  | text t => by
    rw [Faces]
    rfl
  | element tag as cs => by
    rw [Faces]
    exact ⟨rfl, allFace_self cs⟩

theorem allFace_self : (ns : List Node) → AllFace ns ns
  | [] => trivial
  | n :: ns => by
    rw [AllFace]
    exact ⟨faces_self n, allFace_self ns⟩

end

mutual

theorem unmark_eq_iff : {n : Node} → n.unmark = n ↔ n.Unmarked
  | text t => by rw [unmark, Unmarked, eq_self_iff_true]
  | element tag as cs => by
    rw [unmark, Unmarked, ← unmarkAll_eq_iff, ← Attributes.drop_eq_iff]
    simp

theorem unmarkAll_eq_iff : {ns : List Node} → unmarkAll ns = ns ↔ AllUnmarked ns
  | [] => by rw [unmarkAll, AllUnmarked, eq_self_iff_true]
  | n :: ns => by
    rw [unmarkAll, AllUnmarked, List.cons.injEq, unmark_eq_iff, unmarkAll_eq_iff]

end

section Patch

variable {rule : List Attr → List Attr → AttrPatch}

mutual

/-- What patching makes of a node faces the node that it was patched with. -/
theorem faces_patch : (o n : Node) → (o.patch rule n).1.Faces n
  | text t, n => by rw [patch, Faces]
  | element tag as cs, text t => by
    rw [patch, Faces]
    trivial
  | element tag as cs, element tag' as' cs' => by
    rw [patch]
    split_ifs with h
    · rw [Faces]
      exact ⟨h, allFace_patchAll cs cs'⟩
    · exact faces_self _

theorem allFace_patchAll : (os ns : List Node) → AllFace (patchAll rule os ns).1 ns
  | [], ns => by
    rw [patchAll]
    exact allFace_self ns
  | o :: os, [] => by
    rw [patchAll, AllFace]
    trivial
  | o :: os, n :: ns => by
    rw [patchAll, AllFace]
    exact ⟨faces_patch o n, allFace_patchAll os ns⟩

end

end Patch

mutual

theorem Faces.unmark : {o n : Node} → o.Faces n → o.unmark.Faces n
  | text t, n, h => by rwa [Node.unmark]
  | element tag as cs, text t, _ => by
    rw [Node.unmark, Faces]
    trivial
  | element tag as cs, element tag' as' cs', h => by
    rw [Faces] at h
    rw [Node.unmark, Faces]
    exact ⟨h.1, AllFace.unmarkAll h.2⟩

theorem AllFace.unmarkAll : {os ns : List Node} → AllFace os ns → AllFace (unmarkAll os) ns
  | [], [], _ => by
    rw [Node.unmarkAll, AllFace]
    trivial
  | o :: os, n :: ns, h => by
    rw [AllFace] at h
    rw [Node.unmarkAll, AllFace]
    exact ⟨h.1.unmark, h.2.unmarkAll⟩

end

mutual

/-- Patching a node with the node that it faces and reading its markers changes nothing just if it
is settled. -/
theorem Faces.unmark_patch_eq_iff : {o n : Node} → o.Faces n →
    ((o.patch AttrPatch.byName n).1.unmark = o ↔ o.Settled n)
  | text t, n, h => by
    rw [Faces] at h
    rw [patch, Node.unmark, ← h, Settled]
    simp
  | element tag as cs, text t, _ => by
    rw [patch, Settled, unmark_eq_iff]
  | element tag as cs, element tag' as' cs', h => by
    rw [Faces] at h
    rw [patch, if_pos h.1, Node.unmark, Settled, ← Attributes.drop_byName_eq_iff,
      ← h.2.unmarkAll_patchAll_eq_iff]
    simp

theorem AllFace.unmarkAll_patchAll_eq_iff : {os ns : List Node} → AllFace os ns →
    (unmarkAll (patchAll AttrPatch.byName os ns).1 = os ↔ AllSettled os ns)
  | [], [], _ => by
    rw [patchAll, Node.unmarkAll]
    simp [AllSettled]
  | o :: os, n :: ns, h => by
    rw [AllFace] at h
    rw [patchAll, Node.unmarkAll, AllSettled, ← h.1.unmark_patch_eq_iff,
      ← h.2.unmarkAll_patchAll_eq_iff]
    simp

end

end Node

/-! ### Live nodes -/

namespace Live

variable {L : Type}

mutual

/-- A live node without attributes and listeners. -/
def bare : Live L → Live L
  | text i _ t => text i [] t
  | element i _ tag _ cs => element i [] tag [] (bareAll cs)

/-- Live nodes without attributes and listeners. -/
def bareAll : List (Live L) → List (Live L)
  | [] => []
  | n :: ns => n.bare :: bareAll ns

end

section Bind

variable (make : String → String → L)

mutual

/-- Reading markers takes them off the content of a node. -/
theorem node_bind (b : Binder) : (l : Live L) → (l.bind make b).1.node = l.node.unmark
  | text i ls t => by rw [bind, node, Node.unmark]
  | element i ls tag as cs => by
    rw [node, Node.unmark, bind]
    cases Attributes.get? eventAttribute as <;> exact congrArg (Node.element tag _)
      (nodes_bindAll _ cs)

theorem nodes_bindAll (b : Binder) :
    (ls : List (Live L)) → nodes (bindAll make b ls).1 = Node.unmarkAll (nodes ls)
  | [] => by rw [bindAll, nodes_nil, Node.unmarkAll]
  | l :: ls => by
    rw [nodes_cons, Node.unmarkAll, bindAll]
    exact congrArg₂ List.cons (node_bind b l) (nodes_bindAll _ ls)

end

mutual

theorem bare_bind (b : Binder) : (l : Live L) → (l.bind make b).1.bare = l.bare
  | text i ls t => by rw [bind]
  | element i ls tag as cs => by
    rw [bind, bare]
    cases Attributes.get? eventAttribute as <;>
      exact congrArg (element i [] tag []) (bareAll_bindAll _ cs)

theorem bareAll_bindAll (b : Binder) :
    (ls : List (Live L)) → bareAll (bindAll make b ls).1 = bareAll ls
  | [] => by rw [bindAll]
  | l :: ls => by
    rw [bindAll, bareAll, bareAll]
    exact congrArg₂ List.cons (bare_bind b l) (bareAll_bindAll _ ls)

end

end Bind

mutual

/-- Patching a live node with a node that it faces keeps everything but attributes. -/
theorem bare_patch (next : NodeId) : (l : Live L) → (n : Node) → l.node.Faces n →
    (l.patch next n).1.bare = l.bare
  | text i ls t, n, h => by
    rw [node, Node.Faces] at h
    rw [patch, if_pos h]
  | element i ls tag as cs, .text t, _ => by rw [patch]
  | element i ls tag as cs, .element tag' as' cs', h => by
    rw [node, Node.Faces] at h
    rw [patch, if_pos h.1, bare, bare]
    exact congrArg (element i [] tag []) (bareAll_patchAll next cs cs' h.2)

theorem bareAll_patchAll (next : NodeId) : (ls : List (Live L)) → (ns : List Node) →
    Node.AllFace (nodes ls) ns → bareAll (patchAll next ls ns).1 = bareAll ls
  | [], [], _ => by
    rw [patchAll]
    rfl
  | l :: ls, n :: ns, h => by
    rw [nodes_cons, Node.AllFace] at h
    rw [patchAll, bareAll, bareAll]
    exact congrArg₂ List.cons (bare_patch next l n h.1) (bareAll_patchAll _ ls ns h.2)

end

end Live

/-! ### Displaying nodes -/

namespace HostState

variable {σ : Type} (s : HostState σ) (new : List Node)

theorem nodesOf_display : (s.display new).2.document.nodesOf rootId =
    Node.unmarkAll (Node.patchAll AttrPatch.byName (s.document.nodesOf rootId) new).1 := by
  have hp := congrArg Prod.fst (s.document.reconcile_eq_byName rootId new (Or.inl rfl))
  exact (Live.nodes_bindAll (fun _ method => method) ⟨s.registry, []⟩ _).trans
    (congrArg Node.unmarkAll hp)

/-- What is displayed faces the nodes that were to be displayed. -/
theorem allFace_display : Node.AllFace ((s.display new).2.document.nodesOf rootId) new := by
  rw [nodesOf_display]
  exact (Node.allFace_patchAll _ _).unmarkAll

/-- Where nodes are displayed that are faced already, only attributes and listeners change. -/
theorem bareAll_display (h : Node.AllFace (s.document.nodesOf rootId) new) :
    Live.bareAll (s.display new).2.document.children = Live.bareAll s.document.children :=
  (Live.bareAll_bindAll (fun _ method => method) ⟨s.registry, []⟩ _).trans
    (Live.bareAll_patchAll s.document.next s.document.children new h)

/-- Where nodes are displayed that are faced already, nothing changes just if all attributes are
settled. -/
theorem nodesOf_display_eq_iff (h : Node.AllFace (s.document.nodesOf rootId) new) :
    (s.display new).2.document.nodesOf rootId = s.document.nodesOf rootId ↔
      Node.AllSettled (s.document.nodesOf rootId) new := by
  rw [nodesOf_display, h.unmarkAll_patchAll_eq_iff]

end HostState

end LiveMarkup
