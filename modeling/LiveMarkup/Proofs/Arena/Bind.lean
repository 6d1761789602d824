import LiveMarkup.Arena.Binder
import LiveMarkup.Proofs.Arena.Focus
import LiveMarkup.Proofs.Arena.Walk
import LiveMarkup.Proofs.Document.Bound

/-!
# Reading markers in cells

`Arena.bind` collects the elements with a marker before it takes any off, while `Live.bindAll` reads
markers as it meets them.  Taking a marker off a node changes the cell of this node alone, so what
was collected for all nodes behind it is still right, and both give the same
(`Holds.bindEach_cellsAll`).
-/

namespace LiveMarkup

namespace Live

variable {L : Type}

/-- The identities of those nodes that have a marker. -/
def marked (ns : List (Live L)) : List NodeId :=
  (ns.filter fun n => (Attributes.get? eventAttribute n.attrs).isSome).map id

theorem marked_append (ns ns' : List (Live L)) : marked (ns ++ ns') = marked ns ++ marked ns' := by
  rw [marked, List.filter_append, List.map_append, marked, marked]

theorem map_id_bindAll (make : String → String → L) (b : Binder) (ts : List (Live L)) :
    (bindAll make b ts).1.map id = ts.map id := by
  induction ts generalizing b with
  | nil => rfl
  | cons t ts ih =>
    have hid : (t.bind make b).1.id = t.id := by cases t <;> rfl
    rw [bindAll, List.map_cons, List.map_cons, hid, ih]

end Live

namespace Arena

namespace Holds

open Live (fan cellsAll)

variable {L : Type} {next i : NodeId} {cs : List (Cell L)} {q : Option NodeId} {js : List NodeId}
  {tag : String} {as : List Attr} (make : String → String → L)

/-- A marker is read in the cell of its node. -/
theorem bindOne {a : Arena L} {ls : Listeners L} {marker : String} (b : Binder)
    (h : a.Holds next (⟨i, ⟨.element tag as, q, js⟩, ls⟩ :: cs))
    (hget : Attributes.get? eventAttribute as = some marker) :
    (a.bindOne make b i).1 = (Live.readMarker make b i ls marker).2 ∧
    (a.bindOne make b i).2.Holds next
      (⟨i, ⟨.element tag (Attributes.drop eventAttribute as), q, js⟩,
        (Live.readMarker make b i ls marker).1⟩ :: cs) := by
  obtain ⟨hvalue, hremove⟩ := h.removeAttribute eventAttribute
  rw [hget] at hvalue
  rcases hr : a.removeAttribute i eventAttribute with ⟨value, a'⟩
  rw [hr] at hvalue hremove
  cases hvalue
  rw [Arena.bindOne, hr, Live.readMarker]
  dsimp only
  rcases splitMarker? marker with _ | ⟨kind, method⟩
  · exact ⟨rfl, hremove⟩
  · dsimp only
    split_ifs
    · exact ⟨rfl, hremove⟩
    · exact ⟨rfl, (hremove.addListener kind _).2⟩

/-- If a node has a marker, it is read before those of all nodes behind it. -/
theorem bindEach_marked {a : Arena L} {ls : Listeners L} {b : Binder} (ts below : List (Live L))
    (is : List NodeId) (h : a.Holds next (⟨i, ⟨.element tag as, q, js⟩, ls⟩ :: cs)) :
    ∃ a' : Arena L, a'.Holds next (⟨i, ⟨.element tag (Attributes.drop eventAttribute as), q, js⟩,
        (Live.readOne make b (.element i ls tag as ts)).1⟩ :: cs) ∧
      a.bindEach make b (Live.marked (.element i ls tag as ts :: below) ++ is) =
        a'.bindEach make (Live.readOne make b (.element i ls tag as ts)).2
        (Live.marked below ++ is) := by
  rw [Live.readOne_element, Live.marked, List.filter_cons, Live.attrs]
  cases hget : Attributes.get? eventAttribute as with
  | none =>
    rw [Attributes.drop_of_not_mem (Attributes.get?_eq_none_iff.1 hget)]
    exact ⟨a, h, rfl⟩
  | some marker =>
    obtain ⟨hbinder, hone⟩ := h.bindOne make b hget
    refine ⟨_, hone, ?_⟩
    dsimp only
    rw [← hbinder]
    rfl

mutual

/-- The markers of a node and of all nodes below it are read before those of other nodes. -/
theorem bindEach_cells (parent : NodeId) (is : List NodeId) :
    (l : Live L) → {a : Arena L} → {b b' : Binder} →
    {l' : Live L} → {cs : List (Cell L)} → l.bind make b = (l', b') → a.Holds next
    (l.cells parent ++ cs) →
      ∃ a' : Arena L, a'.Holds next (l'.cells parent ++ cs) ∧
        a.bindEach make b (Live.marked l.subtree ++ is) = a'.bindEach make b' is
  | .text i ls t, a, b, _, _, cs, hl, h => by
    cases hl
    exact ⟨a, h, rfl⟩
  | .element i ls tag as ts, a, b, _, _, cs, hl, h => by
    obtain ⟨a', ha', hbind⟩ := h.bindEach_marked make (b := b) ts (Live.subtrees ts) is
    obtain ⟨a'', ha'', hbind'⟩ :=
      bindEach_cellsAll i is (b := (Live.readOne make b (.element i ls tag as ts)).2) ts rfl
      (ha'.perm List.perm_middle.symm)
    rw [Live.readOne_element] at ha'' hbind hbind'
    rw [Live.bind] at hl
    cases hl
    rw [Live.subtree_element, hbind]
    refine ⟨a'', ?_, hbind'⟩
    rw [Live.cells, Live.map_id_bindAll]
    exact ha''.perm List.perm_middle

/-- The markers of several nodes and of all nodes below them are read one after the other. -/
theorem bindEach_cellsAll (parent : NodeId) (is : List NodeId) :
    (ts : List (Live L)) → {a : Arena L} →
    {b b' : Binder} → {ts' : List (Live L)} → {cs : List (Cell L)} →
    Live.bindAll make b ts = (ts', b') →
    a.Holds next (cellsAll parent ts ++ cs) →
      ∃ a' : Arena L, a'.Holds next (cellsAll parent ts' ++ cs) ∧
        a.bindEach make b (Live.marked (Live.subtrees ts) ++ is) = a'.bindEach make b' is
  | [], a, b, _, _, cs, hts, h => by
    cases hts
    exact ⟨a, h, rfl⟩
  | t :: ts, a, b, _, _, cs, hts, h => by
    cases hts
    rw [cellsAll, List.append_assoc] at h
    obtain ⟨a', ha', hbind⟩ := bindEach_cells parent (Live.marked (Live.subtrees ts) ++ is) t rfl h
    obtain ⟨a'', ha'', hbind'⟩ :=
      bindEach_cellsAll parent is ts rfl (ha'.perm (List.perm_append_comm_assoc ..))
    rw [Live.subtrees_cons, Live.marked_append, List.append_assoc, hbind]
    exact ⟨a'', ha''.perm (Live.cellsAll_cons ..).symm, hbind'⟩

end

variable {a : Arena L} {d : Document L} {r : Registry}

theorem descendants?_root (h : a.Holds next d.cells) : a.descendants? rootId = some d.ids := by
  have hopen : a.Holds next (fan rootId .root none d.listeners d.children ++ []) := by
    rw [List.append_nil]
    exact h
  exact hopen.descendants?_eq

/-- The markers of a document are read in its cells. -/
theorem bind (h : a.Holds next d.cells) : ∃ a' : Arena L, a'.Holds next (d.bind r make).2.1.cells ∧
    a.bind r make = some ((d.bind r make).1, a', (d.bind r make).2.2) := by
  have hmarked : d.ids.filter (fun i => (a.attribute? i eventAttribute).isSome) =
      Live.marked (Live.subtrees d.children) := by
    rw [Document.ids, List.filter_map, Live.marked]
    refine congrArg _ (List.filter_congr fun n hn => ?_)
    obtain ⟨p, hp⟩ := Live.exists_mem_cellsAll rootId d.children hn
    rw [Function.comp_apply, h.attribute?_eq (List.mem_cons_of_mem _ hp), Live.attrs_kind]
  obtain ⟨a', ha', hbind⟩ := bindEach_cellsAll make rootId [] (b := ⟨r, []⟩) d.children rfl
    (h.perm (List.perm_append_singleton _ _).symm)
  rw [List.append_nil] at hbind
  refine ⟨a', ?_, ?_⟩
  · rw [Document.cells, fan, Document.bind, Live.map_id_bindAll]
    exact ha'.perm (List.perm_append_singleton _ _)
  · rw [Arena.bind, h.descendants?_root]
    dsimp only [Option.bind_eq_bind, Option.bind_some]
    rw [hmarked, hbind]
    rfl

end Holds

end Arena

end LiveMarkup
