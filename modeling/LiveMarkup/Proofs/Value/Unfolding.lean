import LiveMarkup.Value.Snapshot
import Mathlib.Data.List.Perm.Subperm
import Mathlib.Logic.Relation

/-!
# Snapshots as unfoldings

Containers may share their contents and hold themselves, so what a value stands for is a tree that
can be infinite: its positions are the paths through what containers hold (`Value.Occurs`).  A
snapshot cuts this tree off where a container occurs below itself and nowhere else
(`Value.Unfolds`), and it is the only one that does so (`Value.unfolds_iff_eq_snapshot`).  No path
is longer than there are containers, and in a heap without cycles nothing is cut off, so that the
walk may as well forget what is open (`Value.writesOut_iff_eq_snapshot`).
-/

namespace LiveMarkup

/-! ### Positions of a snapshot -/

namespace Snapshot

/-- What a snapshot holds, in order. -/
def parts : Snapshot → List Snapshot
  | array items => items
  | object entries => entries.map Prod.snd
  | _ => []

/-- The snapshot at a position, given by the indices that lead to it. -/
def at? : Snapshot → List Nat → Option Snapshot
  | s, [] => some s
  | s, i :: p => s.parts[i]?.bind fun t => t.at? p

/-- A snapshot with `null` for everything that it holds: of an array the number of items is left, of
an object the names in their order. -/
def outline : Snapshot → Snapshot
  | array items => array (items.map fun _ => null)
  | object entries => object (entries.map fun e => (e.1, null))
  | s => s

variable {s t : Snapshot} {i : Nat} {p : List Nat}

theorem at?_cons : s.at? (i :: p) = s.parts[i]?.bind fun t => t.at? p := rfl

theorem sizeOf_lt_of_mem_parts (ht : t ∈ s.parts) : sizeOf t < sizeOf s := by
  cases s with
  | array items =>
    have hlt : sizeOf t < sizeOf items := List.sizeOf_lt_of_mem ht
    simp only [array.sizeOf_spec]
    omega
  | object entries =>
    obtain ⟨e, he, rfl⟩ := List.mem_map.1 ht
    have hlt := List.sizeOf_lt_of_mem he
    have hsnd : sizeOf e.2 < sizeOf e := by
      cases e
      simp only [Prod.mk.sizeOf_spec]
      omega
    simp only [object.sizeOf_spec]
    omega
  | _ => cases ht

/-- A snapshot is its outline filled with what it holds. -/
theorem eq_of_outline_of_parts (ho : s.outline = t.outline) (hp : s.parts = t.parts) : s = t := by
  cases s with
  | object es =>
    cases t with
    | object es' =>
      have hnames : es.map Prod.fst = es'.map Prod.fst := by
        have hmap := congrArg (List.map Prod.fst) (object.inj ho)
        simpa only [List.map_map, Function.comp_def] using hmap
      have hvalues : es.map Prod.snd = es'.map Prod.snd := hp
      congr 1
      rw [← List.zip_unzip es, ← List.zip_unzip es', List.unzip_eq_map, List.unzip_eq_map,
        hnames, hvalues]
    | _ => cases ho
  | array items =>
    cases t with
    | array items' => exact congrArg array hp
    | _ => cases ho
  | _ => cases t <;> first | exact ho | cases ho

/-- Snapshots with the same outline at every position are equal. -/
theorem eq_of_at? (s t : Snapshot) (h : ∀ p, (s.at? p).map outline = (t.at? p).map outline) :
    s = t := by
  refine eq_of_outline_of_parts (Option.some_inj.1 (h [])) (List.ext_getElem? fun i => ?_)
  have hi := fun p => h (i :: p)
  simp only [at?_cons] at hi
  cases hs : s.parts[i]? with
  | none =>
    cases ht : t.parts[i]? with
    | none => rfl
    | some b => simpa [hs, ht, at?] using hi []
  | some a =>
    cases ht : t.parts[i]? with
    | none => simpa [hs, ht, at?] using hi []
    | some b =>
      simp only [hs, ht, Option.bind_some] at hi
      have hlt := sizeOf_lt_of_mem_parts (List.mem_of_getElem? hs)
      rw [eq_of_at? a b hi]
termination_by sizeOf s

end Snapshot

/-! ### Positions of a value -/

namespace Value

/-- What a value holds, in order. -/
def parts (h : Heap) : Value → List Value
  | array r => (h.items r).toList
  | object r => (h.entries r).map Prod.snd
  | _ => []

/-- A value written out, with `f` for everything that it holds. -/
def writeOut (h : Heap) (f : Value → Snapshot) : Value → Snapshot
  | undefined | null | function _ => .null
  | bool b => .bool b
  | number x => numberSnapshot x
  | string s => .string s
  | array r => .array ((h.items r).toList.map f)
  | object r => .object ((h.entries r).map fun e => (e.1, f e.2))

/-- How a value shows below the given containers: as `null` if its own container is one of them, and
else written out with `null` for everything that it holds. -/
def outline (h : Heap) (above : List Container) (v : Value) : Snapshot :=
  if ∃ c ∈ v.container?, c ∈ above then .null else v.writeOut h fun _ => .null

/-- `Occurs h above v p above' u` says that a walk from `v` along the indices `p` through what
containers hold ends at `u`, and that `above'` are the containers passed on the way, the last one
first, in front of `above`. -/
inductive Occurs (h : Heap) : List Container → Value → List Nat → List Container → Value → Prop
  | here {above : List Container} {v : Value} : Occurs h above v [] above v
  | part {above above' : List Container} {c : Container} {i : Nat} {p : List Nat} {v t u : Value}
    (hc : v.container? = some c) (ht : (v.parts h)[i]? = some t)
    (hu : Occurs h (c :: above) t p above' u) :
    Occurs h above v (i :: p) above' u

/-- A snapshot that shows what occurs at each position of a value: `null` for a container below
itself, any other container in full, and no positions below a container that shows as `null`. -/
def Unfolds (h : Heap) (v : Value) (s : Snapshot) : Prop :=
  ∀ p o, (s.at? p).map Snapshot.outline = some o ↔
    ∃ above u, Occurs h [] v p above u ∧ above.Nodup ∧ u.outline h above = o

variable {h : Heap} {f g : Value → Snapshot} {opn above above' : List Container}
  {c : Container} {u v : Value} {p : List Nat}

/-- A container that holds something is in the heap. -/
theorem exists_container_of_mem_parts (hu : u ∈ v.parts h) :
    ∃ c, v.container? = some c ∧ c ∈ h.containers := by
  cases v with
  | array r =>
    refine ⟨.array r, rfl, Heap.array_mem_containers (Nat.lt_of_not_le fun hr => ?_)⟩
    simp [parts, Heap.items_eq_empty hr] at hu
  | object r =>
    refine ⟨.object r, rfl, Heap.object_mem_containers (Nat.lt_of_not_le fun hr => ?_)⟩
    simp [parts, Heap.entries, Array.getD, Nat.not_lt.2 hr] at hu
  | _ => cases hu

theorem Occurs.suffix (hu : Occurs h above v p above' u) : above <:+ above' := by
  induction hu with
  | here => exact List.suffix_rfl
  | part _ _ _ ih => exact (List.suffix_cons _ _).trans ih

theorem Occurs.length_eq (hu : Occurs h above v p above' u) :
    above'.length = above.length + p.length := by
  induction hu with
  | here => rfl
  | part _ _ _ ih =>
    simp only [List.length_cons] at ih ⊢
    omega

theorem Occurs.above_subset (hu : Occurs h above v p above' u) (ha : above ⊆ h.containers) :
    above' ⊆ h.containers := by
  induction hu with
  | here => exact ha
  | part hc ht _ ih =>
    obtain ⟨c', hc', hmem⟩ := exists_container_of_mem_parts (List.mem_of_getElem? ht)
    obtain rfl := Option.some_inj.1 (hc.symm.trans hc')
    exact ih (List.cons_subset.2 ⟨hmem, ha⟩)

/-! ### Values written out -/

theorem numberSnapshot_cases (x : Float) :
    numberSnapshot x = .null ∨ (∃ n, numberSnapshot x = .integer n) ∨
    numberSnapshot x = .fraction x := by
  unfold numberSnapshot
  split
  · split
    · split_ifs <;> simp
    · simp
  · simp

theorem outline_writeOut : (v.writeOut h f).outline = v.writeOut h fun _ => .null := by
  cases v with
  | number x =>
    rcases numberSnapshot_cases x with
      hx | ⟨n, hx⟩ | hx <;> simp only [writeOut, hx, Snapshot.outline]
  | array r => simp only [writeOut, Snapshot.outline, List.map_map, Function.comp_def]
  | object r => simp only [writeOut, Snapshot.outline, List.map_map, Function.comp_def]
  | _ => rfl

theorem parts_writeOut : (v.writeOut h f).parts = (v.parts h).map f := by
  cases v with
  | number x =>
    rcases numberSnapshot_cases x with
      hx | ⟨n, hx⟩ | hx <;> simp only [writeOut, hx, Snapshot.parts] <;> rfl
  | array r => rfl
  | object r => simp only [writeOut, Snapshot.parts, parts, List.map_map, Function.comp_def]
  | _ => rfl

theorem writeOut_congr (hfg : ∀ u ∈ v.parts h, f u = g u) : v.writeOut h f = v.writeOut h g :=
  Snapshot.eq_of_outline_of_parts (by rw [outline_writeOut, outline_writeOut])
    (by rw [parts_writeOut, parts_writeOut, List.map_congr_left hfg])

/-! ### The walk -/

theorem snapshotWithin_of_mem (hc : v.container? = some c) (ho : c ∈ opn) :
    v.snapshotWithin h opn = .null := by
  cases v <;> cases hc <;> simp [snapshotWithin, ho]

/-- The walk writes out a value whose container is not open, and opens it for what the value
holds. -/
theorem snapshotWithin_of_not_mem (hv : ∀ c ∈ v.container?, c ∉ opn) :
    v.snapshotWithin h opn = v.writeOut h (snapshotWithin h (v.container?.toList ++ opn)) := by
  cases v with
  | array r =>
    have ho : .array r ∉ opn := hv _ rfl
    rw [snapshotWithin]
    by_cases hr : r < h.arrays.size
    · rw [dif_pos ⟨hr, ho⟩]
      rfl
    · rw [dif_neg (fun hn => hr hn.1), if_neg ho, writeOut, Heap.items_eq_empty (Nat.not_lt.1 hr)]
      rfl
  | object r =>
    have ho : .object r ∉ opn := hv _ rfl
    rw [snapshotWithin]
    by_cases hr : r < h.objects.size
    · rw [dif_pos ⟨hr, ho⟩]
      rfl
    · have hempty : h.entries r = [] := by simp [Heap.entries, Array.getD, hr]
      rw [dif_neg (fun hn => hr hn.1), if_neg ho, writeOut, hempty]
      rfl
  | _ => simp only [snapshotWithin, writeOut]

theorem outline_snapshotWithin : (v.snapshotWithin h opn).outline = v.outline h opn := by
  by_cases hv : ∃ c ∈ v.container?, c ∈ opn
  · rw [outline, if_pos hv]
    obtain ⟨c, hc, ho⟩ := hv
    rw [snapshotWithin_of_mem hc ho]
    rfl
  · rw [outline, if_neg hv, snapshotWithin_of_not_mem (by simpa using hv), outline_writeOut]

theorem parts_snapshotWithin (hc : v.container? = some c) (ho : c ∉ opn) :
    (v.snapshotWithin h opn).parts = (v.parts h).map (snapshotWithin h (c :: opn)) := by
  have hv : ∀ d ∈ v.container?, d ∉ opn := by simpa [hc] using ho
  rw [snapshotWithin_of_not_mem hv, parts_writeOut, hc]
  rfl

/-- Only a container that is not open yet is written with anything in it. -/
theorem exists_container_of_mem_snapshotWithin {s : Snapshot}
    (hs : s ∈ (v.snapshotWithin h opn).parts) :
    ∃ c, v.container? = some c ∧ c ∉ opn := by
  by_cases hv : ∃ c ∈ v.container?, c ∈ opn
  · obtain ⟨c, hc, ho⟩ := hv
    rw [snapshotWithin_of_mem hc ho] at hs
    cases hs
  · have hnew : ∀ c ∈ v.container?, c ∉ opn := by simpa using hv
    rw [snapshotWithin_of_not_mem hnew, parts_writeOut] at hs
    obtain ⟨u, hu, -⟩ := List.mem_map.1 hs
    obtain ⟨c, hc, -⟩ := exists_container_of_mem_parts hu
    exact ⟨c, hc, hnew c hc⟩

/-- The walk shows at a position what occurs there below containers that are all different. -/
theorem at?_snapshotWithin (hopn : opn.Nodup) {o : Snapshot} :
    ((v.snapshotWithin h opn).at? p).map Snapshot.outline = some o ↔
      ∃ above u, Occurs h opn v p above u ∧ above.Nodup ∧ u.outline h above = o := by
  induction p generalizing opn v with
  | nil =>
    rw [Snapshot.at?, Option.map_some, outline_snapshotWithin, Option.some_inj]
    constructor
    · intro ho
      exact ⟨opn, v, .here, hopn, ho⟩
    · rintro ⟨above, u, hu, -, ho⟩
      cases hu
      exact ho
  | cons i p ih =>
    rw [Snapshot.at?_cons]
    constructor
    · intro ho
      obtain ⟨s, hs, hso⟩ := Option.map_eq_some_iff.1 ho
      obtain ⟨t, hi, ht⟩ := Option.bind_eq_some_iff.1 hs
      obtain ⟨c, hc, hnew⟩ := exists_container_of_mem_snapshotWithin (List.mem_of_getElem? hi)
      rw [parts_snapshotWithin hc hnew, List.getElem?_map] at hi
      obtain ⟨u, hu, rfl⟩ := Option.map_eq_some_iff.1 hi
      obtain ⟨above, w, hw, hnodup, hshow⟩ :=
        (ih (List.nodup_cons.2 ⟨hnew, hopn⟩)).1 (by rw [ht, Option.map_some, hso])
      exact ⟨above, w, .part hc hu hw, hnodup, hshow⟩
    · rintro ⟨above, w, hw, hnodup, ho⟩
      cases hw with
      | part hc hu hw =>
        have hnew := hnodup.sublist hw.suffix.sublist
        rw [parts_snapshotWithin hc (List.nodup_cons.1 hnew).1, List.getElem?_map, hu]
        exact (ih hnew).2 ⟨above, w, hw, hnodup, ho⟩

/-- The snapshot unfolds the value. -/
theorem unfolds_snapshot (h : Heap) (v : Value) : Unfolds h v (v.snapshot h) :=
  fun _ _ => at?_snapshotWithin List.nodup_nil

/-- There is one way to unfold a value. -/
theorem unfolds_iff_eq_snapshot {s : Snapshot} : Unfolds h v s ↔ s = v.snapshot h := by
  constructor
  · intro hs
    refine Snapshot.eq_of_at? s _ fun p => Option.ext fun o => ?_
    rw [hs p o, unfolds_snapshot h v p o]
  · rintro rfl
    exact unfolds_snapshot h v

/-- A position lies below at most as many containers as there are. -/
theorem length_le_of_at? (hp : ((v.snapshot h).at? p).isSome) : p.length ≤ h.containers.length := by
  obtain ⟨s, hs⟩ := Option.isSome_iff_exists.1 hp
  obtain ⟨above, u, hu, hnodup, -⟩ := (unfolds_snapshot h v p _).1 (by rw [hs, Option.map_some])
  have hlen := hu.length_eq
  have hle := (hnodup.subperm (hu.above_subset (List.nil_subset _))).length_le
  rw [List.length_nil] at hlen
  omega

end Value

/-! ### Heaps without cycles -/

namespace Heap

/-- One container holds another. -/
def Holds (h : Heap) (c d : Container) : Prop :=
  ∃ v u : Value, v.container? = some c ∧ u ∈ v.parts h ∧ u.container? = some d

/-- No container holds itself, directly or through others. -/
def Acyclic (h : Heap) : Prop := ∀ c, ¬Relation.TransGen h.Holds c c

/-- There are no cycles if the containers can be ranked above what they hold. -/
theorem acyclic_of_rank {h : Heap} (rank : Container → Nat)
    (hrank : ∀ c d, h.Holds c d → rank d < rank c) :
    h.Acyclic := by
  have hlt {c d : Container} (hcd : Relation.TransGen h.Holds c d) : rank d < rank c := by
    induction hcd with
    | single hstep => exact hrank _ _ hstep
    | tail _ hstep ih => exact Nat.lt_trans (hrank _ _ hstep) ih
  exact fun c hc => Nat.lt_irrefl _ (hlt hc)

end Heap

namespace Value

/-- The plain recursion: a function that writes out every value, with itself for what the value
holds, and does not look at what is above it. -/
def WritesOut (h : Heap) (f : Value → Snapshot) : Prop := ∀ v, f v = v.writeOut h f

/-- Each of the given containers holds the container of a value, directly or through others. -/
def Below (h : Heap) (above : List Container) (v : Value) : Prop :=
  ∀ c ∈ above, ∀ d ∈ v.container?, Relation.TransGen h.Holds c d

variable {h : Heap} {opn : List Container} {c : Container} {u v : Value}

theorem below_nil : Below h [] v := by
  simp [Below]

theorem Below.not_mem (hb : Below h opn v) (ha : h.Acyclic) : ∀ c ∈ v.container?, c ∉ opn :=
  fun c hc ho => ha c (hb c ho c hc)

theorem Below.part (hb : Below h opn v) (hu : u ∈ v.parts h) :
    Below h (v.container?.toList ++ opn) u := by
  obtain ⟨c, hc, -⟩ := exists_container_of_mem_parts hu
  rw [hc]
  intro b hmem d hd
  have hstep : h.Holds c d := ⟨v, u, hc, hu, hd⟩
  rcases List.mem_cons.1 hmem with rfl | hmem
  · exact .single hstep
  · exact .tail (hb b hmem c hc) hstep

/-- Where there are no cycles, the walk writes out a value like anything that writes out all values,
whatever either of the two takes to be open above the value. -/
theorem eq_snapshotWithin (write : List Container → Value → Snapshot) {above : List Container}
    (ha : h.Acyclic)
    (hw : ∀ above v, Below h above v →
      write above v = v.writeOut h (write (v.container?.toList ++ above))) (hb :
      Below h above v) (ho : Below h opn v) : write above v = v.snapshotWithin h opn := by
  induction hn : h.closedContainers opn using Nat.strongRecOn generalizing above opn v with
  | _ n ih =>
    rw [hw above v hb, snapshotWithin_of_not_mem (ho.not_mem ha)]
    refine writeOut_congr fun u hu => ih _ ?_ (hb.part hu) (ho.part hu) rfl
    obtain ⟨c, hc, hmem⟩ := exists_container_of_mem_parts hu
    rw [← hn, hc]
    exact Heap.closedContainers_cons_lt hmem (ho.not_mem ha c hc)

/-- Where there are no cycles, the plain recursion has one solution, the snapshot. -/
theorem writesOut_iff_eq_snapshot {f : Value → Snapshot} (ha : h.Acyclic) :
    WritesOut h f ↔ f = fun v => v.snapshot h := by
  constructor
  · intro hf
    funext v
    exact eq_snapshotWithin (fun _ => f) ha (fun _ v _ => hf v) (below_nil (v := v)) below_nil
  · rintro rfl v
    dsimp only
    rw [snapshot, snapshotWithin_of_not_mem (below_nil.not_mem ha)]
    refine writeOut_congr fun u hu => ?_
    exact eq_snapshotWithin _ ha (fun _ _ hb => snapshotWithin_of_not_mem (hb.not_mem ha))
      (below_nil.part hu)
      below_nil

/-- The snapshot of a value is the one tree that unfolds it: every container is written out at each
of its occurrences, in order, except that it is `null` where it occurs below itself.  The tree is no
deeper than there are containers.  In a heap without cycles, whatever is shared in it, it is what
the plain recursion writes. -/
theorem snapshot_unfolds (h : Heap) (v : Value) :
    (∀ s, Unfolds h v s ↔ s = v.snapshot h) ∧
      (∀ p, ((v.snapshot h).at? p).isSome → p.length ≤ h.containers.length) ∧
      (h.Acyclic → ∀ f, WritesOut h f ↔ f = fun u => u.snapshot h) :=
  ⟨fun _ => unfolds_iff_eq_snapshot, fun _ => length_le_of_at?, fun ha _ =>
    writesOut_iff_eq_snapshot ha⟩

example :
    (array 0).snapshot ⟨#[#[.string "a", .array 0, .object 0]],
      #[[("up", .array 0), ("me", .object 0)]]⟩ =
    .array [.string "a", .null, .object [("up", .null), ("me", .null)]] := by
  cbv

/-- An array that holds another one twice, and an object that holds it once more. -/
def sharing : Heap :=
  ⟨#[#[.array 1, .object 0, .array 1], #[.string "x"]], #[[("b", .array 1), ("a", .null)]]⟩

theorem snapshot_unfolds_sharing :
    sharing.Acyclic ∧ (WritesOut sharing fun v => v.snapshot sharing) ∧
      (array 0).snapshot sharing =
        .array [.array [.string "x"], .object [("b", .array [.string "x"]), ("a", .null)],
          .array [.string "x"]] := by
  have hacyclic : sharing.Acyclic := by
    refine Heap.acyclic_of_rank (fun c => if c = .array 0 then 2 else
      if c = .object 0 then 1 else 0) ?_
    rintro c d ⟨v, u, hc, hu, hd⟩
    cases v with
    | array r =>
      cases hc
      rcases r with _ | _ | r
      · have hu' : u = array 1 ∨ u = object 0 := by
          simpa [parts, sharing, Heap.items, or_comm] using hu
        rcases hu' with rfl | rfl <;> cases hd <;> decide
      · obtain rfl : u = string "x" := by simpa [parts, sharing, Heap.items] using hu
        cases hd
      · simp [parts, sharing, Heap.items] at hu
    | object r =>
      cases hc
      rcases r with _ | r
      · have hu' : u = array 1 ∨ u = null := by simpa [parts, sharing, Heap.entries] using hu
        rcases hu' with rfl | rfl <;> cases hd
        decide
      · simp [parts, sharing, Heap.entries] at hu
    | _ => cases hu
  have hwrites : WritesOut sharing fun v => v.snapshot sharing :=
    ((snapshot_unfolds sharing (array 0)).2.2 hacyclic _).2 rfl
  refine ⟨hacyclic, hwrites, ?_⟩
  simp [snapshot, snapshotWithin, sharing, Heap.items, Heap.entries]

end Value

end LiveMarkup
