import LiveMarkup.Proofs.State.Write

/-!
# Lengths of arrays

Arrays are to have at most `maxArrayLength` items.  A value that is stored under an index or as a
length keeps to this, and a write that would not is refused (`Key.Exceeds`).  Putting an item at the
end of an array does not look at the length: on an array of the greatest length it makes one that is
longer.  So in a run of writes through any views all arrays stay within the bound exactly if no item
is put at the end of an array that is full (`Tracked.bounded_iff_never_full`).
-/

namespace LiveMarkup

/-- No array is longer than the greatest length. -/
def Heap.Bounded (h : Heap) : Prop := ∀ r, (h.items r).size ≤ maxArrayLength

/-- Whether a value stored under a key would make an array longer than the greatest length. -/
inductive Key.Exceeds (h : Heap) (k : Key) (v : Value) : Value → Prop
  | item {r : ArrayId} {i : Nat} (hk : k ≠ .name "length") (hi : k.index? = some i)
    (hmax : maxArrayLength < i + 1) :
    Exceeds h k v (.array r)
  | length {r : ArrayId} {x : ℚ} (hk : k = .name "length")
    (hx : (Binary.ofFloat (v.toNumber h)).rat? = some x)
    (hmax : (maxArrayLength : ℚ) < x) : Exceeds h k v (.array r)

/-! ### One write -/

namespace Heap

variable {h : Heap} {r : ArrayId} {vs : Array Value}

theorem Bounded.setItems (hb : h.Bounded) (hvs : vs.size ≤ maxArrayLength) :
    (h.setItems r vs).Bounded := by
  intro s
  by_cases hs : s = r
  · subst hs
    by_cases hr : s < h.arrays.size
    · rw [items_setItems_self hr]
      exact hvs
    · have hempty : (h.setItems s vs).items s = #[] :=
        items_eq_empty (by simpa [Heap.setItems] using hr)
      simp [hempty]
  · rw [items_setItems_ne hs]
    exact hb s

/-- A heap with one array that is not too long. -/
theorem bounded_one (hvs : vs.size ≤ maxArrayLength) : Bounded ⟨#[vs], #[]⟩ := by
  intro r
  cases r with
  | zero => exact hvs
  | succ r => simp [items]

theorem Bounded.setEntries (hb : h.Bounded) (r : ObjectId) (es : Entries Value) :
    (h.setEntries r es).Bounded := by
  intro s
  rw [items_setEntries]
  exact hb s

end Heap

namespace Key

variable {h h' : Heap} {target v : Value} {k : Key}

/-- What is stored under a key keeps arrays within the bound. -/
theorem bounded_of_write (hb : h.Bounded) (hw : k.write h target v = .ok h') : h'.Bounded := by
  unfold write at hw
  split at hw
  · cases hw
    exact hb.setEntries _ _
  · rename_i r
    split at hw
    · split at hw
      · rename_i n hn
        cases hw
        apply hb.setItems
        rw [size_resize]
        exact (arrayLength?_eq_some_iff.1 hn).2
      · cases hw
    · split at hw
      · rename_i i _
        split at hw
        · cases hw
          apply hb.setItems
          have hr := hb r
          rw [size_storeItem]
          omega
        · cases hw
      · cases hw
  · cases hw

theorem Exceeds.not_fits (hx : Exceeds h k v target) : ¬Fits h k v target := by
  rintro (_ | ⟨hk, hi, hmax⟩ | ⟨hk, hn, hmax⟩)
  · cases hx
  · cases hx with
    | item _ hi' hmax' =>
      rw [hi] at hi'
      cases hi'
      omega
    | length hk' => exact hk hk'
  · cases hx with
    | item hk' => exact hk' hk
    | length _ hx hmax' =>
      rw [hn] at hx
      cases hx
      exact absurd hmax (Nat.not_le.2 (Nat.cast_lt.1 hmax'))

end Key

/-- An item put at the end keeps arrays within the bound if the array is not full. -/
theorem bounded_of_appendItem {h h' : Heap} {target v : Value} (hb : h.Bounded)
    (hroom : ∀ r, target = .array r → (h.items r).size < maxArrayLength)
    (ha : appendItem h target v = .ok h') :
    h'.Bounded := by
  unfold appendItem at ha
  split at ha
  · rename_i r
    cases ha
    apply hb.setItems
    have hr := hroom r rfl
    rw [Array.size_push]
    omega
  · cases ha

/-- An item put at the end of a full array makes it longer than the greatest length. -/
theorem size_appendItem_of_full {h : Heap} {r : ArrayId}
    (hfull : maxArrayLength ≤ (h.items r).size) (v : Value) :
    ∃ h', appendItem h (.array r) v = .ok h' ∧ (h'.items r).size = (h.items r).size + 1 := by
  have hr : r < h.arrays.size := by
    by_contra hr
    rw [Heap.items_eq_empty (Nat.not_lt.1 hr)] at hfull
    exact absurd hfull (by decide)
  exact ⟨_, rfl, by rw [Heap.items_setItems_self hr, Array.size_push]⟩

/-! ### Runs of writes -/

namespace Tracked

/-- A write through a view. -/
inductive Write (σ : Type) where
  | set (view : Tracked σ) (k : Key) (v : Value)
  | push (view : Tracked σ) (v : Value)

variable {σ : Type}

namespace Write

def view : Write σ → Tracked σ
  | set view _ _ => view
  | push view _ => view

def run : Write σ → Run (World σ) Error Unit
  | set view k v => view.set k v
  | push view v => view.push v

/-- What a write makes of the heap before the callback runs. -/
def store (h : Heap) : Write σ → Except StateError Heap
  | set view k v => k.write h view.target v
  | push view v => appendItem h view.target v

/-- A write that puts an item at the end of an array of the greatest length. -/
def PushesFull (h : Heap) : Write σ → Prop
  | set .. => False
  | push view _ => ∃ r, view.target = .array r ∧ maxArrayLength ≤ (h.items r).size

/-- The heap that the callback finds and the heap after the write have no array beyond the greatest
length. -/
def KeepsBound (a : Write σ) (w : World σ) : Prop :=
  (∀ h', a.store w.heap = .ok h' → h'.Bounded) ∧ (a.run w).2.heap.Bounded

variable {a : Write σ} {w : World σ} {h h' : Heap}

theorem run_eq_commit (a : Write σ) : a.run = a.view.commit [] fun h => a.store h := by
  cases a <;> rfl

theorem run_of_ok (hs : a.store w.heap = .ok h') :
    a.run w = a.view.onChange { w with heap := h' } := by
  rw [run_eq_commit]
  exact commit_of_ok hs (Value.isArrayIn_nil _)

theorem run_of_error {e : StateError} (hs : a.store w.heap = .error e) :
    a.run w = (.error (.state e), w) := by
  rw [run_eq_commit]
  exact commit_of_error hs

theorem bounded_of_store (hb : h.Bounded) (hroom : ¬a.PushesFull h) (hs : a.store h = .ok h') :
    h'.Bounded := by
  cases a with
  | set view k v => exact Key.bounded_of_write hb hs
  | push view v =>
    refine bounded_of_appendItem hb (fun r hr => ?_) hs
    by_contra hfull
    exact hroom ⟨r, hr, Nat.not_lt.1 hfull⟩

/-- A write that is not onto a full array keeps the bound, if its callback does. -/
theorem keepsBound (hcall : ∀ w, w.heap.Bounded → (a.view.onChange w).2.heap.Bounded)
    (hb : w.heap.Bounded) (hroom : ¬a.PushesFull w.heap) : a.KeepsBound w := by
  refine ⟨fun h' hs => bounded_of_store hb hroom hs, ?_⟩
  cases hs : a.store w.heap with
  | error e =>
    rw [run_of_error hs]
    exact hb
  | ok h' =>
    rw [run_of_ok hs]
    exact hcall _ (bounded_of_store hb hroom hs)

/-- An item put at the end of a full array is stored like any other. -/
theorem exists_of_pushesFull (hfull : a.PushesFull w.heap) :
    ∃ h', a.store w.heap = .ok h' ∧ ¬h'.Bounded ∧ a.run w = a.view.onChange
      { w with heap := h' } := by
  cases a with
  | set => exact hfull.elim
  | push view v =>
    obtain ⟨r, hr, hsize⟩ := hfull
    obtain ⟨h', ha, hlen⟩ := size_appendItem_of_full hsize v
    have hs : (push view v).store w.heap = .ok h' := by rw [store, hr, ha]
    refine ⟨h', hs, fun hb => ?_, run_of_ok hs⟩
    have hle := hb r
    omega

/-- A value that does not fit into the bound is refused. -/
theorem run_of_exceeds {view : Tracked σ} {k : Key} {v : Value}
    (hx : k.Exceeds w.heap v view.target) :
    ∃ e, (set view k v).run w = (.error (.state e), w) := by
  obtain ⟨e, he⟩ := Key.exists_write_eq_error hx.not_fits
  exact ⟨e, run_of_error he⟩

end Write

/-- The writes of a run with the world that each is made in. -/
def made (w : World σ) : List (Write σ) → List (Write σ × World σ)
  | [] => []
  | a :: as => (a, w) :: made (a.run w).2 as

variable {w : World σ} {as : List (Write σ)}

theorem keepsBound_of_made (hb : w.heap.Bounded)
    (hcall : ∀ a ∈ as, ∀ w, w.heap.Bounded → (a.view.onChange w).2.heap.Bounded)
    (hroom : ∀ p ∈ made w as, ¬p.1.PushesFull p.2.heap) : ∀ p ∈ made w as, p.1.KeepsBound p.2 := by
  induction as generalizing w with
  | nil => exact List.forall_mem_nil _
  | cons a as ih =>
    obtain ⟨ha, has⟩ := List.forall_mem_cons.1 hcall
    obtain ⟨hfirst, hrest⟩ := List.forall_mem_cons.1 hroom
    have hkeeps := Write.keepsBound ha hb hfirst
    exact List.forall_mem_cons.2 ⟨hkeeps, ih hkeeps.2 has hrest⟩

/-- In a run of writes through any views, with callbacks that keep to the bound themselves, no array
gets longer than the greatest length exactly if no item is put at the end of a full array.  A value
stored under a key is refused if the array would get too long, and nothing changes and no callback
runs.  An item put at the end of a full array is stored, and the callback runs. -/
theorem bounded_iff_never_full (hb : w.heap.Bounded)
    (hcall : ∀ a ∈ as, ∀ w, w.heap.Bounded → (a.view.onChange w).2.heap.Bounded) :
    ((∀ p ∈ made w as, p.1.KeepsBound p.2) ↔ ∀ p ∈ made w as, ¬p.1.PushesFull p.2.heap) ∧
      ∀ p ∈ made w as,
        (∀ view k v, p.1 = .set view k v → k.Exceeds p.2.heap v view.target →
          ∃ e, p.1.run p.2 = (.error (.state e), p.2)) ∧
        (p.1.PushesFull p.2.heap →
          ∃ h', ¬h'.Bounded ∧ p.1.run p.2 = p.1.view.onChange { p.2 with heap := h' }) := by
  refine ⟨⟨fun hkeeps p hp hfull => ?_, keepsBound_of_made hb hcall⟩, fun p hp =>
    ⟨?_, fun hfull => ?_⟩⟩
  · obtain ⟨h', hs, hlong, -⟩ := Write.exists_of_pushesFull hfull
    exact hlong ((hkeeps p hp).1 h' hs)
  · rintro view k v hset hx
    rw [hset]
    exact Write.run_of_exceeds hx
  · obtain ⟨h', -, hlong, hrun⟩ := Write.exists_of_pushesFull hfull
    exact ⟨h', hlong, hrun⟩

/-- Writes to the array of `loopHeap`, the last one beyond the greatest length. -/
def loopWrites : List (Write Nat) :=
  [.set ⟨.array 0, countRuns⟩ (.name "2") .null, .push ⟨.array 0, countRuns⟩ (.array 0),
    .set ⟨.array 0, countRuns⟩ (.index maxArrayLength) .null]

theorem bounded_iff_never_full_loop :
    (∀ p ∈ made ⟨loopHeap, 0⟩ loopWrites, p.1.KeepsBound p.2) ∧
      ∃ a w, (a, w) ∈ made ⟨loopHeap, 0⟩ loopWrites ∧
        w.heap.items 0 = #[.array 0, .undefined, .null, .array 0] ∧
        w.user = 2 ∧ ∃ e, a.run w = (.error (.state e), w) := by
  have hmade : made ⟨loopHeap, 0⟩ loopWrites =
      [(.set ⟨.array 0, countRuns⟩ (.name "2") .null, ⟨loopHeap, 0⟩),
        (.push ⟨.array 0, countRuns⟩ (.array 0), ⟨⟨#[#[.array 0, .undefined, .null]], #[]⟩, 1⟩),
        (.set ⟨.array 0, countRuns⟩ (.index maxArrayLength) .null,
          ⟨⟨#[#[.array 0, .undefined, .null, .array 0]], #[]⟩, 2⟩)] := by
    rfl
  have hcall : ∀ a ∈ loopWrites, ∀ w, w.heap.Bounded → (a.view.onChange w).2.heap.Bounded := by
    simp only [loopWrites, List.forall_mem_cons]
    exact ⟨fun _ hw => hw, fun _ hw => hw, fun _ hw => hw, List.forall_mem_nil _⟩
  obtain ⟨hiff, hends⟩ :=
    bounded_iff_never_full (w := ⟨loopHeap, 0⟩) (Heap.bounded_one (by decide)) hcall
  have hlast : (.set ⟨.array 0, countRuns⟩ (.index maxArrayLength) .null,
      ⟨⟨#[#[.array 0, .undefined, .null, .array 0]], #[]⟩, 2⟩) ∈ made ⟨loopHeap, 0⟩ loopWrites := by
    rw [hmade]
    exact .tail _ (.tail _ (.head _))
  have hroom : ∀ p ∈ made ⟨loopHeap, 0⟩ loopWrites, ¬p.1.PushesFull p.2.heap := by
    simp only [hmade, List.forall_mem_cons]
    refine ⟨not_false, ?_, not_false, List.forall_mem_nil _⟩
    rintro ⟨r, hr, hfull⟩
    cases hr
    exact absurd hfull (by decide)
  refine ⟨hiff.2 hroom, _, _, hlast, rfl, rfl, (hends _ hlast).1 _ _ _ rfl ?_⟩
  exact .item nofun rfl (Nat.lt_succ_self _)

/-- An array of the greatest length takes one more item, and the callback runs. -/
theorem push_onto_full : ∃ h h' : Heap, h.Bounded ∧ (h.items 0).size = maxArrayLength ∧
    push ⟨.array 0, countRuns⟩ .null ⟨h, 0⟩ = (.ok (), ⟨h', 1⟩) ∧
    (h'.items 0).size = maxArrayLength + 1 := by
  let full : Heap := ⟨#[Array.replicate maxArrayLength .undefined], #[]⟩
  have hsize : (full.items 0).size = maxArrayLength := Array.size_replicate
  refine ⟨full, full.setItems 0 ((full.items 0).push .null), Heap.bounded_one hsize.le,
    hsize, rfl, ?_⟩
  rw [Heap.items_setItems_self (by simp [full]), Array.size_push, hsize]

end Tracked

end LiveMarkup
