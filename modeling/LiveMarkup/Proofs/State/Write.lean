import LiveMarkup.State.Tracked
import Mathlib.Algebra.Order.Field.Basic
import Mathlib.Tactic.Linarith

/-!
# Writes to shared containers

A write through a view is either refused or stored (`Tracked.set_stores_or_refuses`).  Which of the
two happens depends on the key and the value alone (`Key.Fits`): an object takes every key, an array
takes the indices below its greatest length, and as its length a value whose number is a whole
number up to that. A refused write leaves the world as it is and does not run the callback.  A write
that is stored changes one container (`Heap.SameBut`) in one place (`Key.Wrote`), and what the write
does after that is one run of the callback on the changed heap.
-/

namespace LiveMarkup

/-! ### Whole numbers -/

namespace Binary

/-- The exact value of a finite number. -/
def rat? : Binary → Option ℚ
  | finite neg m q => some ((if neg then -1 else 1) * m * 2 ^ q)
  | _ => none

/-- A magnitude is a whole number if it is one with its binary point moved away. -/
theorem mul_zpow_eq_iff (m n : Nat) (q : Int) :
    (m : ℚ) * 2 ^ q = n ↔ (finite false m q).isIntegral = true ∧ shift m q = n := by
  unfold shift
  rw [isIntegral]
  rcases lt_or_ge q 0 with hq | hq
  · obtain ⟨k, hk⟩ := Int.eq_ofNat_of_zero_le (Int.neg_nonneg_of_nonpos hq.le)
    obtain rfl : q = -(k : Int) := by omega
    have hpow : (2 : ℚ) ^ k ≠ 0 := pow_ne_zero k two_ne_zero
    have hval : (m : ℚ) * 2 ^ (-(k : Int)) = n ↔ m = n * 2 ^ k := by
      rw [zpow_neg, zpow_natCast, ← div_eq_mul_inv, div_eq_iff hpow]
      norm_cast
    rw [hval, if_neg (by omega), decide_eq_false (by omega), Bool.false_or, beq_iff_eq, hk,
      Int.toNat_natCast, Nat.pow_eq]
    constructor
    · rintro rfl
      exact ⟨Nat.mul_mod_left _ _, Nat.mul_div_cancel _ (Nat.two_pow_pos k)⟩
    · rintro ⟨hmod, rfl⟩
      exact (Nat.div_mul_cancel (Nat.dvd_of_mod_eq_zero hmod)).symm
  · obtain ⟨k, rfl⟩ := Int.eq_ofNat_of_zero_le hq
    rw [if_pos hq, decide_eq_true hq, Bool.true_or, Int.toNat_natCast, Nat.pow_eq, zpow_natCast]
    norm_cast
    simp

theorem natAbs?_eq_some_iff {neg : Bool} {m n : Nat} {q : Int} :
    (finite neg m q).natAbs? = some n ↔ (m : ℚ) * 2 ^ q = n := by
  rw [mul_zpow_eq_iff]
  unfold natAbs?
  show (if (finite false m q).isIntegral = true then _ else _) = _ ↔ _
  split_ifs with h <;> simp [h]

/-- A number is a natural number if its magnitude is one and it has no minus sign, other than before
zero. -/
theorem rat?_eq_some_natCast_iff {b : Binary} {n : Nat} :
    b.rat? = some (n : ℚ) ↔ ∃ neg m q, b = finite neg m q ∧ (finite neg m q).natAbs? = some n ∧
    (neg = true → n = 0) := by
  cases b with
  | nan => simp [rat?]
  | infinite neg => simp [rat?]
  | finite neg m q =>
    have hnonneg : (0 : ℚ) ≤ m * 2 ^ q := mul_nonneg (Nat.cast_nonneg m) (zpow_nonneg zero_le_two q)
    simp only [rat?, Option.some.injEq, finite.injEq]
    constructor
    · intro h
      refine ⟨neg, m, q, ⟨rfl, rfl, rfl⟩, ?_⟩
      rw [natAbs?_eq_some_iff]
      cases neg with
      | false => exact ⟨by simpa using h, nofun⟩
      | true =>
        have hn : (0 : ℚ) ≤ n := Nat.cast_nonneg n
        have hzero : (n : ℚ) = 0 := by
          simp only [if_true] at h
          linarith
        refine ⟨?_, fun _ => Nat.cast_eq_zero.1 hzero⟩
        simp only [if_true] at h
        linarith
    · rintro ⟨neg, m, q, ⟨rfl, rfl, rfl⟩, habs, hneg⟩
      rw [natAbs?_eq_some_iff] at habs
      cases neg with
      | false => simpa using habs
      | true =>
        rw [hneg rfl] at habs ⊢
        rw [if_pos rfl, mul_assoc, habs, Nat.cast_zero, mul_zero]

end Binary

/-- A value is an array length if its number is a whole one up to the greatest length. -/
theorem arrayLength?_eq_some_iff {h : Heap} {v : Value} {n : Nat} :
    arrayLength? h v = some n ↔ (Binary.ofFloat (v.toNumber h)).rat? = some (n : ℚ) ∧
    n ≤ maxArrayLength := by
  rw [Binary.rat?_eq_some_natCast_iff]
  unfold arrayLength?
  split
  · rename_i neg m q hb
    rw [hb]
    simp only [Option.filter_eq_some_iff, Bool.and_eq_true, Bool.or_eq_true,
      Bool.not_eq_true', beq_iff_eq, decide_eq_true_eq, Binary.finite.injEq]
    constructor
    · rintro ⟨habs, hneg, hle⟩
      refine ⟨⟨neg, m, q, ⟨rfl, rfl, rfl⟩, habs, fun h => ?_⟩, hle⟩
      exact hneg.resolve_left (by simp [h])
    · rintro ⟨⟨_, _, _, ⟨rfl, rfl, rfl⟩, habs, hneg⟩, hle⟩
      refine ⟨habs, ?_, hle⟩
      cases neg with
      | false => exact Or.inl rfl
      | true => exact Or.inr (hneg rfl)
  · rename_i hb
    constructor
    · nofun
    · rintro ⟨⟨neg, m, q, he, -⟩, -⟩
      exact absurd he (hb neg m q)

/-! ### What a write does -/

/-- Heaps with the same containers, of which at most one has other contents. -/
structure Heap.SameBut (c : Container) (h h' : Heap) : Prop where
  containers : h'.containers = h.containers
  items : ∀ r, .array r ≠ c → h'.items r = h.items r
  entries : ∀ r, .object r ≠ c → h'.entries r = h.entries r

/-- Properties with a value stored under a name: a name that is there keeps its place, a new one
goes last. -/
structure Entries.Stored (name : String) (v : Value) (es es' : Entries Value) : Prop where
  keys : es'.keys = if name ∈ es.keys then es.keys else es.keys ++ [name]
  stored : es'.get? name = some v
  kept : ∀ other ≠ name, es'.get? other = es.get? other

/-- Items with a value stored at an index, after more `undefined` items if the array ends before
it. -/
structure ItemStored (i : Nat) (v : Value) (vs vs' : Array Value) : Prop where
  size : vs'.size = max vs.size (i + 1)
  stored : vs'[i]? = some v
  kept : ∀ j < vs.size, j ≠ i → vs'[j]? = vs[j]?
  holes : ∀ j < i, vs.size ≤ j → vs'[j]? = some .undefined

/-- Items cut down or filled up with `undefined` to a length. -/
structure Resized (n : Nat) (vs vs' : Array Value) : Prop where
  size : vs'.size = n
  kept : ∀ j < n, j < vs.size → vs'[j]? = vs[j]?
  holes : ∀ j < n, vs.size ≤ j → vs'[j]? = some .undefined

namespace Key

/-- Whether a value can be stored under a key of a container. -/
inductive Fits (h : Heap) (k : Key) (v : Value) : Value → Prop
  | property {r : ObjectId} : Fits h k v (.object r)
  | item {r : ArrayId} {i : Nat} (hk : k ≠ .name "length") (hi : k.index? = some i)
    (hmax : i < maxArrayLength) :
    Fits h k v (.array r)
  | length {r : ArrayId} {n : Nat} (hk : k = .name "length")
    (hn : (Binary.ofFloat (v.toNumber h)).rat? = some (n : ℚ)) (hmax : n ≤ maxArrayLength) :
      Fits h k v (.array r)

/-- What storing a value under a key does to the contents of a container. -/
inductive Wrote (h h' : Heap) (k : Key) (v : Value) : Container → Prop
  | property {r : ObjectId} (hes : Entries.Stored k.text v (h.entries r) (h'.entries r)) :
      Wrote h h' k v (.object r)
  | item {r : ArrayId} {i : Nat} (hk : k ≠ .name "length") (hi : k.index? = some i)
    (hvs : ItemStored i v (h.items r) (h'.items r)) : Wrote h h' k v (.array r)
  | length {r : ArrayId} {n : Nat} (hk : k = .name "length")
    (hn : (Binary.ofFloat (v.toNumber h)).rat? = some (n : ℚ))
    (hvs : Resized n (h.items r) (h'.items r)) :
    Wrote h h' k v (.array r)

end Key

/-! ### Arrays -/

theorem getElem?_resize {n j : Nat} (vs : Array Value) (hj : j < n) :
    (resize vs n)[j]? = some (vs.getD j .undefined) := by
  unfold resize
  rw [Array.getElem?_append, Array.size_extract, Nat.sub_zero]
  rcases Nat.lt_or_ge j vs.size with hs | hs
  · rw [if_pos (by omega), Array.getElem?_extract_of_lt (by omega)]
    simp [hs]
  · rw [if_neg (by omega), Array.getElem?_replicate, if_pos (by omega)]
    simp [Nat.not_lt.2 hs]

theorem resized_resize (vs : Array Value) (n : Nat) : Resized n vs (resize vs n) where
  size := size_resize vs n
  kept j hj hs := by
    rw [getElem?_resize vs hj]
    simp [hs]
  holes j hj hs := by
    rw [getElem?_resize vs hj]
    simp [Nat.not_lt.2 hs]

theorem itemStored_storeItem (vs : Array Value) (i : Nat) (v : Value) :
    ItemStored i v vs (storeItem vs i v) := by
  -- the items that the value is stored in: the old ones, filled up to the index if it lies behind
  -- them
  have hgrown (j : Nat) (hne : j ≠ i) :
      (storeItem vs i v)[j]? = (if i < vs.size then vs else resize vs (i + 1))[j]? :=
    Array.getElem?_setIfInBounds_ne (Ne.symm hne)
  refine ⟨size_storeItem vs i v, ?_, fun j hs hne => ?_, fun j hj hs => ?_⟩
  · unfold storeItem
    rw [Array.getElem?_setIfInBounds_self, if_pos]
    split_ifs with h
    · exact h
    · rw [size_resize]
      exact Nat.lt_succ_self i
  · rw [hgrown j hne]
    split_ifs with h
    · rfl
    · exact (resized_resize vs (i + 1)).kept j (by omega) hs
  · rw [hgrown j (Nat.ne_of_lt hj), if_neg (by omega)]
    exact (resized_resize vs (i + 1)).holes j (by omega) hs

/-! ### Heaps -/

namespace Heap

theorem mem_containers_iff {h : Heap} {c : Container} :
    c ∈ h.containers ↔ match c with
      | .array r => r < h.arrays.size
      | .object r => r < h.objects.size := by
  cases c <;> simp [containers]

theorem sameBut_setItems (h : Heap) (r : ArrayId) (vs : Array Value) :
    SameBut (.array r) h (h.setItems r vs) where
  containers := by simp [containers, setItems]
  items r' hr := items_setItems_ne (fun he => hr (congrArg Container.array he)) vs
  entries r' _ := entries_setItems h r vs r'

theorem sameBut_setEntries (h : Heap) (r : ObjectId) (es : Entries Value) :
    SameBut (.object r) h (h.setEntries r es) where
  containers := by simp [containers, setEntries]
  items r' _ := items_setEntries h r es r'
  entries r' hr := entries_setEntries_ne (fun he => hr (congrArg Container.object he)) es

end Heap

theorem entries_stored_put (name : String) (v : Value) (es : Entries Value) :
    Entries.Stored name v es (es.put name v) where
  keys := Entries.keys_put name v es
  stored := Entries.get?_put_self name v es
  kept _ hne := Entries.get?_put_ne hne v es

/-! ### Writes -/

namespace Key

variable {h : Heap} {target v : Value} {k : Key}

/-- What does not fit is refused. -/
theorem exists_write_eq_error (hfit : ¬Fits h k v target) : ∃ e, k.write h target v = .error e := by
  unfold write
  split
  · exact absurd .property hfit
  · rename_i r
    split
    · rename_i hk
      cases hn : arrayLength? h v with
      | none => exact ⟨_, rfl⟩
      | some n =>
        have hlen := arrayLength?_eq_some_iff.1 hn
        exact absurd (.length hk hlen.1 hlen.2) hfit
    · rename_i hk
      cases hi : k.index? with
      | none => exact ⟨_, rfl⟩
      | some i =>
        have hmax : ¬i < maxArrayLength := fun hmax => hfit (.item hk hi hmax)
        exact ⟨_, if_neg hmax⟩
  · exact ⟨_, rfl⟩

/-- What fits is stored in the container, and nothing else changes. -/
theorem exists_write_eq_ok {c : Container} (hfit : Fits h k v target)
    (hc : target.container? = some c) (hmem : c ∈ h.containers) :
    ∃ h', k.write h target v = .ok h' ∧ h.SameBut c h' ∧ Wrote h h' k v c := by
  cases hfit with
  | @property r =>
    cases hc
    have hself :=
      Heap.entries_setEntries_self (Heap.mem_containers_iff.1 hmem) ((h.entries r).put k.text v)
    have hstored := entries_stored_put k.text v (h.entries r)
    rw [← hself] at hstored
    exact ⟨_, rfl, h.sameBut_setEntries r _, .property hstored⟩
  | @item r i hk hi hmax =>
    cases hc
    have hself :=
      Heap.items_setItems_self (Heap.mem_containers_iff.1 hmem) (storeItem (h.items r) i v)
    have hstored := itemStored_storeItem (h.items r) i v
    rw [← hself] at hstored
    refine ⟨h.setItems r (storeItem (h.items r) i v), ?_, h.sameBut_setItems r _,
      .item hk hi hstored⟩
    unfold write
    simp only [if_neg hk, hi, if_pos hmax]
  | @length r n hk hn hmax =>
    cases hc
    have hself := Heap.items_setItems_self (Heap.mem_containers_iff.1 hmem) (resize (h.items r) n)
    have hresized := resized_resize (h.items r) n
    rw [← hself] at hresized
    refine ⟨h.setItems r (resize (h.items r) n), ?_, h.sameBut_setItems r _, .length hk hn hresized⟩
    unfold write
    simp only [if_pos hk, arrayLength?_eq_some_iff.2 ⟨hn, hmax⟩]

/-- A stored value is read back under its key, unless it is the length of an array. -/
theorem Wrote.read_eq {h' : Heap} {c : Container} (hwrote : Wrote h h' k v c)
    (hc : target.container? = some c) (hk : k ≠ .name "length" ∨ ∃ r, c = .object r) :
    k.read h' target = v := by
  have htarget : target = match c with
      | .array r => .array r
      | .object r => .object r := by
    cases target <;> cases hc <;> rfl
  rw [htarget]
  cases hwrote with
  | property hes => simp only [read, hes.stored, Option.getD_some]
  | item hne hi hvs =>
    simp only [read, if_neg hne, hi, Option.bind_some, hvs.stored, Option.getD_some]
  | length he => exact (hk.resolve_left fun hne => hne he).elim nofun

end Key

@[simp] theorem Value.isArrayIn_nil (v : Value) : v.isArrayIn [] = false := by
  cases v <;> rfl

namespace Tracked

variable {σ : Type}

section Commit

variable {t : Tracked σ} {locked : List ArrayId}
  {written : Heap → Except StateError Heap} {w : World σ}

theorem commit_of_error {e : StateError} (hw : written w.heap = .error e) :
    t.commit locked written w = (.error (.state e), w) := by
  unfold commit
  rw [hw]

theorem commit_of_ok {h : Heap} (hw : written w.heap = .ok h)
    (hl : t.target.isArrayIn locked = false) :
    t.commit locked written w = t.onChange { w with heap := h } := by
  unfold commit
  rw [hw]
  exact if_neg (Bool.eq_false_iff.1 hl)

theorem set_of_error {k : Key} {v : Value} {e : StateError}
    (hw : k.write w.heap t.target v = .error e) :
    t.set k v w = (.error (.state e), w) := by
  rw [set, setUnder]
  exact commit_of_error hw

theorem set_of_ok {k : Key} {v : Value} {h : Heap} (hw : k.write w.heap t.target v = .ok h) :
    t.set k v w = t.onChange { w with heap := h } := by
  rw [set, setUnder]
  exact commit_of_ok hw (Value.isArrayIn_nil _)

end Commit

/-- Where a value cannot be stored under a key, the write is refused: the world stays as it is and
the callback does not run.  Elsewhere the write stores the value in the container, where every view
of it reads it, changes nothing else, and then is one run of the callback. -/
theorem set_stores_or_refuses (target : Value) (k : Key) (v : Value) (w : World σ)
    (hheap : ∀ c ∈ target.container?, c ∈ w.heap.containers) :
    (¬k.Fits w.heap v target →
      ∃ e, ∀ onChange, set ⟨target, onChange⟩ k v w = (.error (.state e), w)) ∧
    (k.Fits w.heap v target →
      ∃ c h', target.container? = some c ∧ w.heap.SameBut c h' ∧ k.Wrote w.heap h' v c ∧
        ((k ≠ .name "length" ∨ ∃ r, c = .object r) →
          ∀ view : Tracked σ, view.target.container? = some c → view.getValue h' k = v) ∧
        ∀ onChange, set ⟨target, onChange⟩ k v w = onChange { w with heap := h' }) := by
  constructor
  · intro hfit
    obtain ⟨e, he⟩ := Key.exists_write_eq_error hfit
    refine ⟨e, fun onChange => ?_⟩
    exact set_of_error he
  · intro hfit
    have hcontainer : target.isContainer = true := by cases hfit <;> rfl
    obtain ⟨c, hc⟩ := Option.isSome_iff_exists.1 hcontainer
    obtain ⟨h', hwrite, hsame, hwrote⟩ := Key.exists_write_eq_ok hfit hc (hheap c hc)
    refine ⟨c, h', hc, hsame, hwrote, fun hk view hview => hwrote.read_eq hview hk,
      fun onChange => ?_⟩
    exact set_of_ok hwrite

/-- A heap with an array that holds itself. -/
def loopHeap : Heap := ⟨#[#[.array 0]], #[]⟩

/-- A callback that counts its runs. -/
def countRuns : Run (World Nat) Error Unit := fun w => (.ok (), { w with user := w.user + 1 })

theorem set_stores_or_refuses_loop :
    (∃ h', set ⟨.array 0, countRuns⟩ (.name "2") (.array 0) ⟨loopHeap, 0⟩ = (.ok (), ⟨h', 1⟩) ∧
      (h'.items 0)[1]? = some .undefined ∧ Key.read h' (.array 0) (.index 2) = .array 0) ∧
    ∃ e, set ⟨.array 0, countRuns⟩ (.name "x") .null ⟨loopHeap, 0⟩ =
      (.error (.state e), ⟨loopHeap, 0⟩) := by
  have hheap : ∀ c ∈ (Value.array 0).container?, c ∈ loopHeap.containers := by
    rintro c ⟨⟩
    exact Heap.array_mem_containers (by decide)
  have hindex : (Key.name "2").index? = some 2 := by decide
  have hfit : (Key.name "2").Fits loopHeap (.array 0) (.array 0) :=
    .item (by decide) hindex (by decide)
  obtain ⟨c, h', hc, -, hwrote, -, hset⟩ := (set_stores_or_refuses _ _ _ ⟨loopHeap, 0⟩ hheap).2 hfit
  cases hc
  cases hwrote with
  | length hk => exact absurd hk (by decide)
  | item hk hi hvs =>
    rw [hindex] at hi
    cases hi
    refine ⟨⟨h', hset countRuns, hvs.holes 1 (by decide) (by decide), ?_⟩, ?_⟩
    · simp [Key.read, Key.index?, hvs.stored]
    · have hrefused : ¬(Key.name "x").Fits loopHeap .null (.array 0) := by
        have hnone : (Key.name "x").index? = none := by decide
        rintro (_ | ⟨-, hi, -⟩ | ⟨hk, -, -⟩)
        · rw [hnone] at hi
          cases hi
        · exact absurd hk (by decide)
      obtain ⟨e, he⟩ := (set_stores_or_refuses _ _ _ ⟨loopHeap, 0⟩ hheap).1 hrefused
      exact ⟨e, he countRuns⟩

end Tracked

end LiveMarkup
