import LiveMarkup.Eval.Expr
import Mathlib.Data.List.Forall2
import Mathlib.Order.Basic

/-!
# Values that are alike

A `Matching` pairs the containers of one heap with those of another.  Two values without functions
are `Alike` under it if they are the same primitive value or name paired containers, and it `Holds`
between two heaps if paired containers have contents that are alike.  Nothing that an expression can
compute from values tells values that are alike apart: they have the same text and the same number,
compare in the same way, and have properties that are alike again.
-/

namespace LiveMarkup

/-- Pairs of containers. -/
structure Matching where
  array : ArrayId → ArrayId → Prop
  object : ObjectId → ObjectId → Prop

namespace Matching

/-- A matching comes before another one that has all its pairs. -/
instance : Preorder Matching where
  le m m' := (∀ r s, m.array r s → m'.array r s) ∧ ∀ r s, m.object r s → m'.object r s
  le_refl _ := ⟨fun _ _ h => h, fun _ _ h => h⟩
  le_trans _ _ _ h h' := ⟨fun r s hr => h'.1 r s (h.1 r s hr), fun r s hr => h'.2 r s (h.2 r s hr)⟩

/-- The matching with one more pair of arrays. -/
def addArray (m : Matching) (r s : ArrayId) : Matching where
  array r' s' := m.array r' s' ∨ (r' = r ∧ s' = s)
  object := m.object

theorem le_addArray (m : Matching) (r s : ArrayId) : m ≤ m.addArray r s :=
  ⟨fun _ _ h => Or.inl h, fun _ _ h => h⟩

end Matching

/-- Two values without functions that differ at most in the names of containers, which are
paired. -/
inductive Value.Alike (m : Matching) : Value → Value → Prop
  | undefined : Alike m .undefined .undefined
  | null : Alike m .null .null
  | bool (b : Bool) : Alike m (.bool b) (.bool b)
  | number (x : Float) : Alike m (.number x) (.number x)
  | string (s : String) : Alike m (.string s) (.string s)
  | array {r s : ArrayId} (h : m.array r s) : Alike m (.array r) (.array s)
  | object {r s : ObjectId} (h : m.object r s) : Alike m (.object r) (.object s)

/-- Paired containers are in the heaps, no two are paired with one, and their contents are alike. -/
structure Matching.Holds (m : Matching) (h h' : Heap) : Prop where
  array_inj : ∀ {r s r' s'}, m.array r s → m.array r' s' → (r = r' ↔ s = s')
  object_inj : ∀ {r s r' s'}, m.object r s → m.object r' s' → (r = r' ↔ s = s')
  array_lt : ∀ {r s}, m.array r s → r < h.arrays.size ∧ s < h'.arrays.size
  items : ∀ {r s}, m.array r s → List.Forall₂ (Value.Alike m) (h.items r).toList (h'.items s).toList
  entries : ∀ {r s}, m.object r s → ∀ key,
    Option.Rel (Value.Alike m) (Entries.get? key (h.entries r)) (Entries.get? key (h'.entries s))

namespace Matching

/-- The matching without pairs. -/
def empty : Matching := ⟨fun _ _ => False, fun _ _ => False⟩

theorem holds_empty (h h' : Heap) : empty.Holds h h' where
  array_inj h := h.elim
  object_inj h := h.elim
  array_lt h := h.elim
  items h := h.elim
  entries h := h.elim

end Matching

/-! ### More pairs -/

namespace Value.Alike

variable {m m' : Matching} {v v' : Value}

theorem mono (hm : m ≤ m') (h : Alike m v v') : Alike m' v v' := by
  cases h with
  | undefined => exact .undefined
  | null => exact .null
  | bool b => exact .bool b
  | number x => exact .number x
  | string s => exact .string s
  | array h => exact .array (hm.1 _ _ h)
  | object h => exact .object (hm.2 _ _ h)

theorem rel_mono (hm : m ≤ m') {o o' : Option Value} (h : Option.Rel (Alike m) o o') :
    Option.Rel (Alike m') o o' := by
  cases h with
  | none => exact .none
  | some h => exact .some (h.mono hm)

theorem forall₂_mono (hm : m ≤ m') {vs vs' : List Value} (h : List.Forall₂ (Alike m) vs vs') :
    List.Forall₂ (Alike m') vs vs' :=
  h.imp fun _ _ => mono hm

end Value.Alike

theorem Heap.items_newArray_of_lt {h : Heap} {r : ArrayId} (hr : r < h.arrays.size)
    (vs : Array Value) :
    (h.newArray vs).2.items r = h.items r := by
  simp [Heap.items, Heap.newArray, Array.getD, hr, Nat.lt_succ_of_lt hr, Array.getElem_push_lt hr]

theorem Heap.items_newArray_self (h : Heap) (vs : Array Value) :
    (h.newArray vs).2.items h.arrays.size = vs := by
  simp [Heap.items, Heap.newArray, Array.getD]

/-- New arrays with items that are alike can be paired. -/
theorem Matching.Holds.newArray {m : Matching} {h h' : Heap} (hm : m.Holds h h')
    {vs vs' : List Value} (hv : List.Forall₂ (Value.Alike m) vs vs') :
    (m.addArray h.arrays.size h'.arrays.size).Holds (h.newArray vs.toArray).2
    (h'.newArray vs'.toArray).2 where
  array_inj := by
    rintro r s r' s' (h₁ | ⟨rfl, rfl⟩) (h₂ | ⟨rfl, rfl⟩)
    · exact hm.array_inj h₁ h₂
    · obtain ⟨hr, hs⟩ := hm.array_lt h₁
      exact iff_of_false (Nat.ne_of_lt hr) (Nat.ne_of_lt hs)
    · obtain ⟨hr, hs⟩ := hm.array_lt h₂
      exact iff_of_false (Nat.ne_of_gt hr) (Nat.ne_of_gt hs)
    · simp
  object_inj := hm.object_inj
  array_lt := by
    simp only [Heap.newArray, Array.size_push]
    rintro r s (h₁ | ⟨rfl, rfl⟩)
    · obtain ⟨hr, hs⟩ := hm.array_lt h₁
      exact ⟨Nat.lt_succ_of_lt hr, Nat.lt_succ_of_lt hs⟩
    · exact ⟨Nat.lt_succ_self _, Nat.lt_succ_self _⟩
  items := by
    rintro r s (h₁ | ⟨rfl, rfl⟩)
    · rw [Heap.items_newArray_of_lt (hm.array_lt h₁).1,
        Heap.items_newArray_of_lt (hm.array_lt h₁).2]
      exact Value.Alike.forall₂_mono (m.le_addArray _ _) (hm.items h₁)
    · rw [Heap.items_newArray_self, Heap.items_newArray_self]
      exact Value.Alike.forall₂_mono (m.le_addArray _ _) hv
  entries h₁ key := Value.Alike.rel_mono (m.le_addArray _ _) (hm.entries h₁ key)

/-! ### What values that are alike have in common -/

section Alike

variable {m : Matching} {h h' : Heap} {v v' a a' b b' : Value}

theorem Value.Alike.isNullish_eq (hv : Value.Alike m v v') : v.isNullish = v'.isNullish := by
  cases hv <;> rfl

theorem Value.Alike.isPrimitive_eq (hv : Value.Alike m v v') : v.isPrimitive = v'.isPrimitive := by
  cases hv <;> rfl

theorem Value.Alike.truthy_eq (hv : Value.Alike m v v') : v.truthy = v'.truthy := by
  cases hv <;> rfl

/-- A primitive value is alike to itself alone. -/
theorem Value.Alike.eq_of_isPrimitive (hv : Value.Alike m v v') (hp : v.isPrimitive) : v = v' := by
  cases hv <;> first | rfl | cases hp

/-- Of two lists of paired arrays, one has an array of a pair just if the other one has its
partner. -/
theorem Matching.Holds.mem_iff (hm : m.Holds h h') {opn opn' : List ArrayId}
    (ho : List.Forall₂ m.array opn opn') {r s : ArrayId} (hr : m.array r s) :
    r ∈ opn ↔ s ∈ opn' := by
  induction ho with
  | nil => simp
  | cons h₁ _ ih => rw [List.mem_cons, List.mem_cons, hm.array_inj hr h₁, ih]

theorem Matching.Holds.textWithin_eq (hm : m.Holds h h') {opn opn' : List ArrayId}
    (ho : List.Forall₂ m.array opn opn') (hv : Value.Alike m v v') :
    v.textWithin h opn = v'.textWithin h' opn' := by
  induction hn : h.closedArrays opn using Nat.strongRecOn generalizing opn opn' v v' with
  | _ n ih =>
    cases hv with
    | @array r s hr =>
      obtain ⟨hlt, hlt'⟩ := hm.array_lt hr
      rw [Value.textWithin_array, Value.textWithin_array]
      by_cases hmem : r ∈ opn
      · rw [if_neg fun hn => hn.2 hmem, if_neg fun hn => hn.2 ((hm.mem_iff ho hr).1 hmem)]
      · rw [if_pos ⟨hlt, hmem⟩, if_pos ⟨hlt', fun hn => hmem ((hm.mem_iff ho hr).2 hn)⟩]
        congr 1
        refine List.forall₂_eq_eq_eq ▸ List.forall₂_map_left_iff.2 (List.forall₂_map_right_iff.2 ?_)
        refine (hm.items hr).imp fun u u' hu => ?_
        rw [hu.isNullish_eq, ih _ (hn ▸ Heap.closedArrays_cons_lt hlt hmem) (.cons hr ho) hu rfl]
    | object => simp only [Value.textWithin, Value.plainText]
    | _ => simp only [Value.textWithin]

/-- Values that are alike have the same text. -/
theorem Matching.Holds.text_eq (hm : m.Holds h h') (hv : Value.Alike m v v') :
    v.text h = v'.text h' :=
  hm.textWithin_eq .nil hv

/-- Values that are alike stand for the same number. -/
theorem Matching.Holds.toNumber_eq (hm : m.Holds h h') (hv : Value.Alike m v v') :
    v.toNumber h = v'.toNumber h' := by
  cases hv with
  | array hr => simp only [Value.toNumber, hm.text_eq (.array hr)]
  | object hr => simp only [Value.toNumber, hm.text_eq (.object hr)]
  | _ => rfl

theorem Matching.Holds.toPrimitive_eq (hm : m.Holds h h') (hv : Value.Alike m v v') :
    v.toPrimitive h = v'.toPrimitive h' := by
  unfold Value.toPrimitive
  rw [← hv.isPrimitive_eq, hm.text_eq hv]
  split_ifs with hp
  · exact hv.eq_of_isPrimitive hp
  · rfl

theorem Value.isPrimitive_toPrimitive (h : Heap) (v : Value) : (v.toPrimitive h).isPrimitive := by
  unfold Value.toPrimitive
  split_ifs with hp
  · exact hp
  · rfl

/-- The number and the text of a primitive value have nothing to do with containers. -/
theorem Value.toNumber_of_isPrimitive (hp : v.isPrimitive) (h h' : Heap) :
    v.toNumber h = v.toNumber h' := by
  cases v <;> first | cases hp; done | rfl

theorem Value.text_of_isPrimitive (hp : v.isPrimitive) (h h' : Heap) : v.text h = v.text h' := by
  cases v <;> first | cases hp; done | simp only [Value.text, Value.textWithin]

theorem Matching.Holds.strictEq_eq (hm : m.Holds h h') (ha : Value.Alike m a a')
    (hb : Value.Alike m b b') :
    a.strictEq b = a'.strictEq b' := by
  cases ha with
  | array hr =>
    cases hb with
    | array hs =>
      rw [Value.strictEq, Value.strictEq, Bool.eq_iff_iff, beq_iff_eq, beq_iff_eq]
      exact hm.array_inj hr hs
    | _ => rfl
  | object hr =>
    cases hb with
    | object hs =>
      rw [Value.strictEq, Value.strictEq, Bool.eq_iff_iff, beq_iff_eq, beq_iff_eq]
      exact hm.object_inj hr hs
    | _ => rfl
  | _ => cases hb <;> rfl

theorem Value.Alike.boolToNumber (hv : Value.Alike m v v') :
    Value.Alike m v.boolToNumber v'.boolToNumber := by
  cases hv with
  | bool b => exact .number _
  | _ => constructor <;> assumption

theorem Matching.Holds.mixedEq_eq (hm : m.Holds h h') (ha : Value.Alike m a a')
    (hb : Value.Alike m b b') :
    a.mixedEq b = a'.mixedEq b' := by
  have hs := hm.strictEq_eq ha hb
  cases ha <;> cases hb <;> first | exact hs | rfl

theorem Matching.Holds.looseEq_eq (hm : m.Holds h h') (ha : Value.Alike m a a')
    (hb : Value.Alike m b b') :
    a.looseEq h b = a'.looseEq h' b' := by
  unfold Value.looseEq
  dsimp only
  rw [ha.isNullish_eq, hb.isNullish_eq, ha.boolToNumber.isPrimitive_eq,
    hb.boolToNumber.isPrimitive_eq, hm.toPrimitive_eq ha.boolToNumber,
    hm.toPrimitive_eq hb.boolToNumber,
    hm.mixedEq_eq ha.boolToNumber hb.boolToNumber]

theorem Matching.Holds.compare?_eq (hm : m.Holds h h') (ha : Value.Alike m a a')
    (hb : Value.Alike m b b') :
    a.compare? h b = a'.compare? h' b' := by
  unfold Value.compare?
  rw [hm.toPrimitive_eq ha, hm.toPrimitive_eq hb]
  split
  · rfl
  · rw [Value.toNumber_of_isPrimitive (a'.isPrimitive_toPrimitive h') h h',
      Value.toNumber_of_isPrimitive (b'.isPrimitive_toPrimitive h') h h']

theorem Matching.Holds.add_eq (hm : m.Holds h h') (ha : Value.Alike m a a')
    (hb : Value.Alike m b b') :
    a.add h b = a'.add h' b' := by
  have hpa := a'.isPrimitive_toPrimitive h'
  have hpb := b'.isPrimitive_toPrimitive h'
  unfold Value.add
  rw [hm.toPrimitive_eq ha, hm.toPrimitive_eq hb]
  split
  · rw [Value.text_of_isPrimitive hpb h h']
  · rw [Value.text_of_isPrimitive hpa h h']
  · rw [Value.toNumber_of_isPrimitive hpa h h', Value.toNumber_of_isPrimitive hpb h h']

/-! ### Operators and properties -/

theorem Value.Alike.of_isPrimitive (hp : v.isPrimitive) : Value.Alike m v v := by
  cases v <;> first | (constructor; done) | cases hp

theorem Value.isPrimitive_add (h : Heap) (a b : Value) : (a.add h b).isPrimitive := by
  unfold Value.add
  split <;> rfl

theorem BinaryOp.isPrimitive_apply (h : Heap) (op : BinaryOp) (a b : Value) :
    (op.apply h a b).isPrimitive := by
  cases op with
  | add => exact Value.isPrimitive_add h a b
  | _ => rfl

theorem Matching.Holds.binaryOp_eq (hm : m.Holds h h') (op : BinaryOp) (ha : Value.Alike m a a')
    (hb : Value.Alike m b b') : op.apply h a b = op.apply h' a' b' := by
  cases op <;>
    simp only [BinaryOp.apply, hm.add_eq ha hb, hm.toNumber_eq ha, hm.toNumber_eq hb,
      hm.compare?_eq ha hb, hm.looseEq_eq ha hb, hm.strictEq_eq ha hb]

theorem Matching.Holds.unaryOp_eq (hm : m.Holds h h') (op : UnaryOp) (hv : Value.Alike m v v') :
    op.apply h v = op.apply h' v' := by
  cases op <;> simp only [UnaryOp.apply, hv.truthy_eq, hm.toNumber_eq hv]

theorem rel_getElem? {vs vs' : List Value} (hv : List.Forall₂ (Value.Alike m) vs vs') (i : Nat) :
    Option.Rel (Value.Alike m) vs[i]? vs'[i]? := by
  induction hv generalizing i with
  | nil => exact .none
  | cons hv _ ih =>
    cases i with
    | zero => exact .some hv
    | succ i => exact ih i

theorem alike_getD {o o' : Option Value} (ho : Option.Rel (Value.Alike m) o o') :
    Value.Alike m (o.getD .undefined) (o'.getD .undefined) := by
  cases ho with
  | none => exact .undefined
  | some h => exact h

/-- Two results: values that are alike, or the same error. -/
inductive SameResult (m : Matching) : Except TemplateError Value → Except TemplateError Value → Prop
  | ok {v v' : Value} (hv : Value.Alike m v v') : SameResult m (.ok v) (.ok v')
  | error (e : TemplateError) : SameResult m (.error e) (.error e)

/-- Values that are alike have properties that are alike. -/
theorem Matching.Holds.property (hm : m.Holds h h') (hv : Value.Alike m v v') (key : String) :
    SameResult m (property h v key) (property h' v' key) := by
  cases hv with
  | undefined => exact .error _
  | null => exact .error _
  | bool b => exact .ok .undefined
  | number x => exact .ok .undefined
  | string s =>
    unfold LiveMarkup.property
    dsimp only
    split_ifs
    · exact .ok (.number _)
    · refine .ok (alike_getD ?_)
      cases readIndex? key with
      | none => exact .none
      | some i =>
        rw [Option.bind_some]
        cases charAt? s i with
        | none => exact .none
        | some c => exact .some (.string _)
  | array hr =>
    have hi := hm.items hr
    unfold LiveMarkup.property
    dsimp only
    split_ifs
    · have hl := hi.length_eq
      rw [Array.length_toList, Array.length_toList] at hl
      rw [hl]
      exact .ok (.number _)
    · refine .ok (alike_getD ?_)
      cases readIndex? key with
      | none => exact .none
      | some i =>
        rw [Option.bind_some, Option.bind_some, ← Array.getElem?_toList, ← Array.getElem?_toList]
        exact rel_getElem? hi i
  | object hr => exact .ok (alike_getD (hm.entries hr key))

end Alike

end LiveMarkup
