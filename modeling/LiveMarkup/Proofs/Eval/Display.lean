import LiveMarkup.Proofs.Eval.Alike
import LiveMarkup.Proofs.Eval.Entities

/-!
# Escaping and display

`escapeHtml` and `Value.text` walk a value separately.  If no function is reached from it they write
it in the same `Layout`, with the texts in it escaped or as they are, and the layout has nothing
exactly where an array is met while it is open.  So the displayed text is the escaped one with its
entities read (`escapeHtml_displays`).
-/

namespace LiveMarkup

/-! ### Layouts -/

/-- How a value is written out. -/
inductive Layout where
  | plain (s : String)
  /-- Nothing, for an array met while it is open. -/
  | dropped
  | list (items : List Layout)

namespace Layout

/-- The text in a layout, each plain text put through `f`. -/
def write (f : String → String) : Layout → String
  | plain s => f s
  | dropped => ""
  | list ls => ",".intercalate (ls.map (write f))

/-- The layout of the item at a position, given by the indices that lead to it. -/
def at? : Layout → List Nat → Option Layout
  | l, [] => some l
  | list ls, i :: p => ls[i]?.bind fun l => l.at? p
  | _, _ :: _ => none

theorem write_list (f : String → String) (ls : List Layout) :
    (list ls).write f = ",".intercalate (ls.map (write f)) := by
  rw [write]

/-- Escaping the texts in a layout escapes the text that is written. -/
theorem write_escapeText : (l : Layout) → l.write escapeText = escapeText (l.write id)
  | plain s => by rw [write, write, id]
  | dropped => by
    rw [write, write]
    rfl
  | list ls => by
    rw [write_list, write_list, escapeText_intercalate, List.map_map]
    congr 1
    exact List.map_congr_left fun l _ => write_escapeText l

end Layout

/-! ### What a walk meets -/

namespace Value

/-- The value at a position of another, with the arrays that are open there.  Items are met only in
arrays that are not open yet. -/
inductive Meets (h : Heap) : List ArrayId → Value → List Nat → List ArrayId → Value → Prop
  | here {opn : List ArrayId} {v : Value} : Meets h opn v [] opn v
  | item {opn opn' : List ArrayId} {r : ArrayId} {i : Nat} {p : List Nat} {u v : Value}
    (hr : r ∉ opn) (hu : (h.items r)[i]? = some u) (hv : Meets h (r :: opn) u p opn' v) :
      Meets h opn (.array r) (i :: p) opn' v

/-- The values reached from a value through items of arrays. -/
inductive Reaches (h : Heap) : Value → Value → Prop
  | refl (v : Value) : Reaches h v v
  | item {r : ArrayId} {u v : Value} (hu : u ∈ h.items r) (hv : Reaches h u v) :
      Reaches h (.array r) v

/-- If arrays hold no functions, a function is reached only from itself. -/
theorem not_reaches_function {h : Heap}
    (hitems : ∀ r, ∀ u ∈ h.items r, ∀ f, u ≠ function f) {v : Value} (hv : ∀ f, v ≠ function f)
    (f : FunctionId) : ¬ v.Reaches h (function f) := by
  intro hr
  generalize hu : function f = u at hr
  induction hr with
  | refl => exact hv f hu.symm
  | item hmem _ ih => exact ih (hitems _ _ hmem) hu

/-- How a value is written while the arrays `opn` are open. -/
def layoutWithin (h : Heap) (opn : List ArrayId) : Value → Layout
  | array r =>
    if _ho : r ∈ opn then .dropped
    else if _hr : r < h.arrays.size then .list ((h.items r).toList.map (layoutWithin h (r :: opn)))
    else .list []
  | v => .plain (if v.isNullish then "" else v.plainText)
termination_by h.closedArrays opn
decreasing_by exact Heap.closedArrays_cons_lt _hr _ho

def layout (h : Heap) (v : Value) : Layout := v.layoutWithin h []

variable {h : Heap} {opn : List ArrayId} {r : ArrayId} {v : Value}

theorem layoutWithin_plain (hv : ∀ r, v ≠ array r) :
    v.layoutWithin h opn = .plain (if v.isNullish then "" else v.plainText) := by
  rw [layoutWithin]
  exact hv

theorem layoutWithin_array_of_mem (ho : r ∈ opn) : (array r).layoutWithin h opn = .dropped := by
  rw [layoutWithin, dif_pos ho]

theorem layoutWithin_array_of_notMem (ho : r ∉ opn) :
    (array r).layoutWithin h opn = .list ((h.items r).toList.map (layoutWithin h (r :: opn))) := by
  rw [layoutWithin, dif_neg ho]
  split_ifs with hr
  · rfl
  · rw [Heap.items_eq_empty (Nat.not_lt.1 hr)]
    rfl

theorem textWithin_plain (hv : ∀ r, v ≠ array r) : v.textWithin h opn = v.plainText := by
  rw [textWithin]
  exact hv

theorem layoutWithin_eq_dropped_iff :
    v.layoutWithin h opn = .dropped ↔ ∃ r, v = array r ∧ r ∈ opn := by
  constructor
  · intro hl
    by_cases hv : ∃ r, v = array r
    · obtain ⟨r, rfl⟩ := hv
      by_cases ho : r ∈ opn
      · exact ⟨r, rfl, ho⟩
      · rw [layoutWithin_array_of_notMem ho] at hl
        cases hl
    · rw [layoutWithin_plain (not_exists.1 hv)] at hl
      cases hl
  · rintro ⟨r, rfl, ho⟩
    exact layoutWithin_array_of_mem ho

/-- Nothing is laid out exactly where an array is met while it is open. -/
theorem at?_layoutWithin_eq_dropped {p : List Nat} :
    (v.layoutWithin h opn).at? p = some .dropped ↔ ∃ opn' r, Meets h opn v p opn' (array r) ∧
    r ∈ opn' := by
  induction p generalizing opn v with
  | nil =>
    rw [Layout.at?, Option.some_inj, layoutWithin_eq_dropped_iff]
    constructor
    · rintro ⟨r, rfl, ho⟩
      exact ⟨opn, r, .here, ho⟩
    · rintro ⟨opn', r, hm, ho⟩
      cases hm
      exact ⟨r, rfl, ho⟩
  | cons i p ih =>
    constructor
    · intro hl
      by_cases hv : ∃ r, v = array r
      · obtain ⟨r, rfl⟩ := hv
        by_cases ho : r ∈ opn
        · rw [layoutWithin_array_of_mem ho] at hl
          cases hl
        · rw [layoutWithin_array_of_notMem ho, Layout.at?, List.getElem?_map] at hl
          obtain ⟨l, hu, hl⟩ := Option.bind_eq_some_iff.1 hl
          obtain ⟨u, hi, rfl⟩ := Option.map_eq_some_iff.1 hu
          rw [Array.getElem?_toList] at hi
          obtain ⟨opn', r', hm, hr'⟩ := ih.1 hl
          exact ⟨opn', r', .item ho hi hm, hr'⟩
      · rw [layoutWithin_plain (not_exists.1 hv)] at hl
        cases hl
    · rintro ⟨opn', r', hm, hr'⟩
      cases hm with
      | item ho hu hm =>
        rw [layoutWithin_array_of_notMem ho, Layout.at?, List.getElem?_map,
          Array.getElem?_toList, hu]
        exact ih.2 ⟨opn', r', hm, hr'⟩

/-- An item is displayed as its layout is written. -/
theorem displayed_eq_write :
    (if v.isNullish then "" else v.textWithin h opn) = (v.layoutWithin h opn).write id := by
  induction hn : h.closedArrays opn using Nat.strong_induction_on generalizing opn v with
  | _ n ih =>
    by_cases hv : ∃ r, v = array r
    · obtain ⟨r, rfl⟩ := hv
      change (array r).textWithin h opn = _
      rw [textWithin_array]
      by_cases ho : r ∈ opn
      · rw [layoutWithin_array_of_mem ho, if_neg (fun h => h.2 ho), Layout.write]
      · rw [layoutWithin_array_of_notMem ho, Layout.write_list, List.map_map]
        by_cases hr : r < h.arrays.size
        · rw [if_pos ⟨hr, ho⟩]
          congr 1
          exact List.map_congr_left fun u _ => ih _ (hn ▸ Heap.closedArrays_cons_lt hr ho) rfl
        · rw [if_neg (fun h => hr h.1), Heap.items_eq_empty (Nat.not_lt.1 hr)]
          rfl
    · rw [layoutWithin_plain (not_exists.1 hv), textWithin_plain (not_exists.1 hv),
        Layout.write, id]

/-- The displayed text of a value is the text in its layout. -/
theorem text_eq_write (hv : v.isNullish = false) : v.text h = (v.layout h).write id := by
  rw [layout, ← displayed_eq_write, hv]
  rfl

end Value

/-! ### What is written with escaping -/

section Escape

open Value

variable {σ : Type} {rt : Runtime σ} {opn : List ArrayId} {v : Value} {w : World σ}

theorem writeEach_of_forall {W : Type} {write : Value → W → Except Stop String × W}
    {text : Value → String} {w : W} {vs : List Value}
    (h : ∀ v ∈ vs, write v w = (.ok (text v), w)) :
    writeEach write vs w = (.ok (vs.map text), w) := by
  induction vs with
  | nil => rfl
  | cons v vs ih =>
    rw [List.forall_mem_cons] at h
    rw [writeEach, h.1]
    dsimp only
    rw [ih h.2]
    rfl

/-- A value from which no function is reached is written in its layout, with the texts in it
escaped, and nothing else happens. -/
theorem escapeWithin_eq_write {n : Nat} (hf : ∀ f, ¬ v.Reaches w.heap (.function f))
    (hn : w.heap.closedArrays opn < n) :
    escapeWithin rt n opn true v w = (.ok ((v.layoutWithin w.heap opn).write escapeText), w) := by
  induction n generalizing opn v with
  | zero => exact absurd hn (Nat.not_lt_zero _)
  | succ n ih =>
    cases v with
    | array r =>
      by_cases ho : r ∈ opn
      · rw [escapeWithin_array_of_mem ho, layoutWithin_array_of_mem ho, Layout.write]
      · have hitems : writeEach (escapeWithin rt n (r :: opn) true) (w.heap.items r).toList w =
            (.ok ((w.heap.items r).toList.map fun u =>
              (u.layoutWithin w.heap (r :: opn)).write escapeText), w) := by
          refine writeEach_of_forall fun u hu => ?_
          have hr : r < w.heap.arrays.size := by
            by_contra hr
            rw [Heap.items_eq_empty (Nat.not_lt.1 hr)] at hu
            cases hu
          have hc := Heap.closedArrays_cons_lt hr ho
          exact ih (fun f hr => hf f (.item (Array.mem_toList_iff.1 hu) hr)) (by omega)
        refine (escapeWithin_array_eq_ok_iff ho).2 ⟨_, hitems, ?_⟩
        rw [layoutWithin_array_of_notMem ho, Layout.write_list, List.map_map]
        rfl
    | function f => exact absurd (.refl _) (hf f)
    | _ => rw [escapeWithin_plain (by simp) (by simp), layoutWithin_plain (by simp), Layout.write]

/-- A value from which no function is reached is escaped and displayed, whatever arrays share or
hold one another. The displayed text is the escaped one with its entities read, and both leave out
the same places, those where an array is met while it is open. -/
theorem escapeHtml_displays (hv : v.isNullish = false)
    (hf : ∀ f, ¬ v.Reaches w.heap (.function f)) :
    ∃ t, escapeHtml rt v true w = (.ok t, w) ∧
      unescapeText t.toList = (v.text w.heap).toList ∧
      t = (v.layout w.heap).write escapeText ∧ v.text w.heap = (v.layout w.heap).write id ∧
      ∀ p, (v.layout w.heap).at? p = some .dropped ↔
        ∃ opn r, Meets w.heap [] v p opn (.array r) ∧ r ∈ opn := by
  have hc : w.heap.closedArrays [] < w.heap.arrays.size + rt.depth + 2 := by
    have := w.heap.closedArrays_le []
    omega
  refine ⟨_, escapeWithin_eq_write hf hc, ?_, rfl, text_eq_write hv,
    fun p => at?_layoutWithin_eq_dropped⟩
  rw [Layout.write_escapeText, unescapeText_escapeText, text_eq_write hv]
  rfl

/-- An array that holds another twice, with both holding the first. -/
def knot : World Unit :=
  ⟨⟨#[#[.string "<", .array 1, .array 1, .array 0, .null], #[.array 0, .string "a&b"]], #[]⟩, ()⟩

theorem escapeHtml_displays_knot :
    (Value.array 0).isNullish = false ∧ (∀ f, ¬ (Value.array 0).Reaches knot.heap (.function f)) ∧
      escapeHtml ⟨fun _ _ _ w => (.error .bound, w), 0⟩ (.array 0) true knot =
        (.ok "&lt;,,a&amp;b,,a&amp;b,,", knot) ∧
      (Value.array 0).text knot.heap = "<,,a&b,,a&b,," ∧
      ((Value.array 0).layout knot.heap).at? [2, 0] = some .dropped := by
  have hitems : ∀ r, ∀ u ∈ (knot.heap.items r), ∀ f, u ≠ .function f := by
    intro r
    match r with
    | 0 | 1 | _ + 2 => simp [knot, Heap.items]
  have hf := not_reaches_function hitems (v := .array 0) (by simp)
  have hnullish : (Value.array 0).isNullish = false := rfl
  obtain ⟨t, ht, hread, -, -, hdropped⟩ :
      ∃ t, escapeHtml ⟨fun _ _ _ w => (.error .bound, w), 0⟩ (.array 0) true knot =
        (.ok t, knot) ∧ _ :=
    escapeHtml_displays hnullish hf
  obtain rfl : "&lt;,,a&amp;b,,a&amp;b,," = t := Except.ok.inj (congrArg Prod.fst ht)
  refine ⟨hnullish, hf, ht, String.toList_inj.1 hread.symm,
    (hdropped _).2 ⟨[1, 0], 0, ?_, by decide⟩⟩
  exact .item (by decide) rfl (.item (by decide) rfl .here)

end Escape

end LiveMarkup
