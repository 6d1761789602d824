import LiveMarkup.Proofs.Eval.Effect
import LiveMarkup.Proofs.Eval.Entities
import Mathlib.Data.Finset.Lattice.Fold

/-!
# Writing values that hold functions

Writing a value out calls the functions met in it, and the results may hold functions again.
`Runtime.tallied` counts the calls and marks those that do not return, be it because the called
function writes to an array that is being written out.  If each call that is made returns, a value
is written at some depth exactly if the calls come to an end (`callsEnd_iff`), and then the text is
escaped and the same at all greater depths (`escapeHtml_escaped`).
-/

namespace LiveMarkup

/-! ### Calls that come to an end -/

section Ends

variable {σ : Type} {rt : Runtime σ} {calls : World σ → Nat} {lost : World σ → Bool} {B : Nat}

/-- Whether a count goes up with each call, and a mark is set for good by a call that does not
return. -/
structure Tallies (rt : Runtime σ) (calls : World σ → Nat) (lost : World σ → Bool) : Prop where
  counts : ∀ rs f args w, calls w < calls (rt.call rs f args w).2
  keeps : ∀ rs f args w, lost w = true → lost (rt.call rs f args w).2 = true
  marks : ∀ rs f args w why w', rt.call rs f args w = (.error why, w') → lost w' = true

/-- Whether no more than `B` calls were made, and all of them have returned. -/
def Returned (calls : World σ → Nat) (lost : World σ → Bool) (B : Nat) (w : World σ) : Prop :=
  calls w ≤ B ∧ lost w = false

/-- Doing nothing, or something that counts as a call at least. -/
def callEffect (calls : World σ → Nat) (lost : World σ → Bool) : Effect (World σ) where
  rel w w' := w' = w ∨ calls w < calls w' ∧ (lost w = true → lost w' = true)
  refl _ := Or.inl rfl
  trans := by
    rintro w₁ w₂ w₃ (rfl | h) (rfl | h')
    · exact Or.inl rfl
    · exact Or.inr h'
    · exact Or.inr h
    · exact Or.inr ⟨h.1.trans h'.1, h'.2 ∘ h.2⟩

theorem callEffect.returned {w w' : World σ} (h : (callEffect calls lost).rel w w')
    (hw' : Returned calls lost B w') : Returned calls lost B w := by
  rcases h with rfl | ⟨hlt, hlost⟩
  · exact hw'
  · refine ⟨hlt.le.trans hw'.1, ?_⟩
    rw [← Bool.not_eq_true]
    exact fun hl => Bool.false_ne_true (hw'.2.symm.trans (hlost hl))

theorem Tallies.within (ht : Tallies rt calls lost) (n : Nat) (opn : List ArrayId) (v : Value)
    (w : World σ) :
    (callEffect calls lost).rel w (escapeWithin rt n opn true v w).2 :=
  escapeWithin_within (fun rs f args w => Or.inr ⟨ht.counts rs f args w, ht.keeps rs f args w⟩)
    n opn true v w

mutual

/-- If at great depths the count stays bounded and every call that is made returns, a value is
written at some depth.  Each step makes another call or opens an array, and what leads to a new
array is a call. -/
theorem exists_escapeWithin (ht : Tallies rt calls lost) {m : Nat} {opn : List ArrayId}
    {v : Value} {w : World σ}
    (h : ∀ n ≥ m, Returned calls lost B (escapeWithin rt n opn true v w).2) :
    ∃ n t w', escapeWithin rt n opn true v w = (.ok t, w') := by
  cases v with
  | function f =>
    rcases hcall : rt.call opn f [] w with ⟨why | v, w₁⟩
    · have hkept := (h (m + 1) (by omega)).2
      rw [escapeWithin, hcall, ht.marks _ _ _ _ _ _ hcall] at hkept
      cases hkept
    · have hlt : calls w < calls w₁ := by
        have := ht.counts opn f [] w
        rwa [hcall] at this
      have hbound (n : Nat) (hn : n ≥ m) :
        Returned calls lost B (escapeWithin rt n opn true v w₁).2 := by
        rw [← escapeWithin_function hcall]
        exact h (n + 1) (by omega)
      have hle : calls w₁ ≤ B := (callEffect.returned (ht.within m opn v w₁) (hbound m le_rfl)).1
      have hdec : B - calls w₁ < B - calls w := by omega
      obtain ⟨n, t, w', hn⟩ := exists_escapeWithin ht hbound
      exact ⟨n + 1, t, w', (escapeWithin_function hcall).trans hn⟩
  | array r =>
    by_cases ho : r ∈ opn
    · exact ⟨1, "", w, escapeWithin_array_of_mem ho⟩
    · by_cases hr : r < w.heap.arrays.size
      · have hbound (n : Nat) (hn : n ≥ m) :
            Returned calls lost B (writeEach (escapeWithin rt n (r :: opn) true)
              (w.heap.items r).toList w).2 := by
          have := h (n + 1) (by omega)
          rwa [escapeWithin_array_of_notMem ho] at this
        have hlt := Heap.closedArrays_cons_lt hr ho
        obtain ⟨n, ts, w', hn⟩ := exists_writeEach ht hbound
        exact ⟨n + 1, ",".intercalate ts, w', (escapeWithin_array_eq_ok_iff ho).2 ⟨ts, hn, rfl⟩⟩
      · refine ⟨1, "", w, (escapeWithin_array_eq_ok_iff ho).2 ⟨[], ?_, rfl⟩⟩
        rw [Heap.items_eq_empty (Nat.not_lt.1 hr)]
        rfl
  | _ => exact ⟨1, _, w, escapeWithin_plain (by simp) (by simp)⟩
termination_by (B - calls w, w.heap.closedArrays opn, 0)

theorem exists_writeEach (ht : Tallies rt calls lost) {m : Nat} {opn : List ArrayId}
    {vs : List Value} {w : World σ}
    (h : ∀ n ≥ m, Returned calls lost B (writeEach (escapeWithin rt n opn true) vs w).2) :
    ∃ n ts w', writeEach (escapeWithin rt n opn true) vs w = (.ok ts, w') := by
  cases vs with
  | nil => exact ⟨0, [], w, rfl⟩
  | cons v vs =>
    have hfirst (n : Nat) (hn : n ≥ m) :
      Returned calls lost B (escapeWithin rt n opn true v w).2 := by
      have hall := h n hn
      rcases hv : escapeWithin rt n opn true v w with ⟨_ | t, w₁⟩
      · rwa [writeEach, hv] at hall
      · rw [writeEach_cons_of_ok hv] at hall
        exact callEffect.returned (writeEach_within (ht.within n opn) vs w₁) hall
    obtain ⟨n₁, t, w₁, hv⟩ := exists_escapeWithin ht hfirst
    have hrest (n : Nat) (hn : n ≥ max m n₁) :
        Returned calls lost B (writeEach (escapeWithin rt n opn true) vs w₁).2 := by
      have := h n (by omega)
      rwa [writeEach_cons_of_ok (escapeWithin_mono (by omega) hv)] at this
    have hle : calls w₁ ≤ B :=
      (callEffect.returned (writeEach_within (ht.within _ opn) vs w₁) (hrest _ le_rfl)).1
    -- The rest starts in the same world, or after a call.
    have hw₁ : w₁ = w ∨ calls w < calls w₁ := by
      have := ht.within n₁ opn v w
      rw [hv] at this
      exact this.imp_right And.left
    obtain ⟨n₂, ts, w₂, hvs⟩ : ∃ n ts w', writeEach (escapeWithin rt n opn true) vs w₁ =
      (.ok ts, w') := by
      rcases hw₁ with heq | hlt
      · rw [heq] at hrest ⊢
        exact exists_writeEach ht hrest
      · have hdec : B - calls w₁ < B - calls w := by omega
        exact exists_writeEach ht hrest
    refine ⟨max n₁ n₂, t :: ts, w₂, writeEach_cons_eq_ok_iff.2 ⟨t, ts, w₁, ?_, ?_, rfl⟩⟩
    · exact escapeWithin_mono (Nat.le_max_left n₁ n₂) hv
    · exact writeEach_mono (fun _ _ _ _ => escapeWithin_mono (Nat.le_max_right n₁ n₂)) hvs
termination_by (B - calls w, w.heap.closedArrays opn, vs.length)

end

end Ends

/-! ### Counting calls -/

section Counted

variable {σ : Type} {rt : Runtime σ} {v : Value} {w : World σ}

/-- How many calls were made, and whether one of them has not returned. -/
structure Tally where
  calls : Nat
  lost : Bool

/-- The tally after one more call. -/
def Tally.add (t : Tally) (reply : Except Stop Value) : Tally :=
  ⟨t.calls + 1, t.lost || !reply.isOk⟩

/-- The world with a tally beside the private state of user code. -/
def World.withTally (w : World σ) (t : Tally) : World (σ × Tally) := ⟨w.heap, w.user, t⟩

/-- The world without the tally. -/
def World.untallied (w : World (σ × Tally)) : World σ := ⟨w.heap, w.user.1⟩

def World.tally (w : World (σ × Tally)) : Tally := w.user.2

namespace Runtime

/-- The runtime that keeps a tally of its calls. -/
def tallied (rt : Runtime σ) : Runtime (σ × Tally) where
  call rs f args w :=
    let (reply, w') := rt.call rs f args w.untallied
    (reply, w'.withTally (w.tally.add reply))
  depth := rt.depth

theorem tallied_call {rs : List ArrayId} {f : FunctionId} {args : List Value}
    {w : World (σ × Tally)} {reply : Except Stop Value} {w' : World σ}
    (h : rt.call rs f args w.untallied = (reply, w')) :
    rt.tallied.call rs f args w = (reply, w'.withTally (w.tally.add reply)) := by
  show ((rt.call rs f args w.untallied).1,
    (rt.call rs f args w.untallied).2.withTally (w.tally.add (rt.call rs f args w.untallied).1)) = _
  rw [h]

theorem tallies (rt : Runtime σ) :
    Tallies rt.tallied (fun w => w.tally.calls) (fun w => w.tally.lost) where
  counts _ _ _ w := Nat.lt_succ_self w.tally.calls
  keeps _ _ _ w h := by
    show (w.tally.lost || _) = true
    rw [h, Bool.true_or]
  marks rs f args w why w' h := by
    rw [tallied_call rfl] at h
    obtain ⟨hreply, rfl⟩ := Prod.mk.inj h
    show (w.tally.lost || !(rt.call rs f args w.untallied).1.isOk) = true
    rw [hreply]
    exact Bool.or_true _

/-- The tally of the calls that are made in writing a value at most `n` deep. -/
def tallyAt (rt : Runtime σ) (v : Value) (w : World σ) (n : Nat) : Tally :=
  (escapeWithin rt.tallied n [] true v (w.withTally ⟨0, false⟩)).2.tally

/-- Each call that is made in writing a value returns, however deep the walk may go. -/
def CallsReturn (rt : Runtime σ) (v : Value) (w : World σ) : Prop :=
  ∀ n, (rt.tallyAt v w n).lost = false

/-- Only finitely many calls are made in writing a value, however deep the walk may go. -/
def CallsEnd (rt : Runtime σ) (v : Value) (w : World σ) : Prop := ∃ N, ∀ n,
    (rt.tallyAt v w n).calls ≤ N

end Runtime

theorem writeEach_map {W W' : Type} {f : W → W'} {write : Value → W → Except Stop String × W}
    {write' : Value → W' → Except Stop String × W'}
    (hw : ∀ v w, write' v (f w) = (write v w).map id f) (vs : List Value) (w : W) :
    writeEach write' vs (f w) = (writeEach write vs w).map id f := by
  induction vs generalizing w with
  | nil => rfl
  | cons v vs ih =>
    rw [writeEach, writeEach, hw]
    rcases write v w with ⟨_ | t, w₁⟩
    · rfl
    · dsimp only [Prod.map_apply, id]
      rw [ih]
      rcases writeEach write vs w₁ with ⟨_ | ts, w₂⟩ <;> rfl

/-- Keeping a tally does not change what is written. -/
theorem escapeWithin_untallied (n : Nat) (opn : List ArrayId) (escape : Bool) (v : Value)
    (w : World (σ × Tally)) :
    escapeWithin rt n opn escape v w.untallied =
      (escapeWithin rt.tallied n opn escape v w).map id World.untallied := by
  induction n generalizing opn escape v w with
  | zero => rfl
  | succ n ih =>
    cases v with
    | function f =>
      rcases hf : rt.call opn f [] w.untallied with ⟨_ | v, w₁⟩
      · rw [escapeWithin, escapeWithin, hf, Runtime.tallied_call hf]
        rfl
      · rw [escapeWithin_function hf, escapeWithin_function (Runtime.tallied_call hf)]
        exact ih opn true v (w₁.withTally _)
    | array r =>
      by_cases ho : r ∈ opn
      · rw [escapeWithin_array_of_mem ho, escapeWithin_array_of_mem ho]
        rfl
      · rw [escapeWithin_array_of_notMem ho, escapeWithin_array_of_notMem ho,
          writeEach_map (ih (r :: opn) true) (w.untallied.heap.items r).toList w]
        rfl
    | _ => rfl

/-- If each call that is made returns, a value is written at some depth exactly if the calls come to
an end. -/
theorem callsEnd_iff (hreturn : rt.CallsReturn v w) :
    rt.CallsEnd v w ↔ ∃ n t w', escapeWithin rt n [] true v w = (.ok t, w') := by
  constructor
  · rintro ⟨N, hN⟩
    obtain ⟨n, t, w', h⟩ := exists_escapeWithin rt.tallies (m := 0) fun n _ => ⟨hN n, hreturn n⟩
    refine ⟨n, t, w'.untallied, ?_⟩
    rw [show w = (w.withTally ⟨0, false⟩).untallied from rfl, escapeWithin_untallied, h]
    rfl
  · rintro ⟨n, t, w', h⟩
    rw [show w = (w.withTally ⟨0, false⟩).untallied from rfl, escapeWithin_untallied] at h
    rcases hc : escapeWithin rt.tallied n [] true v (w.withTally ⟨0, false⟩) with
      ⟨_ | u, w₁⟩ <;> rw [hc] at h <;>
      cases h
    -- From depth `n` on the tally does not change.
    refine ⟨(Finset.range (n + 1)).sup fun m => (rt.tallyAt v w m).calls, fun m => ?_⟩
    rcases Nat.le_total m n with hm | hm
    · exact Finset.le_sup (f := fun m => (rt.tallyAt v w m).calls)
        (Finset.mem_range.2 (Nat.lt_succ_of_le hm))
    · have heq : rt.tallyAt v w m = rt.tallyAt v w n := by
        rw [Runtime.tallyAt, Runtime.tallyAt, escapeWithin_mono hm hc, hc]
      rw [heq]
      exact Finset.le_sup (f := fun m => (rt.tallyAt v w m).calls)
        (Finset.mem_range.2 (Nat.lt_succ_self n))

/-- If every call returns, those that are made return. -/
theorem callsReturn_of_forall (h : ∀ rs f args w, ∃ v w', rt.call rs f args w = (.ok v, w')) :
    rt.CallsReturn v w := by
  let kept : Effect (World (σ × Tally)) :=
    { rel := fun w w' => w.tally.lost = false → w'.tally.lost = false
      refl := fun _ hw => hw
      trans := fun h h' hw => h' (h hw) }
  refine fun n => escapeWithin_within (E := kept) (fun rs f args w hw => ?_) n [] true v _ rfl
  obtain ⟨v', w', hcall⟩ := h rs f args w.untallied
  rw [Runtime.tallied_call hcall]
  show (w.tally.lost || !(Except.ok v' : Except Stop Value).isOk) = false
  rw [hw]
  rfl

/-- The bound on the depth only sets how deep the walk may go. -/
theorem escapeHtml_withDepth (d : Nat) (escape : Bool) :
    escapeHtml { rt with depth := d } v escape w =
      escapeWithin rt (w.heap.arrays.size + d + 2) [] escape v w := by
  have hcall (rs : List ArrayId) (f : FunctionId) (args : List Value) :
      AgreeOn (fun _ => True) (({ rt with depth := d } : Runtime σ).call rs f args)
        (rt.call rs f args) :=
    .of_keeps fun _ _ => trivial
  exact (escapeWithin_agreeOn hcall _ [] escape v w trivial).1

/-- Escaped output is escaped text for every value: if the calls that are made return and come to an
end, then one text is written at all sufficient depths, and arrays and functions are written so
without a request to escape too. -/
theorem escapeHtml_escaped (hreturn : rt.CallsReturn v w) (hend : rt.CallsEnd v w) :
    ∃ t w', Escaped t.toList ∧ ∃ d, ∀ d' ≥ d, ∀ escape,
      (escape = true ∨ (∃ r, v = .array r) ∨ ∃ f, v = .function f) →
        escapeHtml { rt with depth := d' } v escape w = (.ok t, w') := by
  obtain ⟨n, t, w', h⟩ := (callsEnd_iff hreturn).1 hend
  refine ⟨t, w', escapeWithin_escaped h, n, fun d hd escape hv => ?_⟩
  rw [escapeHtml_withDepth]
  have hdeep := escapeWithin_mono (show n ≤ w.heap.arrays.size + d + 2 by omega) h
  rcases hv with rfl | hv
  · exact hdeep
  · rw [escapeWithin_escape hv, hdeep]

/-- Calls that give an array and a text. -/
def tagCalls : Runtime Unit where
  call _ f _ w := (.ok (if f = 0 then .array 0 else .string "<b>"), w)
  depth := 0

/-- An array that holds a function, itself, an object and a text. -/
def tagWorld : World Unit := ⟨⟨#[#[.function 1, .array 0, .object 0, .string "\"&'"]], #[[]]⟩, ()⟩

theorem escapeHtml_escaped_tag :
    tagCalls.CallsReturn (.function 0) tagWorld ∧ tagCalls.CallsEnd (.function 0) tagWorld ∧
      ∃ t w', Escaped t.toList ∧ ∃ d, ∀ d' ≥ d, ∀ escape,
        (escape = true ∨ (∃ r, Value.function 0 = .array r) ∨ ∃ f, Value.function 0 = .function f) →
          escapeHtml { tagCalls with depth := d' } (.function 0) escape tagWorld = (.ok t, w') := by
  have hreturn : tagCalls.CallsReturn (.function 0) tagWorld :=
    callsReturn_of_forall fun _ _ _ _ => ⟨_, _, rfl⟩
  have htext : escapeWithin tagCalls 4 [] true (.function 0) tagWorld =
      (.ok "&lt;b&gt;,,[object Object],&quot;&amp;&#039;", tagWorld) := rfl
  have hend : tagCalls.CallsEnd (.function 0) tagWorld := (callsEnd_iff hreturn).2 ⟨_, _, _, htext⟩
  exact ⟨hreturn, hend, escapeHtml_escaped hreturn hend⟩

end Counted

end LiveMarkup
