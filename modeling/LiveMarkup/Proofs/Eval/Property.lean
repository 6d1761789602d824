import LiveMarkup.Eval.Escape
import LiveMarkup.Eval.Expr
import LiveMarkup.Proofs.Eval.Display
import LiveMarkup.Proofs.Eval.Run
import LiveMarkup.Proofs.Number.Index

/-!
# Properties in templates and through views

An expression reads a property by the text of its key (`Expr.Accesses`), a view of a container by a
key that may also be a number.  Both decode keys on their own, and they find the same value under
every key (`property_eq_read`, `Tracked.access_eq_getValue`).  So an expression finds what was
stored through a view.
-/

namespace LiveMarkup

/-! ### Texts of keys -/

theorem Value.text_plain {h : Heap} {v : Value} (hv : ∀ r, v ≠ array r) : v.text h = v.plainText :=
  textWithin_plain hv

namespace Key

variable {k : Key} {h : Heap} {target : Value}

/-- A key that is a number denotes what its digits denote. -/
theorem readIndex?_text (hk : ∀ i, k = .index i → i < indexBound) :
    readIndex? k.text = k.index? := by
  cases k with
  | name t => rfl
  | index i =>
    rw [text, readIndex?_toString, if_pos (hk i rfl)]
    rfl

theorem text_eq_length_iff (hk : ∀ i, k = .index i → i < indexBound) :
    k.text = "length" ↔ k = .name "length" := by
  cases k with
  | name t => simp [text]
  | index i =>
    refine ⟨fun ht => ?_, nofun⟩
    have hread := readIndex?_text hk
    rw [ht, show readIndex? "length" = none by decide] at hread
    cases hread

end Key

/-- A container has the same property for an expression as for a view. -/
theorem property_eq_read {k : Key} {h : Heap} {target : Value} (hc : target.isContainer)
    (hk : ∀ i, k = .index i → i < indexBound) :
    property h target k.text = .ok (k.read h target) := by
  cases target with
  | array r =>
    simp only [property, Key.read, Key.text_eq_length_iff hk, Key.readIndex?_text hk]
    split_ifs <;> rfl
  | object r => rfl
  | _ => cases hc

/-- A value that was stored under a key is read under it, unless it is the length of an array. -/
theorem Key.read_of_write {k : Key} {h h' : Heap} {target v : Value}
    (hheap : ∀ c ∈ target.container?, c ∈ h.containers)
    (hlength : ∀ r, target = .array r → k ≠ .name "length") (hwrite : k.write h target v = .ok h') :
    k.read h' target = v := by
  have hfit : k.Fits h v target := by
    by_contra hfit
    obtain ⟨e, he⟩ := exists_write_eq_error hfit
    rw [hwrite] at he
    cases he
  have hcontainer : target.isContainer := by cases hfit <;> rfl
  obtain ⟨c, hc⟩ := Option.isSome_iff_exists.1 hcontainer
  obtain ⟨h'', hwrite', -, hwrote⟩ := exists_write_eq_ok hfit hc (hheap c hc)
  rw [hwrite] at hwrite'
  cases hwrite'
  refine hwrote.read_eq hc ?_
  cases target with
  | array r => exact Or.inl (hlength r rfl)
  | object r =>
    cases hc
    exact Or.inr ⟨r, rfl⟩
  | _ => cases hc

/-! ### Expressions that read a property -/

section Access

variable {σ : Type} {env : Env σ} {scope : Scope} {w w' : World σ} {target : Value}
  {k : String} {e : Expr}

/-- `e.Accesses env scope w target k w'` says that `e` reads the property of `target` under the key
`k`, either by its name or by an expression for the key, and that the world is `w'` once the parts
of `e` have their values. -/
inductive Expr.Accesses (env : Env σ) (scope : Scope) (w : World σ) (target : Value) (k : String)
    (w' : World σ) :
    Expr → Prop
  | member {object : Expr} (ho : object.eval env scope w = (.ok target, w')) :
    Accesses env scope w target k w' (.member object k)
  | index {object key : Expr} {v : Value} {w₁ : World σ}
    (ho : object.eval env scope w = (.ok target, w₁))
    (hkey : key.eval env scope w₁ = (.ok v, w')) (hv : v.text w'.heap = k) :
    Accesses env scope w target k w' (.index object key)

theorem Expr.Accesses.eval_eq (ha : e.Accesses env scope w target k w') :
    e.eval env scope w = (.ofExcept (property w'.heap target k), w') := by
  cases ha with
  | member ho =>
    rw [Expr.eval, Run.bind_eq_of_ok ho]
    rfl
  | index ho hkey hv =>
    rw [Expr.eval, Run.bind_eq_of_ok ho, Run.bind_eq_of_ok hkey, Run.read_bind, hv]
    rfl

end Access

namespace Tracked

variable {σ : Type}

/-- A write that succeeds has stored the value and run the callback on the heap that it left. -/
theorem exists_of_set_eq_ok {t : Tracked σ} {k : Key} {v : Value} {w w' : World σ}
    (hset : t.set k v w = (.ok (), w')) :
    ∃ h', k.write w.heap t.target v = .ok h' ∧ t.onChange { w with heap := h' } = (.ok (), w') := by
  cases hw : k.write w.heap t.target v with
  | ok h' => exact ⟨h', rfl, (set_of_ok hw).symm.trans hset⟩
  | error e =>
    rw [set_of_error hw] at hset
    cases hset

/-- An expression that reads a property of a container finds what a view of the container reads
under the key, the key being given by its text.  A write that succeeds runs the callback on a heap
in which the value is stored; in every heap that has the property as it is there, in particular in
this one, each such expression has the stored value. -/
theorem access_eq_getValue {t : Tracked σ} {k : Key} (hc : t.target.isContainer)
    (hk : ∀ i, k = .index i → i < indexBound) :
    (∀ (env : Env σ) scope w w' e, Expr.Accesses env scope w t.target k.text w' e →
      e.eval env scope w = (.ok (t.getValue w'.heap k), w')) ∧
    ∀ v w w', (∀ c ∈ t.target.container?, c ∈ w.heap.containers) →
      (∀ r, t.target = .array r → k ≠ .name "length") → t.set k v w = (.ok (), w') →
      ∃ h', t.onChange { w with heap := h' } = (.ok (), w') ∧
        ∀ (env : Env σ) scope w₁ w₂ e, t.getValue w₂.heap k = t.getValue h' k →
          Expr.Accesses env scope w₁ t.target k.text w₂ e → e.eval env scope w₁ = (.ok v, w₂) := by
  have haccess : ∀ (env : Env σ) scope w w' e, Expr.Accesses env scope w t.target k.text w' e →
      e.eval env scope w = (.ok (t.getValue w'.heap k), w') := by
    intro env scope w w' e ha
    rw [ha.eval_eq, property_eq_read hc hk]
    rfl
  refine ⟨haccess, fun v w w' hheap hlength hset => ?_⟩
  obtain ⟨h', hwrite, hcall⟩ := exists_of_set_eq_ok hset
  refine ⟨h', hcall, fun env scope w₁ w₂ e hsame ha => ?_⟩
  rw [haccess env scope w₁ w₂ e ha, hsame, getValue, Key.read_of_write hheap hlength hwrite]

theorem access_eq_getValue_leading_zero :
    let env : Env Nat :=
      ⟨⟨fun _ _ _ w => (.error .bound, w), 0⟩, ⟨escapeHtml, 0⟩, [("xs", .array 0)]⟩
    let w : World Nat := ⟨⟨#[#[.string "a", .undefined, .string "b"]], #[]⟩, 1⟩
    set ⟨.array 0, countRuns⟩ (.name "+02") (.string "b") ⟨⟨#[#[.string "a"]], #[]⟩,
      0⟩ = (.ok (), w) ∧
      (Expr.index (.ident "xs") (.literal (.string "+02"))).eval env .empty w =
        (.ok (.string "b"), w) ∧
      (Expr.index (.ident "xs") (.literal (.string "1"))).eval env .empty w =
        (.ok .undefined, w) := by
  intro env w
  have hset : set ⟨.array 0, countRuns⟩ (.name "+02") (.string "b") ⟨⟨#[#[.string "a"]], #[]⟩,
    0⟩ = (.ok (), w) := rfl
  have haccess (k : String) :
    Expr.Accesses env .empty w (.array 0) k w (.index (.ident "xs") (.literal (.string k))) :=
    .index rfl rfl (Value.text_plain nofun)
  have hname (k : String) : ∀ i, Key.name k = .index i → i < indexBound := nofun
  refine ⟨hset, ?_, ?_⟩
  · have hheap : ∀ c ∈ (Value.array 0).container?,
      c ∈ (⟨#[#[.string "a"]], #[]⟩ : Heap).containers := by
      rintro c ⟨⟩
      exact Heap.array_mem_containers (by decide)
    obtain ⟨h', hcall, hread⟩ :=
      (access_eq_getValue (t := ⟨.array 0, countRuns⟩) rfl (hname "+02")).2 _ _ _
      hheap (fun _ _ => by decide) hset
    have hw : w.heap = h' := (congrArg (fun r => r.2.heap) hcall).symm
    exact hread env .empty w w _ (by rw [hw]) (haccess "+02")
  · exact (access_eq_getValue (t := ⟨.array 0, countRuns⟩) rfl (hname "1")).1 env .empty w w
      _ (haccess "1")

end Tracked

end LiveMarkup
