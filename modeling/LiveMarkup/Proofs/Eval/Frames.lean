import LiveMarkup.Eval.Scope
import Mathlib.Data.List.Basic

/-!
# Frames that are kept

Declaring and assigning change the frames of a scope in few ways: an assignment changes a value or,
for a field, adds a binding to the outermost frame; a declaration touches the innermost frame alone.
`Scope.Kept` says of two scopes that one came from the other without a block being left half open:
as many frames, the same names in each of them, new names only in the outermost one and only names
of fields, and other values only under names that were assigned to.  A name that a frame binds hides
itself from the frames around it, so the list of names that may have changed gets shorter from frame
to frame.
-/

namespace LiveMarkup

theorem Entries.get?_isSome_iff {α : Type} {name : String} {es : Entries α} :
    (get? name es).isSome ↔ name ∈ keys es := by
  induction es with
  | nil => simp [get?, keys]
  | cons e es ih =>
    obtain ⟨k, v⟩ := e
    by_cases h : k = name
    · simp [get?, keys, h]
    · simpa [get?, keys, h, Ne.symm h] using ih

namespace Frame

variable {f g : Frame} {name other : String} {v : Value}

/-- The names that a frame binds, the latest first. -/
def names (f : Frame) : List String := f.map Prod.fst

@[simp] theorem names_nil : names [] = [] := rfl

@[simp] theorem names_cons (b : String × Value) (f : Frame) : names (b :: f) = b.1 :: names f := rfl

theorem get?_eq_entries (name : String) (f : Frame) : get? name f = Entries.get? name f := by
  induction f with
  | nil => rfl
  | cons b f ih => rw [get?, Entries.get?, ih]

theorem get?_isSome_iff : (get? name f).isSome ↔ name ∈ f.names := by
  rw [get?_eq_entries]
  exact Entries.get?_isSome_iff

theorem get?_eq_none_iff : get? name f = none ↔ name ∉ f.names := by
  rw [← get?_isSome_iff, Bool.not_eq_true, Option.isSome_eq_false_iff, Option.isNone_iff_eq_none]

theorem set?_eq_none_iff : set? name v f = none ↔ name ∉ f.names := by
  induction f with
  | nil => simp [set?]
  | cons b f ih =>
    obtain ⟨k, w⟩ := b
    by_cases h : k = name
    · simp [set?, h]
    · simpa [set?, h, Ne.symm h] using ih

theorem names_of_set? (h : set? name v f = some g) : g.names = f.names := by
  induction f generalizing g with
  | nil => cases h
  | cons b f ih =>
    obtain ⟨k, w⟩ := b
    rw [set?] at h
    split at h
    · cases h
      rfl
    · obtain ⟨g', hg', rfl⟩ := Option.map_eq_some_iff.1 h
      rw [names_cons, names_cons, ih hg']

theorem get?_of_set?_ne (h : set? name v f = some g) (hne : other ≠ name) :
    get? other g = get? other f := by
  induction f generalizing g with
  | nil => cases h
  | cons b f ih =>
    obtain ⟨k, w⟩ := b
    rw [set?] at h
    split at h
    · rename_i hk
      cases h
      subst hk
      rw [get?, get?, if_neg hne.symm, if_neg hne.symm]
    · obtain ⟨g', hg', rfl⟩ := Option.map_eq_some_iff.1 h
      rw [get?, get?, ih hg']

theorem get?_of_set? (h : set? name v f = some g) : get? name g = some v := by
  induction f generalizing g with
  | nil => cases h
  | cons b f ih =>
    obtain ⟨k, w⟩ := b
    rw [set?] at h
    split at h
    · rename_i hk
      cases h
      rw [get?, if_pos hk]
    · rename_i hk
      obtain ⟨g', hg', rfl⟩ := Option.map_eq_some_iff.1 h
      rw [get?, if_neg hk, ih hg']

theorem get?_bind : get? name (f.bind name v) = some v := by
  unfold bind
  rcases h : set? name v f with _ | g
  · rw [Option.getD_none, get?, if_pos rfl]
  · exact get?_of_set? h

theorem get?_append (f g : Frame) (name : String) :
    get? name (f ++ g) = (get? name f).or (get? name g) := by
  induction f with
  | nil => rfl
  | cons b f ih =>
    rw [List.cons_append, get?, get?, ih]
    split <;> rfl

theorem mem_names_bind : other ∈ (f.bind name v).names ↔ other = name ∨ other ∈ f.names := by
  unfold bind
  rcases h : set? name v f with _ | g
  · exact List.mem_cons
  · rw [Option.getD_some, names_of_set? h, iff_or_self]
    rintro rfl
    by_contra hn
    rw [set?_eq_none_iff.2 hn] at h
    cases h

end Frame

namespace Scope

variable {fields : Entries Value} {X Y D : List String} {s t u : Scope} {name : String} {v : Value}

/-! ### Frame by frame -/

theorem lookup?_outer (o : Frame) :
    (⟨[], o⟩ : Scope).lookup? fields name = (o.get? name).or (Entries.get? name fields) := by
  unfold lookup? get?
  rw [List.findSome?_nil]
  dsimp only
  cases Frame.get? name o <;> rfl

theorem lookup?_inner (f : Frame) (fs : List Frame) (o : Frame) :
    (⟨f :: fs, o⟩ : Scope).lookup? fields name = (f.get? name).or
    ((⟨fs, o⟩ : Scope).lookup? fields name) := by
  unfold lookup? get?
  rw [List.findSome?_cons]
  dsimp only
  cases Frame.get? name f <;> rfl

theorem assign?_inner (f : Frame) (fs : List Frame) (o : Frame) :
    (⟨f :: fs, o⟩ : Scope).assign? fields name v =
      match Frame.set? name v f with
      | some g => some ⟨g :: fs, o⟩
      | none => ((⟨fs, o⟩ : Scope).assign? fields name v).map fun s => s.enter f := by
  unfold assign?
  rw [setInner?]
  rcases Frame.set? name v f with _ | g
  · rcases setInner? name v fs with _ | gs
    · dsimp only [Option.map_none]
      rcases Frame.set? name v o with _ | p
      · dsimp only
        split <;> rfl
      · rfl
    · rfl
  · rfl

/-- A name can be assigned to if it stands for something. -/
theorem assign?_eq_none_iff : s.assign? fields name v = none ↔ s.lookup? fields name = none := by
  obtain ⟨fs, o⟩ := s
  induction fs with
  | nil =>
    rw [lookup?_outer, Option.or_eq_none_iff, Frame.get?_eq_none_iff,
      ← Frame.set?_eq_none_iff (v := v)]
    unfold assign? setInner?
    rcases Frame.set? name v o with _ | p
    · cases Entries.get? name fields <;> simp
    · simp
  | cons f fs ih =>
    rw [lookup?_inner, Option.or_eq_none_iff, Frame.get?_eq_none_iff,
      ← Frame.set?_eq_none_iff (v := v), ← ih, assign?_inner]
    rcases Frame.set? name v f with _ | g <;> simp

/-! ### Scopes that are kept -/

/-- Whether a scope has the frames of another one, but for new bindings of fields in the outermost
frame and for the values of the names `X`. -/
inductive Kept (fields : Entries Value) : List String → Scope → Scope → Prop
  | outer {X : List String} {o p : Frame} (added : List String) (names : p.names = added ++ o.names)
    (new : ∀ n ∈ added, n ∈ Entries.keys fields) (values : ∀ n, n ∉ X → p.get? n = o.get? n) :
    Kept fields X ⟨[], o⟩ ⟨[], p⟩
  | inner {X : List String} {f g : Frame} {fs gs : List Frame} {o p : Frame}
    (names : g.names = f.names)
    (values : ∀ n, n ∉ X → g.get? n = f.get? n)
    (rest : Kept fields (X.filter (· ∉ f.names)) ⟨fs, o⟩ ⟨gs, p⟩) :
      Kept fields X ⟨f :: fs, o⟩ ⟨g :: gs, p⟩

namespace Kept

theorem refl (X : List String) (s : Scope) : Kept fields X s s := by
  obtain ⟨fs, o⟩ := s
  induction fs generalizing X with
  | nil => exact .outer [] rfl (fun n hn => (List.not_mem_nil hn).elim) fun _ _ => rfl
  | cons f fs ih => exact .inner rfl (fun _ _ => rfl) (ih _)

theorem trans (h : Kept fields X s t) (h' : Kept fields X t u) : Kept fields X s u := by
  induction h generalizing u with
  | outer added names new values =>
    cases h' with
    | outer added' names' new' values' =>
      refine .outer (added' ++ added) ?_ ?_ fun n hn => (values' n hn).trans (values n hn)
      · rw [names', names, List.append_assoc]
      · intro n hn
        exact (List.mem_append.1 hn).elim (new' n) (new n)
  | inner names values rest ih =>
    cases h' with
    | inner names' values' rest' =>
      rw [names] at rest'
      exact .inner (names'.trans names) (fun n hn => (values' n hn).trans (values n hn)) (ih rest')

theorem mono (h : Kept fields X s t) (hXY : X ⊆ Y) : Kept fields Y s t := by
  induction h generalizing Y with
  | outer added names new values =>
    exact .outer added names new fun n hn => values n fun hX => hn (hXY hX)
  | inner names values rest ih =>
    exact .inner names (fun n hn => values n fun hX => hn (hXY hX)) (ih (List.filter_subset _ hXY))

theorem names_inner (h : Kept fields X s t) :
    t.inner.map Frame.names = s.inner.map Frame.names := by
  induction h with
  | outer => rfl
  | inner names values rest ih => exact congrArg₂ List.cons names ih

/-- The innermost frame has other values only under names that may have changed. -/
theorem get?_head {f g : Frame} {gs : List Frame} (h : Kept fields X s t)
    (hs : s.inner.head? = some f) (ht : t.inner = g :: gs) (hn : name ∉ X) :
    g.get? name = f.get? name := by
  cases h with
  | outer => cases ht
  | inner names values rest =>
    cases hs
    cases ht
    exact values name hn

theorem names_outer (h : Kept fields X s t) :
    ∃ added, t.outer.names = added ++ s.outer.names ∧ ∀ n ∈ added, n ∈ Entries.keys fields := by
  induction h with
  | outer added names new values => exact ⟨added, names, new⟩
  | inner names values rest ih => exact ih

/-- The same names stand for something. -/
theorem lookup?_isSome (h : Kept fields X s t) (name : String) :
    (t.lookup? fields name).isSome = (s.lookup? fields name).isSome := by
  induction h with
  | outer added names new values =>
    rw [lookup?_outer, lookup?_outer, Bool.eq_iff_iff, Option.isSome_or, Option.isSome_or,
      Bool.or_eq_true, Bool.or_eq_true, Frame.get?_isSome_iff, Frame.get?_isSome_iff,
      Entries.get?_isSome_iff, names, List.mem_append]
    exact ⟨fun hn => hn.elim (Or.elim · (fun ha => Or.inr (new name ha)) Or.inl) Or.inr,
      Or.imp_left Or.inr⟩
  | inner names values rest ih =>
    rw [lookup?_inner, lookup?_inner, Option.isSome_or, Option.isSome_or, ih, Bool.eq_iff_iff,
      Bool.or_eq_true, Bool.or_eq_true, Frame.get?_isSome_iff, Frame.get?_isSome_iff, names]

/-- A name that was not assigned to stands for what it stood for before. -/
theorem lookup?_eq (h : Kept fields X s t) (hn : name ∉ X) :
    t.lookup? fields name = s.lookup? fields name := by
  induction h with
  | outer added names new values => rw [lookup?_outer, lookup?_outer, values name hn]
  | inner names values rest ih =>
    rw [lookup?_inner, lookup?_inner, values name hn, ih fun hX => hn (List.mem_filter.1 hX).1]

end Kept

/-- An assignment keeps the scope but for the value of its name. -/
theorem assign?_kept (h : s.assign? fields name v = some t) : Kept fields [name] s t := by
  have hvalues {f g : Frame} (hg : Frame.set? name v f = some g) (n : String) (hn : n ∉ [name]) :
      g.get? n = f.get? n :=
    Frame.get?_of_set?_ne hg fun h => hn (List.mem_singleton.2 h)
  obtain ⟨fs, o⟩ := s
  induction fs generalizing t with
  | nil =>
    unfold assign? setInner? at h
    rcases hp : Frame.set? name v o with _ | p <;> rw [hp] at h <;> dsimp only at h
    · split at h
      · rename_i hfield
        cases h
        refine .outer [name] rfl ?_ fun n hn => ?_
        · rw [List.forall_mem_singleton]
          exact Entries.get?_isSome_iff.1 hfield
        · rw [Frame.get?, if_neg fun h => hn (List.mem_singleton.2 h.symm)]
      · cases h
    · cases h
      exact .outer [] (Frame.names_of_set? hp) (fun n hn => (List.not_mem_nil hn).elim) (hvalues hp)
  | cons f fs ih =>
    rw [assign?_inner] at h
    rcases hg : Frame.set? name v f with _ | g <;> rw [hg] at h <;> dsimp only at h
    · obtain ⟨t', ht', rfl⟩ := Option.map_eq_some_iff.1 h
      refine .inner rfl (fun _ _ => rfl) ((ih ht').mono ?_)
      intro n hn
      cases List.mem_singleton.1 hn
      exact List.mem_filter.2 ⟨hn, decide_eq_true (Frame.set?_eq_none_iff.1 hg)⟩
    · cases h
      exact .inner (Frame.names_of_set? hg) (hvalues hg) (.refl _ _)

/-! ### Inside a block -/

/-- Whether a scope is inside a block whose frame binds the names `D`. -/
def Binds (D : List String) (s : Scope) : Prop := ∃ f fs, s.inner = f :: fs ∧ D ⊆ f.names

/-- Whether a scope is inside a block whose frame binds the names `D` and no others. -/
def Opens (D : List String) (s : Scope) : Prop := ∃ f fs, s.inner = f :: fs ∧
    ∀ n, n ∈ f.names ↔ n ∈ D

theorem opens_enter (s : Scope) {f : Frame} (hf : ∀ n, n ∈ f.names ↔ n ∈ D) : Opens D (s.enter f) :=
  ⟨f, s.inner, rfl, hf⟩

theorem Opens.congr {D' : List String} (hs : Opens D s) (hD : ∀ n, n ∈ D ↔ n ∈ D') :
    Opens D' s := by
  obtain ⟨f, fs, hf, hfD⟩ := hs
  exact ⟨f, fs, hf, fun n => (hfD n).trans (hD n)⟩

theorem Opens.binds (hs : Opens D s) : Binds D s := by
  obtain ⟨f, fs, hf, hD⟩ := hs
  exact ⟨f, fs, hf, fun n hn => (hD n).2 hn⟩

theorem Opens.declare (hs : Opens D s) (name : String) (v : Value) :
    Opens (name :: D) (s.declare name v) := by
  obtain ⟨f, fs, hf, hD⟩ := hs
  unfold Scope.declare
  rw [hf]
  refine ⟨f.bind name v, fs, rfl, fun n => ?_⟩
  rw [Frame.mem_names_bind, hD, List.mem_cons]

theorem Kept.opens (h : Kept fields X s t) (hs : Opens D s) : Opens D t := by
  obtain ⟨f, fs, hf, hD⟩ := hs
  cases h with
  | outer => cases hf
  | inner names values rest =>
    cases hf
    exact ⟨_, _, rfl, names.symm ▸ hD⟩

theorem Binds.mono {D' : List String} (hs : Binds D s) (hD : D' ⊆ D) : Binds D' s := by
  obtain ⟨f, fs, hf, hfD⟩ := hs
  exact ⟨f, fs, hf, List.Subset.trans hD hfD⟩

/-- Names that the frame of a block binds are not changed around the block. -/
theorem Kept.leave (h : Kept fields X s t) (hs : Binds D s) :
    Binds D t ∧ Kept fields (X.filter (· ∉ D)) s.leave t.leave := by
  obtain ⟨f, fs, hf, hD⟩ := hs
  cases h with
  | outer => cases hf
  | inner names values rest =>
    cases hf
    refine ⟨⟨_, _, rfl, names.symm ▸ hD⟩, rest.mono fun n hn => ?_⟩
    rw [List.mem_filter, decide_eq_true_iff] at hn ⊢
    exact ⟨hn.1, fun hnD => hn.2 (hD hnD)⟩

/-- A declaration stays inside the block. -/
theorem Binds.declare (hs : Binds D s) (name : String) (v : Value) :
    Binds (name :: D) (s.declare name v) ∧ (s.declare name v).leave = s.leave := by
  obtain ⟨f, fs, hf, hD⟩ := hs
  unfold Scope.declare leave
  rw [hf]
  refine ⟨⟨f.bind name v, fs, rfl, ?_⟩, rfl⟩
  rw [List.cons_subset]
  exact ⟨Frame.mem_names_bind.2 (Or.inl rfl), fun n hn => Frame.mem_names_bind.2 (Or.inr (hD hn))⟩

end Scope

end LiveMarkup
