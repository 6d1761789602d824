import LiveMarkup.Document.Patch
import Mathlib.Logic.Basic
import Mathlib.Tactic.SplitIfs

/-!
# What a patch makes of attributes

The patch of an attribute list by position comes down to two passes over names
(`AttrPatch.ofLists_eq`): the values of the new list are stored one after the other, those that face
an old attribute under the name of that one (`Attributes.faced`), and then the old attributes that
nothing faces are removed.  Storing goes to the first attribute of a name, so only lists without
repeated names are patched slot by slot (`AttrPatch.byName_of_nodup`).
-/

namespace LiveMarkup

namespace Attributes

/-- The names in order. -/
def names (as : List Attr) : List String := as.map Attr.name

@[simp] theorem names_nil : names [] = [] := rfl

@[simp] theorem names_cons (a : Attr) (as : List Attr) : names (a :: as) = a.name :: names as := rfl

@[simp] theorem names_append (as bs : List Attr) : names (as ++ bs) = names as ++ names bs :=
  List.map_append

/-- New attributes under the names that they are stored under: those that face an old one take its
name. -/
def faced (old new : List Attr) : List Attr :=
  List.zipWith (fun o n => ⟨o.name, n.value⟩) old new ++ new.drop old.length

/-- The attributes after others have been stored one after the other. -/
def putAll (as : List Attr) : List Attr → List Attr
  | [] => as
  | c :: cs => putAll (put c.name c.value as) cs

/-- The attributes after the names of others have been removed one after the other. -/
def dropAll (as : List Attr) : List Attr → List Attr
  | [] => as
  | g :: gs => dropAll (drop g.name as) gs

/-- How many of the attributes that are stored one after the other find another value or none. -/
def changes (as : List Attr) : List Attr → Nat
  | [] => 0
  | c :: cs => (if get? c.name as = some c.value then 0 else 1) + changes (put c.name c.value as) cs

/-! ### One attribute -/

theorem get?_eq_none_iff {name : String} {as : List Attr} :
    get? name as = none ↔ name ∉ names as := by
  induction as with
  | nil => simp [get?]
  | cons a as ih =>
    unfold get?
    by_cases h : a.name = name
    · simp [h]
    · simp [h, ih, Ne.symm h]

theorem get?_isSome_iff {name : String} {as : List Attr} :
    (get? name as).isSome ↔ name ∈ names as := by
  rw [← not_iff_not, ← get?_eq_none_iff]
  simp

theorem put_of_get?_eq {name value : String} {as : List Attr} (h : get? name as = some value) :
    put name value as = as := by
  induction as with
  | nil => cases h
  | cons a as ih =>
    unfold get? at h
    unfold put
    split_ifs at h ⊢ with ha
    · cases h
      rfl
    · rw [ih h]

theorem names_put (name value : String) (as : List Attr) :
    names (put name value as) = if name ∈ names as then names as else names as ++ [name] := by
  induction as with
  | nil => rfl
  | cons a as ih =>
    unfold put
    by_cases h : a.name = name
    · simp [h]
    · rw [if_neg h, names_cons, ih]
      by_cases hm : name ∈ names as <;> simp [hm, Ne.symm h]

theorem names_put_of_mem {name : String} (value : String) {as : List Attr} (h : name ∈ names as) :
    names (put name value as) = names as := by
  rw [names_put, if_pos h]

theorem length_drop {name : String} {as : List Attr} (h : name ∈ names as) :
    (drop name as).length + 1 = as.length := by
  induction as with
  | nil => simp at h
  | cons a as ih =>
    unfold drop
    split_ifs with ha
    · rfl
    · rw [names_cons, List.mem_cons] at h
      rw [List.length_cons, ih (h.resolve_left (Ne.symm ha)), List.length_cons]

theorem drop_of_not_mem {name : String} {as : List Attr} (h : name ∉ names as) :
    drop name as = as := by
  induction as with
  | nil => rfl
  | cons a as ih =>
    rw [names_cons, List.mem_cons, not_or] at h
    unfold drop
    rw [if_neg (Ne.symm h.1), ih h.2]

/-- Storing under a name passes over attributes of other names. -/
theorem put_append {name : String} (value : String) {as : List Attr} (h : name ∉ names as)
    (bs : List Attr) :
    put name value (as ++ bs) = as ++ put name value bs := by
  induction as with
  | nil => rfl
  | cons a as ih =>
    rw [names_cons, List.mem_cons, not_or] at h
    rw [List.cons_append, put, if_neg (Ne.symm h.1), ih h.2, List.cons_append]

theorem drop_append {name : String} {as : List Attr} (h : name ∉ names as) (bs : List Attr) :
    drop name (as ++ bs) = as ++ drop name bs := by
  induction as with
  | nil => rfl
  | cons a as ih =>
    rw [names_cons, List.mem_cons, not_or] at h
    rw [List.cons_append, drop, if_neg (Ne.symm h.1), ih h.2, List.cons_append]

theorem get?_append {name : String} {as : List Attr} (h : name ∉ names as) (bs : List Attr) :
    get? name (as ++ bs) = get? name bs := by
  induction as with
  | nil => rfl
  | cons a as ih =>
    rw [names_cons, List.mem_cons, not_or] at h
    rw [List.cons_append, get?, if_neg (Ne.symm h.1), ih h.2]

/-- Removing a name takes one occurrence of it away, and no other name. -/
theorem count_names_drop (name other : String) (as : List Attr) :
    (names (drop name as)).count other = (names as).count other - if name = other then
      1 else 0 := by
  induction as with
  | nil => simp [drop]
  | cons a as ih =>
    unfold drop
    by_cases h : a.name = name
    · rw [if_pos h, names_cons, List.count_cons, ← h]
      by_cases ho : a.name = other <;> simp [ho]
    · rw [if_neg h, names_cons, List.count_cons, ih, names_cons, List.count_cons]
      by_cases ho : name = other
      · subst ho
        simp [h]
      · simp [ho]

/-! ### Several attributes -/

theorem putAll_append (as cs cs' : List Attr) :
    putAll as (cs ++ cs') = putAll (putAll as cs) cs' := by
  induction cs generalizing as with
  | nil => rfl
  | cons c cs ih => exact ih _

theorem changes_append (as cs cs' : List Attr) :
    changes as (cs ++ cs') = changes as cs + changes (putAll as cs) cs' := by
  induction cs generalizing as with
  | nil => simp [changes, putAll]
  | cons c cs ih =>
    rw [List.cons_append, changes, changes, ih, putAll, Nat.add_assoc]

theorem names_putAll_of_subset {as cs : List Attr} (h : names cs ⊆ names as) :
    names (putAll as cs) = names as := by
  induction cs generalizing as with
  | nil => rfl
  | cons c cs ih =>
    rw [names_cons, List.cons_subset] at h
    have hc := names_put_of_mem c.value h.1
    rw [putAll, ih (hc.symm ▸ h.2), hc]

theorem names_drop_subset (name : String) (as : List Attr) : names (drop name as) ⊆ names as := by
  induction as with
  | nil => exact List.Subset.refl _
  | cons a as ih =>
    unfold drop
    split_ifs
    · exact List.subset_cons_self _ _
    · exact List.cons_subset_cons _ ih

theorem names_dropAll_subset (as gone : List Attr) : names (dropAll as gone) ⊆ names as := by
  induction gone generalizing as with
  | nil => exact List.Subset.refl _
  | cons g gone ih => exact List.Subset.trans (ih _) (names_drop_subset g.name as)

theorem names_putAll_subset (as cs : List Attr) : names (putAll as cs) ⊆ names as ++ names cs := by
  induction cs generalizing as with
  | nil => exact List.subset_append_left _ _
  | cons c cs ih =>
    intro name hm
    have h := ih _ hm
    rw [names_cons, List.mem_append, List.mem_cons]
    rw [names_put, List.mem_append] at h
    split_ifs at h with hc
    · exact h.imp_right Or.inr
    · rw [List.mem_append, List.mem_singleton, or_assoc] at h
      exact h

@[simp] theorem faced_nil_left (new : List Attr) : faced [] new = new := by
  simp [faced]

@[simp] theorem faced_nil_right (old : List Attr) : faced old [] = [] := by
  simp [faced]

@[simp] theorem faced_cons_cons (o n : Attr) (old new : List Attr) :
    faced (o :: old) (n :: new) = ⟨o.name, n.value⟩ :: faced old new := by
  simp [faced]

theorem names_faced (old new : List Attr) :
    names (faced old new) = (names old).take new.length ++ names (new.drop old.length) := by
  induction old generalizing new with
  | nil => simp
  | cons o old ih =>
    cases new with
    | nil => simp
    | cons n new => simp [ih]

/-- A list that is no longer than the old one is stored under old names only. -/
theorem names_faced_subset {old new : List Attr} (h : new.length ≤ old.length) :
    names (faced old new) ⊆ names old := by
  rw [names_faced, List.drop_eq_nil_of_le h, names_nil, List.append_nil]
  exact List.take_subset _ _

end Attributes

namespace AttrPatch

open Attributes

/-- The patch of attributes that goes by names: each new value is stored under the name of the old
attribute that it faces, or under its own, and the names that nothing faces are removed. -/
def byName (old new : List Attr) : AttrPatch where
  attrs := dropAll (putAll old (faced old new)) (old.drop new.length)
  set := changes old (faced old new)
  removed := old.length - new.length

/-- The patch of attributes that goes slot by slot: each old slot that a new one faces keeps its
name and takes the new value, the others are removed, and further new attributes are stored by
name. -/
def bySlot (old new : List Attr) : AttrPatch where
  attrs := putAll (List.zipWith (fun o n => ⟨o.name, n.value⟩) old new) (new.drop old.length)
  set := (old.zip new).countP (fun on => on.1.value ≠ on.2.value) +
    changes (List.zipWith (fun o n => ⟨o.name, n.value⟩) old new) (new.drop old.length)
  removed := old.length - new.length

/-- A patch brings in no names but new ones. -/
theorem names_byName_subset (old new : List Attr) :
    names (byName old new).attrs ⊆ names old ++ names new := by
  intro name hm
  have h := names_putAll_subset old (faced old new) (names_dropAll_subset _ _ hm)
  rw [names_faced, List.mem_append, List.mem_append] at h
  rw [List.mem_append]
  rcases h with h | h | h
  · exact Or.inl h
  · exact Or.inl (List.mem_of_mem_take h)
  · rw [names, List.map_drop] at h
    exact Or.inr (List.mem_of_mem_drop h)

theorem write_eq (p : AttrPatch) (name value : String) :
    p.write name value =
      ⟨put name value p.attrs, p.set + (if get? name p.attrs = some value then 0 else 1),
        p.removed⟩ := by
  unfold write
  split_ifs with h
  · rw [put_of_get?_eq h, Nat.add_zero]
  · rfl

theorem delete_of_mem {p : AttrPatch} {name : String} (h : name ∈ names p.attrs) :
    p.delete name = ⟨drop name p.attrs, p.set, p.removed + 1⟩ := by
  obtain ⟨v, hv⟩ := Option.isSome_iff_exists.1 (get?_isSome_iff.2 h)
  unfold delete
  rw [hv]

theorem writeAll_eq (new : List Attr) (p : AttrPatch) :
    p.writeAll new = ⟨putAll p.attrs new, p.set + changes p.attrs new, p.removed⟩ := by
  induction new generalizing p with
  | nil => rfl
  | cons n new ih =>
    rw [writeAll, ih, write_eq]
    simp [putAll, changes, Nat.add_assoc]

/-- First everything is stored, then everything that is left over is removed. -/
theorem run_eq (old new : List Attr) (p : AttrPatch) :
    run old new p =
      run (old.drop new.length) []
        ⟨putAll p.attrs (faced old new), p.set + changes p.attrs (faced old new), p.removed⟩ := by
  induction old generalizing new p with
  | nil => simp [run, writeAll_eq, putAll, changes]
  | cons o old ih =>
    cases new with
    | nil => simp [putAll, changes]
    | cons n new =>
      rw [run, ih, write_eq]
      simp [putAll, changes, Nat.add_assoc]

/-- Each attribute that is left over is found when it is removed, if all of them are there to begin
with. -/
theorem run_nil {gone : List Attr} {p : AttrPatch}
    (h : ∀ name, (names gone).count name ≤ (names p.attrs).count name) :
    run gone [] p = ⟨dropAll p.attrs gone, p.set, p.removed + gone.length⟩ := by
  induction gone generalizing p with
  | nil => rfl
  | cons g gone ih =>
    have hg : g.name ∈ names p.attrs := by
      have := h g.name
      rw [names_cons, List.count_cons_self] at this
      exact List.count_pos_iff.1 (by omega)
    rw [run, delete_of_mem hg, ih]
    · simp only [dropAll, List.length_cons]
      congr 1
      omega
    · intro name
      have := h name
      rw [names_cons, List.count_cons] at this
      rw [count_names_drop]
      by_cases hn : g.name = name
      · simp only [hn, beq_self_eq_true, if_true] at this ⊢
        omega
      · simp only [hn, beq_iff_eq, if_false] at this ⊢
        omega

theorem count_names_drop_le (old new : List Attr) (name : String) :
    (names (old.drop new.length)).count name ≤ (names (putAll old (faced old new))).count name := by
  rcases Nat.le_total old.length new.length with h | h
  · simp [List.drop_eq_nil_of_le h]
  · rw [names_putAll_of_subset (names_faced_subset h)]
    exact ((List.drop_sublist _ _).map Attr.name).count_le name

/-- The patch goes by names. -/
theorem ofLists_eq (old new : List Attr) : ofLists old new = byName old new := by
  rw [ofLists, run_eq, run_nil (count_names_drop_le old new)]
  simp [byName]

/-! ### Attributes without repeated names -/

/-- Storing the new values under the old names goes slot by slot behind attributes of other
names. -/
theorem putAll_zipWith (before : List Attr) {old : List Attr} (new : List Attr)
    (hd : (names old).Nodup) (hb : ∀ name ∈ names old, name ∉ names before) :
    putAll (before ++ old) (List.zipWith (fun o n => ⟨o.name, n.value⟩) old new) =
        before ++ List.zipWith (fun o n => ⟨o.name, n.value⟩) old new ++ old.drop new.length ∧
      changes (before ++ old) (List.zipWith (fun o n => ⟨o.name, n.value⟩) old new) =
        (old.zip new).countP fun on => on.1.value ≠ on.2.value := by
  induction old generalizing before new with
  | nil => simp [putAll, changes]
  | cons o old ih =>
    cases new with
    | nil => simp [putAll, changes]
    | cons n new =>
      rw [names_cons, List.nodup_cons] at hd
      have ho : o.name ∉ names before := hb o.name (by simp)
      have hput :
        put o.name n.value (before ++ o :: old) = before ++ [⟨o.name, n.value⟩] ++ old := by
        rw [put_append _ ho, put, if_pos rfl]
        simp
      have hget : get? o.name (before ++ o :: old) = some o.value := by
        rw [get?_append ho, get?, if_pos rfl]
      obtain ⟨hp, hc⟩ := ih (before ++ [⟨o.name, n.value⟩]) new hd.2 (by
        intro name hm
        rw [names_append, List.mem_append, not_or]
        refine ⟨hb name (by simp [hm]), ?_⟩
        rintro hn
        rw [names_cons, names_nil, List.mem_singleton] at hn
        exact hd.1 (hn ▸ hm))
      rw [List.zipWith_cons_cons, putAll, changes, hput, hp, hc, hget]
      refine ⟨by simp, ?_⟩
      rw [List.zip_cons_cons, List.countP_cons]
      by_cases hv : o.value = n.value <;> simp [hv, Nat.add_comm]

theorem dropAll_append {kept gone : List Attr} (h : ∀ name ∈ names gone, name ∉ names kept) :
    dropAll (kept ++ gone) gone = kept := by
  induction gone with
  | nil => simp [dropAll]
  | cons g gone ih =>
    rw [dropAll, drop_append (h g.name (by simp)), drop, if_pos rfl]
    exact ih fun name hm => h name (by simp [hm])

/-- Where no old name is repeated, going by names is going slot by slot. -/
theorem byName_of_nodup {old : List Attr} (new : List Attr) (hd : (names old).Nodup) :
    byName old new = bySlot old new := by
  obtain ⟨hp, hc⟩ := putAll_zipWith [] new hd (by simp)
  simp only [List.nil_append] at hp hc
  unfold byName bySlot faced
  rw [putAll_append, changes_append, hp, hc]
  rcases Nat.le_total old.length new.length with h | h
  · simp [List.drop_eq_nil_of_le h, dropAll]
  · have hnames := names_faced old new
    rw [faced, List.drop_eq_nil_of_le h, List.append_nil, names_nil, List.append_nil] at hnames
    rw [← List.take_append_drop new.length (names old), List.nodup_append] at hd
    have hk : ∀ name ∈ names (old.drop new.length),
        name ∉ names (List.zipWith (fun o n => ⟨o.name, n.value⟩) old new) := by
      intro name hg hk
      rw [names, List.map_drop] at hg
      exact hd.2.2 name (hnames ▸ hk) name hg rfl
    rw [List.drop_eq_nil_of_le h]
    simp [putAll, changes, dropAll_append hk]

end AttrPatch

end LiveMarkup
