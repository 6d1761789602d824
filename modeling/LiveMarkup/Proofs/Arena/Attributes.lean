import LiveMarkup.Proofs.Arena.Reconcile
import LiveMarkup.Proofs.Document.Markers

/-!
# What a patch leaves of attributes

A patch stores values and removes attributes one after the other, and each step goes to a name,
wherever that one stands by then.  `Attributes.Patched` is what this comes to if no old name is
repeated: the old names that are faced stay in their order, new names past them are added where they
first occur, and under each name stands the last value that came past the old attributes, or else
the one that faces the old attribute.  `patchNode_attributes` says this of the element that is
patched, whatever is below it.
-/

namespace LiveMarkup

namespace Attributes

/-! ### Storing -/

/-- Storing keeps the names that are there, and adds each other name where it comes first. -/
theorem names_putAll (as cs : List Attr) :
    names (putAll as cs) = names as ++ ((names cs).filter (· ∉ names as)).eraseDups := by
  induction cs generalizing as with
  | nil => simp [putAll]
  | cons c cs ih =>
    rw [putAll, ih, names_put, names_cons]
    split_ifs with hc
    · rw [List.filter_cons_of_neg (by simpa using hc)]
    · rw [List.filter_cons_of_pos (by simpa using hc), List.eraseDups_cons, List.filter_filter,
        List.append_assoc, List.singleton_append]
      -- from now on the name that was added counts as one that is there
      congr 3
      refine List.filter_congr fun name _ => ?_
      by_cases hname : name = c.name <;> simp [hname, hc]

theorem nodup_names_putAll {as : List Attr} (h : (names as).Nodup) (cs : List Attr) :
    (names (putAll as cs)).Nodup := by
  induction cs generalizing as with
  | nil => exact h
  | cons c cs ih =>
    refine ih ?_
    rw [names_put]
    split_ifs with hc
    · exact h
    · exact List.concat_eq_append ▸ h.concat hc

theorem names_zipWith (old new : List Attr) :
    names (List.zipWith (fun o n => ⟨o.name, n.value⟩) old new) = (names old).take new.length := by
  induction old generalizing new with
  | nil => simp
  | cons o old ih =>
    cases new with
    | nil => simp
    | cons n new => simp [ih]

/-! ### Patching -/

/-- Whether attributes are what a patch with new ones makes of old ones: the old names that are
faced, followed by the other names among the new ones past the old ones, in the order in which they
first occur, and none of them twice.  The value of a name is that of the last new attribute of this
name past the old ones, if there is one, and otherwise that of the new attribute that faces the old
one. -/
structure Patched (old new as : List Attr) : Prop where
  names_eq : names as = (names old).take new.length ++
    ((names (new.drop old.length)).filter (· ∉ names old)).eraseDups
  nodup : (names as).Nodup
  get?_last : ∀ (j : Nat) (n : Attr), old.length ≤ j → new[j]? = some n →
    n.name ∉ names (new.drop (j + 1)) →
    get? n.name as = some n.value
  get?_faced : ∀ (i : Nat) (o n : Attr), old[i]? = some o → new[i]? = some n →
    o.name ∉ names (new.drop old.length) →
    get? o.name as = some n.value

variable {old : List Attr}

theorem patched_ofLists (h : (names old).Nodup) (new : List Attr) :
    Patched old new (AttrPatch.ofLists old new).attrs := by
  have hfaced : (names (List.zipWith (fun o n => ⟨o.name, n.value⟩) old new)).Nodup := by
    rw [names_zipWith]
    exact h.sublist (List.take_sublist _ _)
  rw [AttrPatch.ofLists_eq, AttrPatch.byName_of_nodup new h]
  refine ⟨?_, nodup_names_putAll hfaced _, fun j n hj hn hlast => ?_, fun i o n ho hn hfree => ?_⟩
  · rw [AttrPatch.bySlot, names_putAll, names_zipWith]
    rcases Nat.le_total old.length new.length with hle | hle
    · rw [List.take_of_length_le (by simpa [names] using hle)]
    · rw [List.drop_of_length_le hle, names_nil, List.filter_nil, List.filter_nil]
  · obtain ⟨hlt, rfl⟩ := List.getElem?_eq_some_iff.1 hn
    have hsplit : new.drop old.length = (new.drop old.length).take (j - old.length) ++ new[j] ::
      new.drop (j + 1) := by
      rw [List.getElem_cons_drop, ← Nat.add_sub_cancel' hj, ← List.drop_drop,
        Nat.add_sub_cancel_left, List.take_append_drop]
    rw [AttrPatch.bySlot, get?_putAll, hsplit, last?_append_cons hlast]
    rfl
  · have hmem :
      (⟨o.name, n.value⟩ : Attr) ∈ List.zipWith (fun o n => ⟨o.name, n.value⟩) old new := by
      refine List.mem_of_getElem? (i := i) ?_
      rw [List.getElem?_zipWith, ho, hn]
    rw [AttrPatch.bySlot, get?_putAll, last?_eq_none_iff.2 hfree, Option.none_or]
    exact get?_eq_of_mem hmem (List.nodup_iff_count_le_one.1 hfaced _)

end Attributes

namespace Arena

open Attributes (Patched names get?)

variable {L : Type} {a : Arena L} {i : NodeId} {tag : String} {old : List Attr}

/-- An element that is patched with one of its own tag keeps the tag and has the patched attributes.
One is removed for each old slot past the new ones, and all else that the patch counts is what it
sets and what it does below the element. -/
theorem patchNode_attributes (h : a.WellFormed) (hissued : a.Issued)
    (hk : a.kind? i = some (.element tag old)) (hnames : (names old).Nodup) (new : List Attr)
    (cs : List Node) :
    ∃ as set, (a.patchNode i (.element tag new cs)).2.kind? i = some (.element tag as) ∧
      Patched old new as ∧
      (a.patchNode i (.element tag new cs)).1 =
        { PatchStats.none with attrsSet := set, attrsRemoved := old.length - new.length } +
          (a.reconcile i cs).1 := by
  obtain ⟨d, hd⟩ := h.exists_represents hissued
  obtain ⟨F, ls, ts, -, hopen, -⟩ := hd.exists_focus_of_element hk
  have hroot := hd.root_not_mem hopen
  obtain ⟨hstats, hattrs⟩ := hopen.patchAttrs_ofLists new
  obtain ⟨hcounts, hbelow⟩ := Holds.reconcile hattrs rfl hroot cs
  have hpatch : a.patchNode i (.element tag new cs) =
      ((a.patchAttrs i .none old new).1 + ((a.patchAttrs i .none old new).2.reconcile i cs).1,
        ((a.patchAttrs i .none old new).2.reconcile i cs).2) := by
    rw [patchNode, hk]
    exact if_pos rfl
  refine ⟨_, (AttrPatch.ofLists old new).set, ?_, Attributes.patched_ofLists hnames new, ?_⟩
  · rw [hpatch]
    exact hbelow.kind?_eq List.mem_cons_self
  · -- what is below the element does not depend on its attributes
    rw [hpatch, hstats, hcounts, (hopen.reconcile rfl hroot cs).1]
    have hremoved : (AttrPatch.ofLists old new).removed = old.length - new.length := by
      rw [AttrPatch.ofLists_eq]; rfl
    rw [AttrPatch.stats, hremoved]

/-- A link with two attributes is patched with five, of which two share a name, or with one. -/
theorem patchNode_attributes_link :
    let old := [⟨"href", "x"⟩, ⟨"id", "y"⟩]
    let a := ofNodes [.element "a" old [.text "z"]]
    let longer := [⟨"id", "b"⟩, ⟨"href", "c"⟩, ⟨"rel", "d"⟩, ⟨"href", "e"⟩, ⟨"rel", "f"⟩]
    let shorter := [⟨"rel", "g"⟩]
    a.WellFormed ∧ a.Issued ∧ a.kind? 1 = some (.element "a" old) ∧ (names old).Nodup ∧
      (∃ as, (a.patchNode 1 (.element "a" longer [])).2.kind? 1 = some (.element "a" as) ∧
        names as = ["href", "id", "rel"] ∧ get? "href" as = some "e" ∧ get? "id" as = some "c" ∧
        get? "rel" as = some "f") ∧
      ∃ as set, (a.patchNode 1 (.element "a" shorter [])).2.kind? 1 = some (.element "a" as) ∧
        names as = ["href"] ∧ get? "href" as = some "g" ∧
        (a.patchNode 1 (.element "a" shorter [])).1 =
          { PatchStats.none with attrsSet := set, attrsRemoved := 1 } + (a.reconcile 1 []).1 := by
  intro old a longer shorter
  obtain ⟨hwf, hissued, -, -⟩ := ofNodes_spec [.element "a" old [.text "z"]]
  have hd :=
    (represents_empty.reconcile (L := String) (p := rootId) [.element "a" old [.text "z"]]).2
  have hk : a.kind? 1 = some (.element "a" old) :=
    Holds.kind?_eq hd (List.mem_cons_of_mem _ List.mem_cons_self)
  have hnames : (names old).Nodup := by decide
  refine ⟨hwf, hissued, hk, hnames, ?_, ?_⟩
  · obtain ⟨as, set, hkind, hp, -⟩ := patchNode_attributes hwf hissued hk hnames longer []
    refine ⟨as, hkind, hp.names_eq.trans (by decide), ?_, ?_, ?_⟩
    · exact hp.get?_last 3 ⟨"href", "e"⟩ (by decide) rfl (by decide)
    · exact hp.get?_faced 1 ⟨"id", "y"⟩ ⟨"href", "c"⟩ rfl rfl (by decide)
    · exact hp.get?_last 4 ⟨"rel", "f"⟩ (by decide) rfl (by decide)
  · obtain ⟨as, set, hkind, hp, hstats⟩ := patchNode_attributes hwf hissued hk hnames shorter []
    exact ⟨as, set, hkind, hp.names_eq.trans (by decide),
      hp.get?_faced 0 ⟨"href", "x"⟩ ⟨"rel", "g"⟩ rfl rfl (by decide), hstats⟩

end Arena

end LiveMarkup
