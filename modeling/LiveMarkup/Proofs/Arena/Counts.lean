import LiveMarkup.Proofs.Arena.Matching
import Mathlib.Algebra.GroupWithZero.Nat

/-!
# What the counts of a patch say

What reconciling counts can be read off the arenas before and after it, at the nodes that are in
both (`Arena.Accounts`). A text is counted if it is another one now.  Of the nodes right below a
node that stays, an element is counted as replaced if a node with a new identity stands at its
index, and any other node that is gone as removed; what stands beyond the old nodes is counted as
inserted.  Nodes further below a node that is gone, or below a new one, are counted with it.

Both sides are sums over the tree, so the recursion of the patch is followed once for all of them
(`Arena.Counts`): each way in which a node can be faced is a rule for what it adds to either side.
-/

namespace LiveMarkup

namespace Arena

open Live (fan)

variable {L : Type}

/-! ### Comparing two arenas -/

section Compared

variable (a a' : Arena L)

/-- Whether a node is a text in both arenas, but not the same one. -/
def retexted (i : NodeId) : Bool :=
  match a.kind? i, a'.kind? i with
  | some (.text t), some (.text t') => t != t'
  | _, _ => false

/-- Whether an element is gone and an identity that was never given out before stands at its
index. -/
def givesWay (i : NodeId) (j? : Option NodeId) : Bool :=
  ((a.kind? i).bind NodeKind.tag?).isSome && !a'.contains i && j?.any fun j => decide (a.next ≤ j)

/-- Whether a node is gone without having given way. -/
def vanishes (i : NodeId) (j? : Option NodeId) : Bool := !a'.contains i && !a.givesWay a' i j?

/-- The number of nodes of which something is true, given the node at the same index in another
list. -/
def countFacing (P : NodeId → Option NodeId → Bool) (is js : List NodeId) : Nat :=
  is.zipIdx.countP fun ik => P ik.1 js[ik.2]?

/-- The number of identities never given out before that stand beyond the old nodes. -/
def addedIn (is js : List NodeId) : Nat := (js.drop is.length).countP fun j => decide (a.next ≤ j)

/-- The sum over those of some nodes that stay, if each adds a number for the nodes right below it
then and now. -/
def sumKept (f : List NodeId → List NodeId → Nat) (qs : List NodeId) : Nat :=
  ((qs.filter a'.contains).map fun q => f (a.childrenOf q) (a'.childrenOf q)).sum

/-- Whether a patch below a node has counted what can be seen from the two arenas, and has changed
nothing if it has counted nothing. -/
structure Accounts (p : NodeId) (below below' : List NodeId) (s : PatchStats) : Prop where
  textUpdates : s.textUpdates = below.countP fun i => below'.contains i && a.retexted a' i
  replacements : s.replacements = a.sumKept a' (countFacing (a.givesWay a')) (p :: below)
  removals : s.removals = a.sumKept a' (countFacing (a.vanishes a')) (p :: below)
  insertions : s.insertions = a.sumKept a' a.addedIn (p :: below)
  unchanged : s = .none → a' = a

/-- Whether a patch has counted what can be seen from two arenas: `is` and `js` stand in the same
place in them, and `below` are the nodes in `is` with all nodes below these. -/
structure Counts (s : PatchStats) (is js below : List NodeId) : Prop where
  textUpdates : s.textUpdates = below.countP (a.retexted a')
  replacements : s.replacements = countFacing (a.givesWay a') is js +
    a.sumKept a' (countFacing (a.givesWay a')) below
  removals : s.removals = countFacing (a.vanishes a') is js +
    a.sumKept a' (countFacing (a.vanishes a')) below
  insertions : s.insertions = a.addedIn is js + a.sumKept a' a.addedIn below

end Compared

variable {a a' : Arena L} {i j p next : NodeId} {is js below below' : List NodeId}
  {f : List NodeId → List NodeId → Nat}

/-! ### Nodes right below another one -/

theorem givesWay_of_contains (h : a'.contains i = true) (j? : Option NodeId) :
    a.givesWay a' i j? = false := by
  simp [givesWay, h]

theorem countFacing_cons {P : NodeId → Option NodeId → Bool} :
    countFacing P (i :: is) (j :: js) = countFacing P [i] [j] + countFacing P is js := by
  simp only [countFacing, List.zipIdx_cons, List.zipIdx_succ, List.countP_cons, List.countP_map,
    List.zipIdx_nil, List.countP_nil, Nat.zero_add]
  exact Nat.add_comm _ _

theorem addedIn_cons : a.addedIn (i :: is) (j :: js) = a.addedIn [i] [j] + a.addedIn is js := by
  simp [addedIn]

theorem countFacing_eq_zero {P : NodeId → Option NodeId → Bool}
    (h : ∀ i ∈ is, ∀ j?, P i j? = false) :
    countFacing P is js = 0 :=
  List.countP_eq_zero.2 fun ik hik =>
  Bool.eq_false_iff.1 (h ik.1 (List.fst_mem_of_mem_zipIdx hik) _)

/-- Nodes that stay are neither replaced nor removed. -/
theorem countFacing_givesWay (h : ∀ i ∈ is, a'.contains i = true) :
    countFacing (a.givesWay a') is js = 0 :=
  countFacing_eq_zero fun i hi => givesWay_of_contains (h i hi)

theorem countFacing_vanishes (h : ∀ i ∈ is, a'.contains i = true) :
    countFacing (a.vanishes a') is js = 0 :=
  countFacing_eq_zero fun i hi j? => by rw [vanishes, h i hi]; rfl

theorem addedIn_of_length (h : js.length ≤ is.length) : a.addedIn is js = 0 := by
  rw [addedIn, List.drop_eq_nil_of_le h]
  rfl

/-- Nodes that face nothing are removed. -/
theorem countFacing_vanishes_nil (h : ∀ i ∈ is, a'.contains i = false) :
    countFacing (a.vanishes a') is [] = is.length := by
  rw [countFacing, ← List.length_zipIdx (l := is), List.countP_eq_length]
  intro ik hik
  simp [vanishes, givesWay, h ik.1 (List.fst_mem_of_mem_zipIdx hik)]

theorem countFacing_givesWay_nil : countFacing (a.givesWay a') is [] = 0 := by
  simp [countFacing, givesWay]

theorem addedIn_nil (h : ∀ j ∈ js, a.next ≤ j) : a.addedIn [] js = js.length := by
  rw [addedIn, List.length_nil, List.drop_zero, List.countP_eq_length]
  simpa using h

/-! ### Sums -/

theorem sumKept_append : a.sumKept a' f (is ++ js) = a.sumKept a' f is + a.sumKept a' f js := by
  simp [sumKept]

theorem sumKept_cons (h : a'.contains i = true) :
    a.sumKept a' f (i :: is) = f (a.childrenOf i) (a'.childrenOf i) + a.sumKept a' f is := by
  simp [sumKept, h]

theorem sumKept_of_gone (h : ∀ i ∈ is, a'.contains i = false) : a.sumKept a' f is = 0 := by
  have hnil : is.filter a'.contains = [] := by simpa [List.filter_eq_nil_iff] using h
  rw [sumKept, hnil]
  rfl

theorem sumKept_eq_zero (h : ∀ i ∈ is, f (a.childrenOf i) (a'.childrenOf i) = 0) :
    a.sumKept a' f is = 0 := by
  refine List.sum_eq_zero_iff_forall_eq_nat.2 fun n hn => ?_
  obtain ⟨i, hi, rfl⟩ := List.mem_map.1 hn
  exact h i (List.mem_of_mem_filter hi)

theorem retexted_of_gone (h : a'.contains i = false) : a.retexted a' i = false := by
  have hkind : a'.kind? i = none := by
    rw [kind?, Option.map_eq_none_iff, ← Option.not_isSome_iff_eq_none, ← contains_iff_isSome, h]
    exact Bool.false_ne_true
  rw [retexted, hkind]
  cases a.kind? i with
  | none => rfl
  | some k => cases k <;> rfl

theorem countP_retexted_of_gone (h : ∀ i ∈ is, a'.contains i = false) :
    is.countP (a.retexted a') = 0 :=
  List.countP_eq_zero.2 fun i hi => by rw [retexted_of_gone (h i hi)]; exact Bool.false_ne_true

/-! ### What each way of facing adds -/

namespace Counts

variable {s s' : PatchStats}

theorem cons {js' : List NodeId} (h : Counts a a' s [i] [j] below)
    (h' : Counts a a' s' is js' below') :
    Counts a a' (s + s') (i :: is) (j :: js') (below ++ below') where
  textUpdates := by
    rw [List.countP_append, ← h.textUpdates, ← h'.textUpdates]
    rfl
  replacements := by
    rw [countFacing_cons, sumKept_append, Nat.add_add_add_comm, ← h.replacements, ← h'.replacements]
    rfl
  removals := by
    rw [countFacing_cons, sumKept_append, Nat.add_add_add_comm, ← h.removals, ← h'.removals]
    rfl
  insertions := by
    rw [addedIn_cons, sumKept_append, Nat.add_add_add_comm, ← h.insertions, ← h'.insertions]
    rfl

/-- Nodes put beyond the old ones. -/
theorem added (h : ∀ j ∈ js, a.next ≤ j) : Counts a a' (.ofInsertions js.length) [] js [] where
  textUpdates := rfl
  replacements := rfl
  removals := rfl
  insertions := (addedIn_nil h).symm

/-- Nodes that face nothing. -/
theorem removed (h : ∀ i ∈ below, a'.contains i = false) (hsub : is ⊆ below) :
    Counts a a' (.ofRemovals is.length) is [] below where
  textUpdates := (countP_retexted_of_gone h).symm
  replacements := by
    rw [countFacing_givesWay_nil, sumKept_of_gone h]
    rfl
  removals := by
    rw [countFacing_vanishes_nil fun i hi => h i (hsub hi), sumKept_of_gone h]
    rfl
  insertions := by
    rw [addedIn_of_length (Nat.zero_le _), sumKept_of_gone h]
    rfl

/-- An element in whose place there is a new node. -/
theorem replaced {tag : String} {as : List Attr} (hk : a.kind? i = some (.element tag as))
    (hj : a.next ≤ j) (h : ∀ i' ∈ i :: below, a'.contains i' = false) :
    Counts a a' .replacement [i] [j] (i :: below) := by
  have hgone := h i List.mem_cons_self
  have hgives : a.givesWay a' i (some j) = true := by simp [givesWay, hk, NodeKind.tag?, hgone, hj]
  refine ⟨(countP_retexted_of_gone h).symm, ?_, ?_, ?_⟩
  · rw [sumKept_of_gone h]
    simp [countFacing, hgives, PatchStats.replacement]
  · rw [sumKept_of_gone h]
    simp [countFacing, vanishes, hgives, PatchStats.replacement, PatchStats.none]
  · rw [addedIn_of_length (by simp), sumKept_of_gone h]
    rfl

/-- A text. -/
theorem text {t t' : String} (hk : a.kind? i = some (.text t)) (hk' : a'.kind? i = some (.text t'))
    (hnone : a.childrenOf i = [] ∧ a'.childrenOf i = []) :
    Counts a a' (if t = t' then .none else .textUpdate) [i] [i] [i] := by
  have hin := contains_of_kind? hk'
  have hkept : ∀ i' ∈ [i], a'.contains i' = true := by simpa using hin
  have hzero (f : List NodeId → List NodeId → Nat) (hf : f [] [] = 0) : a.sumKept a' f [i] = 0 :=
    sumKept_eq_zero fun i' hi' => by rw [List.mem_singleton.1 hi', hnone.1, hnone.2, hf]
  refine ⟨?_, ?_, ?_, ?_⟩
  · have hretexted : a.retexted a' i = (t != t') := by rw [retexted, hk, hk']
    rw [List.countP_singleton, hretexted]
    by_cases heq : t = t' <;> simp [heq, PatchStats.none, PatchStats.textUpdate]
  · rw [countFacing_givesWay hkept, hzero _ rfl]
    split_ifs <;> rfl
  · rw [countFacing_vanishes hkept, hzero _ rfl]
    split_ifs <;> rfl
  · rw [addedIn_of_length (Nat.le_refl _), hzero _ rfl]
    split_ifs <;> rfl

/-- A node that is left as it is, with all nodes below it. -/
theorem untouched (h : Untouched a a' i) (hwf : a'.WellFormed) (hin : a.contains i = true)
    (hbelow : a.descendants? i = some below) : Counts a a' .none [i] [i] (i :: below) := by
  obtain ⟨below', hbelow', -, hsame⟩ := h
  cases hbelow.symm.trans hbelow'
  have hkind {q : NodeId} (hq : q ∈ i :: below) : a'.kind? q = a.kind? q :=
    congrArg (Option.map Slot.kind) (hsame q hq).1
  have hchildren {q : NodeId} (hq : q ∈ i :: below) : a'.childrenOf q = a.childrenOf q :=
    congrArg (fun s => (s.map Slot.children).getD []) (hsame q hq).1
  have hkept : ∀ i' ∈ [i], a'.contains i' = true := by
    intro i' hi'
    rw [List.mem_singleton.1 hi', contains_iff_isSome, (hsame i List.mem_cons_self).1,
      ← contains_iff_isSome]
    exact hin
  have hlive (q : NodeId) : ∀ c ∈ a'.childrenOf q, a'.contains c = true :=
    fun c hc => (hwf.live_below q c hc).1
  refine ⟨?_, ?_, ?_, ?_⟩
  · refine (List.countP_eq_zero.2 fun q hq => ?_).symm
    rw [retexted, hkind hq]
    rcases a.kind? q with _ | k
    · exact Bool.false_ne_true
    · cases k <;> simp
  · rw [countFacing_givesWay hkept, sumKept_eq_zero]
    · rfl
    · exact fun q hq => countFacing_givesWay (hchildren hq ▸ hlive q)
  · rw [countFacing_vanishes hkept, sumKept_eq_zero]
    · rfl
    · exact fun q hq => countFacing_vanishes (hchildren hq ▸ hlive q)
  · rw [addedIn_of_length (Nat.le_refl _), sumKept_eq_zero]
    · rfl
    · exact fun q hq => addedIn_of_length (Nat.le_of_eq (congrArg List.length (hchildren hq)))

/-- An element that stays: its attributes are patched, and then the nodes right below it. -/
theorem element {tag : String} {as : List Attr} (hk : a.kind? i = some (.element tag as))
    (hin : a'.contains i = true) (h : Counts a a' s (a.childrenOf i) (a'.childrenOf i) below)
    (q : AttrPatch) :
    Counts a a' (q.stats + s) [i] [i] (i :: below) := by
  have hkept : ∀ i' ∈ [i], a'.contains i' = true := by simpa using hin
  refine ⟨?_, ?_, ?_, ?_⟩
  · have hnot : a.retexted a' i = false := by rw [retexted, hk]
    rw [List.countP_cons, hnot, ← h.textUpdates]
    exact Nat.zero_add _
  · rw [countFacing_givesWay hkept, sumKept_cons hin, ← h.replacements]
    rfl
  · rw [countFacing_vanishes hkept, sumKept_cons hin, ← h.removals]
    rfl
  · rw [addedIn_of_length (Nat.le_refl _), sumKept_cons hin, ← h.insertions]
    rfl

end Counts

/-! ### Following the patch -/

mutual

theorem counts_patch (hissued : a.Issued) (hwf : a'.WellFormed) {q next : NodeId}
    (hle : a.next ≤ next) :
    (o : Live L) → (n : Node) → Becomes a a' q [o] [(o.patch next n).1] →
      Counts a a' (o.patch next n).2.2 [o.id] [(o.patch next n).1.id] o.ids
  | .text i ls t, n, h => by
    rw [Live.patch_text] at h ⊢
    exact .text h.old.kind?_eq h.new.kind?_eq ⟨h.old.childrenOf_eq, h.new.childrenOf_eq⟩
  | .element i ls tag as cs, .text t, h => by
    rw [Live.patch] at h ⊢
    exact .untouched (h.old.untouched h.new) hwf (h.old.contains List.mem_cons_self)
      h.old.descendants?_eq
  | .element i ls tag as cs, .element tag' as' cs', h => by
    rw [Live.patch] at h ⊢
    split_ifs at h ⊢ with htag
    · have hbelow := counts_patchAll hissued hwf hle cs cs' (h.children rfl)
      have hnew := h.new.childrenOf_eq
      refine .element h.old.kind?_eq (h.new.contains List.mem_cons_self) ?_ _
      rw [h.old.childrenOf_eq]
      exact hnew ▸ hbelow
    · have hfresh :
        ∀ j ∈ (Live.subtrees [(Live.plant (L := L) next (.element tag' as' cs')).1]).map Live.id,
          a.next ≤ j := by
        intro j hj
        rw [Live.subtrees_singleton] at hj
        exact Nat.le_trans hle (Live.le_of_mem_plant rfl hj)
      refine .replaced h.old.kind?_eq (hfresh _ List.mem_cons_self) fun j hj => h.gone hfresh ?_
      rw [Live.subtrees_singleton]
      exact hj

/-- What the patch of a tree counts. -/
theorem counts_patchAll (hissued : a.Issued) (hwf : a'.WellFormed) {q next : NodeId}
    (hle : a.next ≤ next) :
    (os : List (Live L)) → (ns : List Node) → Becomes a a' q os (Live.patchAll next os ns).1 →
      Counts a a' (Live.patchAll next os ns).2.2 (os.map Live.id)
      ((Live.patchAll next os ns).1.map Live.id)
        ((Live.subtrees os).map Live.id)
  | [], ns, h => by
    rw [Live.patchAll] at h ⊢
    have hplants := h.new.forall₂_plants hissued hle
    have hfresh : ∀ j ∈ (Live.plantAll (L := L) next ns).1.map Live.id, a.next ≤ j := by
      intro j hj
      have hmem := ((Live.sublist_subtrees _).map Live.id).subset hj
      rcases (Live.renewed_plantAll next ns).id_cases hmem with hold | hfresh
      · cases hold
      · exact Nat.le_trans hle hfresh.1
    rw [hplants.length_eq]
    exact .added hfresh
  | o :: os, [], h => by
    rw [Live.patchAll] at h ⊢
    rw [← List.length_map (f := Live.id)]
    exact .removed (fun i hi => h.gone (by simp) hi) ((Live.sublist_subtrees _).map Live.id).subset
  | o :: os, n :: ns, h => by
    have hhead := Live.renewed_patch next o n
    have htail := Live.renewed_patchAll (o.patch next n).2.1 os ns
    have hle' := Nat.le_trans hle hhead.le
    rw [Live.patchAll] at h ⊢
    obtain ⟨ho, hos⟩ :=
      h.cons (fun i hi => (hhead.id_cases hi).imp_right fun hi => Nat.le_trans hle hi.1)
      fun i hi => (htail.id_cases hi).imp_right fun hi => Nat.le_trans hle' hi.1
    rw [Live.subtrees_cons, List.map_append]
    exact (counts_patch hissued hwf hle o n ho).cons (counts_patchAll hissued hwf hle' os ns hos)

end

/-- The counts of a patch are those that can be read off the arenas before and after it.  If it
counts nothing, the arena is the same. -/
theorem accounts_reconcile (h : a.WellFormed) (hissued : a.Issued) (htakes : a.Takes p)
    (new : List Node) :
    ∃ below below', a.descendants? p = some below ∧
      (a.reconcile p new).2.descendants? p = some below' ∧
      Accounts a (a.reconcile p new).2 p below below' (a.reconcile p new).1 := by
  obtain ⟨k, q, ls, ts, rest, hk, hroot, hopen⟩ := h.exists_fan hissued htakes
  obtain ⟨hstats, hopen'⟩ := hopen.reconcile hk hroot new
  have hwf := (h.reconcile hissued p new).1
  have hbecomes := hopen.becomes hopen'
  have hcounts := counts_patchAll hissued hwf (Nat.le_refl _) ts new hbecomes
  have hin : (a.reconcile p new).2.contains p = true :=
    hopen'.mem_fan_iff.2 (Or.inl List.mem_cons_self)
  have hchildren : a.childrenOf p = ts.map Live.id := hopen.childrenOf_eq List.mem_cons_self
  have hchildren' :
    (a.reconcile p new).2.childrenOf p = (Live.patchAll a.next ts new).1.map Live.id :=
    hopen'.childrenOf_eq List.mem_cons_self
  rw [← hchildren, ← hchildren', ← hstats] at hcounts
  refine ⟨_, _, hopen.descendants?_eq, hopen'.descendants?_eq, ?_, ?_, ?_, ?_,
    reconcile_of_stats h hissued⟩
  · rw [hcounts.textUpdates]
    refine List.countP_congr fun i hi => ?_
    -- a text that is another one now is in the arena, and no node has gone elsewhere
    have hmem (htext : a.retexted (a.reconcile p new).2 i = true) :
        i ∈ (Live.subtrees (Live.patchAll a.next ts new).1).map Live.id := by
      refine hbecomes.left i hi ?_
      by_contra hgone
      rw [retexted_of_gone (Bool.eq_false_iff.2 hgone)] at htext
      cases htext
    rw [Bool.and_eq_true, List.contains_iff_mem]
    exact ⟨fun htext => ⟨hmem htext, htext⟩, And.right⟩
  · rw [sumKept_cons hin, hcounts.replacements]
  · rw [sumKept_cons hin, hcounts.removals]
  · rw [sumKept_cons hin, hcounts.insertions]

/-- One text is changed, one is removed and one is inserted, and an element is replaced with the
text below it. -/
theorem accounts_reconcile_page :
    let old := [Node.text "a", .element "b" [] [.text "c"], .element "i" [] [.text "d"], .text "e"]
    let new := [Node.text "f", .element "b" [] [.text "c", .text "g"], .element "u" [] []]
    let a := ofNodes old
    let a' := (a.reconcile rootId new).2
    (a.reconcile rootId new).1 = ⟨1, 0, 0, 1, 1, 1⟩ ∧
      ∃ below below', a.descendants? rootId = some below ∧ a'.descendants? rootId = some below' ∧
        Accounts a a' rootId below below' (a.reconcile rootId new).1 := by
  intro old new a a'
  obtain ⟨hwf, hissued, htakes, hold⟩ := ofNodes_spec old
  refine ⟨?_, accounts_reconcile hwf hissued htakes new⟩
  rw [(nodesOf?_reconcile hwf hissued htakes hold new).1]
  rfl

end Arena

end LiveMarkup
