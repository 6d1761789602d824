import LiveMarkup.Proofs.Template.Header
import Mathlib.Data.List.SplitBy

/-!
# Comparison words and runs of characters

`Keyword.runs` cuts a text into its longest runs of word characters and of other characters.
Putting operators in the place of comparison words is done run by run: a run that is a comparison
word becomes its operator, and every other run stays (`Keyword.replaceFrom_eq`).  So texts that do
not join a word where they meet are rewritten each for itself (`Keyword.replaceFrom_append`), no
comparison word is left (`Keyword.replaceFrom_eq_self_iff`), and rewriting a second time changes
nothing (`wordsToOperators_eq`).
-/

namespace LiveMarkup

namespace Stops

variable {p : Char → Bool} {s t : List Char}

theorem of_append (h : Stops p (s ++ t)) : Stops p s := by
  intro c hc
  refine h c ?_
  rw [List.head?_append, Option.mem_def.1 hc]
  rfl

theorem append (hs : Stops p s) (ht : Stops p t) : Stops p (s ++ t) := by
  cases s with
  | nil => exact ht
  | cons c s => exact .cons (hs c rfl) _

theorem append_of_ne_nil (hs : Stops p s) (hne : s ≠ []) (t : List Char) : Stops p (s ++ t) := by
  obtain ⟨c, cs, rfl⟩ := List.exists_cons_of_ne_nil hne
  exact .cons (hs c rfl) _

theorem of_forall (h : ∀ c ∈ s, p c = false) : Stops p s :=
  fun c hc => h c (List.mem_of_mem_head? hc)

end Stops

namespace Keyword

variable {s t u w r : List Char}

/-- The longest runs of word characters and of other characters of a text, in order. -/
def runs (s : List Char) : List (List Char) := s.splitBy fun c d => isWord c == isWord d

/-- The operator of a comparison word; any other run as it is. -/
def replaceRun (w : List Char) : List Char := (table.lookup w).getD w

/-! ### Words and other runs -/

/-- Comparison words consist of word characters, their operators of other characters. -/
theorem isWord_of_mem_table : ∀ e ∈ table, (∀ c ∈ e.1, isWord c = true) ∧
    ∀ c ∈ e.2, isWord c = false := by
  decide

theorem ne_nil_of_mem_table : ∀ e ∈ table, e.1 ≠ [] := by
  decide

theorem operator_ne_nil_of_mem_table : ∀ e ∈ table, e.2 ≠ [] := by
  decide

theorem mem_table_of_lookup {op : List Char} (h : table.lookup w = some op) : (w, op) ∈ table := by
  obtain ⟨l, l', hl, -⟩ := List.lookup_eq_some_iff.1 h
  rw [hl]
  exact List.mem_append_right l List.mem_cons_self

theorem replaceRun_of_others (h : ∀ c ∈ w, isWord c = false) : replaceRun w = w := by
  unfold replaceRun
  cases hw : table.lookup w with
  | none => rfl
  | some op =>
    have hmem := mem_table_of_lookup hw
    obtain ⟨c, cs, rfl⟩ := List.exists_cons_of_ne_nil (ne_nil_of_mem_table _ hmem)
    have hc := (isWord_of_mem_table _ hmem).1 c List.mem_cons_self
    rw [h c List.mem_cons_self] at hc
    cases hc

theorem append_inj_of_stops (hs : ∀ c ∈ s, isWord c = true) (hw : ∀ c ∈ w, isWord c = true)
    (ht : Stops isWord t) (hr : Stops isWord r) (h : s ++ t = w ++ r) : s = w ∧ t = r := by
  have hsw : s = w := by rw [← ht.takeWhile_append hs, h, hr.takeWhile_append hw]
  subst hsw
  exact ⟨rfl, List.append_cancel_left h⟩

/-- What an entry of the table does at a whole word. -/
theorem match?_append (hw : ∀ c ∈ w, isWord c = true) (hr : Stops isWord r)
    {e : List Char × List Char} (he : e ∈ table) : match? (w ++ r) e = if w == e.1 then
      some (e.2, r) else none := by
  have hword := (isWord_of_mem_table e he).1
  unfold match?
  split
  · rename_i t ht
    rw [after?_eq_some_iff] at ht
    split
    · rename_i hstart
      rw [if_neg]
      rw [beq_iff_eq]
      rintro rfl
      rw [List.append_cancel_left ht] at hr
      cases t with
      | nil => cases hstart
      | cons c t =>
        rw [startsInWord, hr c rfl] at hstart
        cases hstart
    · rename_i hstart
      rw [Bool.not_eq_true] at hstart
      obtain ⟨rfl, rfl⟩ := append_inj_of_stops hw hword hr (stops_of_startsInWord hstart) ht
      rw [if_pos (beq_self_eq_true _)]
  · rename_i hnone
    rw [if_neg]
    rw [beq_iff_eq]
    rintro rfl
    rw [after?_eq_some_iff.2 rfl] at hnone
    cases hnone

/-- A comparison word is found at the head of a text if the whole first word is one. -/
theorem atHead?_append (hw : ∀ c ∈ w, isWord c = true) (hr : Stops isWord r) :
    atHead? (w ++ r) = (table.lookup w).map (·, r) := by
  have hlookup (es : List (List Char × List Char)) (hes : ∀ e ∈ es, e ∈ table) :
      es.findSome? (match? (w ++ r)) = (es.lookup w).map (·, r) := by
    induction es with
    | nil => rfl
    | cons e es ih =>
      rw [List.forall_mem_cons] at hes
      rw [List.findSome?_cons, match?_append hw hr hes.1, List.lookup_cons, ih hes.2]
      cases w == e.1 <;> rfl
  exact hlookup table fun _ he => he

theorem atHead?_eq_none_of_stops (h : Stops isWord s) : atHead? s = none :=
  atHead?_append (w := []) (by simp) h

/-! ### What is done with the first run of a text -/

/-- Inside a word everything stays up to the end of the word. -/
theorem replaceFrom_true_append (hw : ∀ c ∈ w, isWord c = true) (r : List Char) :
    replaceFrom true (w ++ r) = w ++ replaceFrom true r := by
  induction w with
  | nil => rfl
  | cons c w ih =>
    rw [List.forall_mem_cons] at hw
    rw [List.cons_append, replaceFrom, if_pos rfl, hw.1, ih hw.2, List.cons_append]

theorem replaceFrom_cons_of_none {c : Char} (h : atHead? (c :: s) = none) :
    replaceFrom false (c :: s) = c :: replaceFrom (isWord c) s := by
  rw [replaceFrom, if_neg (by decide)]
  split
  · rename_i h'
    rw [h] at h'
    cases h'
  · rfl

theorem replaceFrom_of_atHead {op : List Char} (h : atHead? s = some (op, r)) :
    replaceFrom false s = op ++ replaceFrom true r := by
  cases s with
  | nil => rw [atHead?_eq_none_of_stops .nil] at h; cases h
  | cons c s =>
    rw [replaceFrom, if_neg (by decide)]
    split
    · rename_i h'
      rw [h] at h'
      cases h'
      rfl
    · rename_i h'
      rw [h] at h'
      cases h'

/-- Where no word goes on, it does not matter whether one stood before. -/
theorem replaceFrom_of_stops (h : Stops isWord s) : replaceFrom true s = replaceFrom false s := by
  cases s with
  | nil => rw [replaceFrom, replaceFrom]
  | cons c s => rw [replaceFrom, if_pos rfl, replaceFrom_cons_of_none (atHead?_eq_none_of_stops h)]

theorem replaceFrom_others_append (hu : ∀ c ∈ u, isWord c = false) (r : List Char) :
    replaceFrom false (u ++ r) = u ++ replaceFrom false r := by
  induction u with
  | nil => rfl
  | cons c u ih =>
    rw [List.forall_mem_cons] at hu
    rw [List.cons_append, replaceFrom_cons_of_none (atHead?_eq_none_of_stops (.cons hu.1 _)),
      hu.1, ih hu.2, List.cons_append]

theorem replaceFrom_word_append (hw : ∀ c ∈ w, isWord c = true) (hr : Stops isWord r) :
    replaceFrom false (w ++ r) = replaceRun w ++ replaceFrom false r := by
  have hhead := atHead?_append hw hr
  unfold replaceRun
  cases hlookup : table.lookup w with
  | some op =>
    rw [hlookup] at hhead
    rw [replaceFrom_of_atHead hhead, replaceFrom_of_stops hr]
    rfl
  | none =>
    rw [hlookup] at hhead
    cases w with
    | nil => rfl
    | cons c w =>
      rw [List.forall_mem_cons] at hw
      rw [List.cons_append] at hhead
      rw [List.cons_append, replaceFrom_cons_of_none hhead, hw.1, replaceFrom_true_append hw.2,
        replaceFrom_of_stops hr]
      rfl

/-! ### Run by run -/

/-- Runs in order: of other characters, or of word characters up to the end of the word. -/
inductive Runs : List (List Char) → Prop
  | nil : Runs []
  | others {u : List Char} {us : List (List Char)} (hu : ∀ c ∈ u, isWord c = false)
    (hs : Runs us) : Runs (u :: us)
  | word {w : List Char} {us : List (List Char)} (hw : ∀ c ∈ w, isWord c = true) (hne : w ≠ [])
    (hs : Runs us)
    (hstop : ∀ u ∈ us.head?, u ≠ [] ∧ ∀ c ∈ u, isWord c = false) : Runs (w :: us)

theorem flatten_runs (s : List Char) : (runs s).flatten = s := List.flatten_splitBy _ s

theorem uniform_of_isChain {c : Char} (h : (c :: s).IsChain fun c d => isWord c == isWord d) :
    ∀ d ∈ c :: s, isWord d = isWord c := by
  induction s generalizing c with
  | nil => simp
  | cons d s ih =>
    rw [List.isChain_cons_cons, beq_iff_eq] at h
    have hd := ih h.2
    rw [← h.1] at hd
    exact List.forall_mem_cons.2 ⟨rfl, hd⟩

/-- The runs of a text are runs in order: a word is followed by other characters. -/
theorem runs_isRuns (s : List Char) : Runs (runs s) := by
  obtain ⟨-, hne, huniform, hdiffer⟩ := List.splitBy_eq_iff.1 (Eq.refl (runs s))
  generalize runs s = us at hne huniform hdiffer ⊢
  induction us with
  | nil => exact .nil
  | cons u us ih =>
    rw [List.mem_cons, not_or] at hne
    rw [List.forall_mem_cons] at huniform
    have hs := ih hne.2 huniform.2 hdiffer.tail
    obtain ⟨c, cs, rfl⟩ := List.exists_cons_of_ne_nil (Ne.symm hne.1)
    have hu := uniform_of_isChain huniform.1
    cases hc : isWord c with
    | false =>
      rw [hc] at hu
      exact .others hu hs
    | true =>
      rw [hc] at hu
      refine .word hu (List.cons_ne_nil c cs) hs fun u' hu' => ?_
      have hmem := List.mem_of_mem_head? hu'
      obtain ⟨hlast, hhead, hneq⟩ := (List.isChain_cons.1 hdiffer).1 u' hu'
      obtain ⟨d, ds, rfl⟩ := List.exists_cons_of_ne_nil hhead
      rw [hu _ (List.getLast_mem hlast), List.head_cons, beq_eq_false_iff_ne, ne_eq, eq_comm,
        Bool.not_eq_true] at hneq
      refine ⟨hhead, ?_⟩
      rw [← hneq]
      exact uniform_of_isChain (huniform.2 _ hmem)

namespace Runs

variable {us : List (List Char)}

/-- Behind a word the others start, or what follows all of them. -/
theorem stops (hstop : ∀ u ∈ us.head?, u ≠ [] ∧ ∀ c ∈ u, isWord c = false)
    (hend : us = [] → Stops isWord t) :
    Stops isWord (us.flatten ++ t) := by
  cases us with
  | nil => exact hend rfl
  | cons u us =>
    obtain ⟨hne, hothers⟩ := hstop u rfl
    rw [List.flatten_cons, List.append_assoc]
    exact (Stops.of_forall hothers).append_of_ne_nil hne _

/-- Operators are put in run by run, also in front of a text that does not go on with the last
word. -/
theorem replaceFrom_append (h : Runs us) (hjoin : Stops isWord us.flatten.reverse ∨
    Stops isWord t) :
    replaceFrom false (us.flatten ++ t) = us.flatMap replaceRun ++ replaceFrom false t := by
  induction h with
  | nil => rfl
  | @others u us hu hs ih =>
    rw [List.flatten_cons, List.reverse_append] at hjoin
    rw [List.flatten_cons, List.append_assoc, replaceFrom_others_append hu, List.flatMap_cons,
      replaceRun_of_others hu, List.append_assoc, ih (hjoin.imp_left Stops.of_append)]
  | @word w us hw hne hs hstop ih =>
    rw [List.flatten_cons, List.reverse_append] at hjoin
    have hend : us = [] → Stops isWord t := by
      rintro rfl
      refine hjoin.resolve_left fun hlast => ?_
      have hhead := hlast (w.getLast hne) (by simp [List.getLast?_eq_getLast_of_ne_nil hne])
      rw [hw _ (List.getLast_mem hne)] at hhead
      cases hhead
    rw [List.flatten_cons, List.append_assoc, replaceFrom_word_append hw (stops hstop hend),
      List.flatMap_cons, List.append_assoc, ih (hjoin.imp_left Stops.of_append)]

end Runs

/-- The text with operators in the place of comparison words, run by run. -/
theorem replaceFrom_eq (s : List Char) : replaceFrom false s = (runs s).flatMap replaceRun := by
  have h := (runs_isRuns s).replaceFrom_append (t := []) (.inr .nil)
  rwa [flatten_runs, List.append_nil, replaceFrom, List.append_nil] at h

/-- Texts that join no word where they meet are rewritten each for itself. -/
theorem replaceFrom_append (h : Stops isWord s.reverse ∨ Stops isWord t) :
    replaceFrom false (s ++ t) = replaceFrom false s ++ replaceFrom false t := by
  rw [← flatten_runs s] at h
  have happend := (runs_isRuns s).replaceFrom_append h
  rwa [flatten_runs, ← replaceFrom_eq] at happend

/-! ### What is left -/

theorem replaceRun_of_mem_table : ∀ e ∈ table, replaceRun e.1 = e.2 := by
  decide

theorem replaceRun_cases (w : List Char) : replaceRun w = w ∨ (w, replaceRun w) ∈ table := by
  unfold replaceRun
  cases h : table.lookup w with
  | none => exact .inl rfl
  | some op => exact .inr (mem_table_of_lookup h)

/-- Nothing is done to a text a second time. -/
theorem replaceFrom_replaceFrom (s : List Char) :
    replaceFrom false (replaceFrom false s) = replaceFrom false s := by
  have hruns := runs_isRuns s
  rw [replaceFrom_eq s]
  generalize runs s = us at hruns ⊢
  induction hruns with
  | nil => rw [List.flatMap_nil, replaceFrom]
  | @others u us hu hs ih =>
    rw [List.flatMap_cons, replaceRun_of_others hu, replaceFrom_others_append hu, ih]
  | @word w us hw hne hs hstop ih =>
    rw [List.flatMap_cons]
    rcases replaceRun_cases w with hself | hmem
    · have hstop' : Stops isWord (us.flatMap replaceRun) := by
        cases us with
        | nil => exact .nil
        | cons u us =>
          obtain ⟨hune, hothers⟩ := hstop u rfl
          rw [List.flatMap_cons, replaceRun_of_others hothers]
          exact (Stops.of_forall hothers).append_of_ne_nil hune _
      rw [hself, replaceFrom_word_append hw hstop', hself, ih]
    · rw [replaceFrom_others_append (isWord_of_mem_table _ hmem).2, ih]

theorem countP_of_mem_table {op : List Char} (h : (w, op) ∈ table) : op.countP isWord = 0 := by
  rw [List.countP_eq_zero]
  intro c hc
  rw [(isWord_of_mem_table _ h).2 c hc]
  decide

/-- Rewriting makes no text longer in word characters. -/
theorem countP_replaceFrom_le (s : List Char) :
    (replaceFrom false s).countP isWord ≤ s.countP isWord := by
  have hrun (w : List Char) : (replaceRun w).countP isWord ≤ w.countP isWord := by
    rcases replaceRun_cases w with hself | hmem
    · rw [hself]
    · rw [countP_of_mem_table hmem]
      exact Nat.zero_le _
  rw [replaceFrom_eq, ← congrArg (List.countP isWord) (flatten_runs s)]
  induction runs s with
  | nil => exact Nat.le_refl 0
  | cons u us ih =>
    rw [List.flatMap_cons, List.flatten_cons, List.countP_append, List.countP_append]
    exact Nat.add_le_add (hrun u) ih

/-- A text stays as it is exactly if no comparison word stands whole in it. -/
theorem replaceFrom_eq_self_iff : replaceFrom false s = s ↔ Absent s := by
  refine ⟨?_, fun h => h.from.replaceFrom_eq⟩
  rintro h ⟨w, op⟩ hmem ⟨a, b, rfl, ha, hb⟩
  have hw := (isWord_of_mem_table _ hmem).1
  rw [replaceFrom_append (.inl ha), replaceFrom_word_append hw hb,
    replaceRun_of_mem_table _ hmem] at h
  have hcount := congrArg (List.countP isWord) h
  simp only [List.countP_append, countP_of_mem_table hmem] at hcount
  have hpos : 0 < w.countP isWord := by
    rw [List.countP_eq_length.2 hw]
    exact List.length_pos_iff.2 (ne_nil_of_mem_table _ hmem)
  have hle := countP_replaceFrom_le a
  have hle' := countP_replaceFrom_le b
  omega

instance (s : List Char) : Decidable (Absent s) :=
  decidable_of_iff ((runs s).flatMap replaceRun =
    s) (by rw [← replaceFrom_eq, replaceFrom_eq_self_iff])

/-- A part of a text that joins no word with the rest has no comparison word where the text has
none. -/
theorem Absent.of_append (h : Absent (s ++ (t ++ u))) (hs : Stops isWord s.reverse)
    (hu : Stops isWord u) :
    Absent t := by
  rintro e he ⟨a, b, rfl, ha, hb⟩
  refine h e he ⟨s ++ a, b ++ u, by simp, ?_, hb.append hu⟩
  rw [List.reverse_append]
  exact ha.append hs

/-! ### The words by name -/

/-- The comparison words and their operators. -/
def operators : List (String × String) :=
  [("eq", "=="), ("neq", "!="), ("gt", ">"), ("egt", ">="), ("lt", "<"), ("elt", "<="),
    ("heq", "==="), ("nheq", "!==")]

theorem operators_of_mem_table : ∀ e ∈ table,
    (String.ofList e.1, String.ofList e.2) ∈ operators := by
  decide

theorem replaceRun_of_mem_operators : ∀ e ∈ operators,
    String.ofList (replaceRun e.1.toList) = e.2 := by
  decide

theorem ofList_replaceRun (w : List Char) :
    String.ofList (replaceRun w) = (operators.lookup (String.ofList w)).getD (String.ofList w) := by
  cases hlookup : operators.lookup (String.ofList w) with
  | some op =>
    obtain ⟨l, l', hl, -⟩ := List.lookup_eq_some_iff.1 hlookup
    have hop :=
      replaceRun_of_mem_operators (String.ofList w,
        op) (hl ▸ List.mem_append_right l List.mem_cons_self)
    rwa [String.toList_ofList] at hop
  | none =>
    rcases replaceRun_cases w with hself | hmem
    · rw [hself]
      rfl
    · have hne := List.lookup_eq_none_iff.1 hlookup _ (operators_of_mem_table _ hmem)
      rw [bne_self_eq_false] at hne
      cases hne

theorem ofList_flatMap_replaceRun (us : List (List Char)) : String.ofList (us.flatMap replaceRun) =
    String.join ((us.map String.ofList).map fun run => (operators.lookup run).getD run) := by
  induction us with
  | nil => rfl
  | cons u us ih =>
    rw [List.flatMap_cons, String.ofList_append, ofList_replaceRun, ih, List.map_cons,
      List.map_cons, String.join_cons]

end Keyword

/-- Writing operators for comparison words goes by the longest runs of word characters and of other
characters: a run that is one of the eight comparison words becomes its operator, every other one
stays.  So what was rewritten stays as it is. -/
theorem wordsToOperators_eq (s : String) :
    let operators := [("eq", "=="), ("neq", "!="), ("gt", ">"), ("egt", ">="), ("lt", "<"),
      ("elt", "<="), ("heq", "==="), ("nheq", "!==")]
    let runs := (Keyword.runs s.toList).map String.ofList
    wordsToOperators s = String.join (runs.map fun run => (operators.lookup run).getD run) ∧
      wordsToOperators (wordsToOperators s) = wordsToOperators s := by
  constructor
  · rw [wordsToOperators, Keyword.replaceFrom_eq]
    exact Keyword.ofList_flatMap_replaceRun (Keyword.runs s.toList)
  · rw [wordsToOperators, wordsToOperators, String.toList_ofList, Keyword.replaceFrom_replaceFrom]

theorem wordsToOperators_eq_all_words :
    wordsToOperators "a eq neq gt egt lt elt heq nheq nheqs (lt)eq" =
      "a == != > >= < <= === !== nheqs (<)==" :=
  (wordsToOperators_eq "a eq neq gt egt lt elt heq nheq nheqs (lt)eq").1.trans (by decide)

end LiveMarkup
