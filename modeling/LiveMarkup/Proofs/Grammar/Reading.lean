import LiveMarkup.Grammar.Rule

/-!
# What rules read

A run of a class of characters ends where a text `Stops` it.  The lemmas say what the rules for
characters, runs, spaces and fixed text read off a text that starts in the right way.
-/

namespace LiveMarkup

section Decide

variable {p : Char → Prop} [DecidablePred p]

-- A library may decide `∀ c : Char, p c` by trying every character there is; of a text only its own
-- are tried.
instance (priority := high) decidableForallMemList (s : List Char) : Decidable (∀ c ∈ s, p c) :=
  List.decidableBAll p s

instance (priority := high) decidableForallMemOption (o : Option Char) : Decidable (∀ c ∈ o, p c) :=
  Option.decidableForallMem o

end Decide

/-- Whether a run of characters ends where a text begins. -/
def Stops (p : Char → Bool) (s : List Char) : Prop := ∀ c ∈ s.head?, p c = false

namespace Stops

variable {p q : Char → Bool} {s r : List Char}

theorem nil : Stops p [] := fun _ h => by cases h

theorem cons {c : Char} (h : p c = false) (s : List Char) : Stops p (c :: s) := by
  intro d hd
  cases hd
  exact h

theorem mono (h : Stops q s) (hpq : ∀ c, p c = true → q c = true) : Stops p s := by
  intro c hc
  rw [Bool.eq_false_iff]
  intro hp
  exact absurd (hpq c hp) (by simp [h c hc])

theorem takeWhile_append (hr : Stops p r) (hs : ∀ c ∈ s, p c = true) :
    (s ++ r).takeWhile p = s := by
  rw [List.takeWhile_append_of_pos hs]
  cases r with
  | nil => simp
  | cons c r => rw [List.takeWhile_cons_of_neg (by simp [hr c rfl]), List.append_nil]

theorem dropWhile_append (hr : Stops p r) (hs : ∀ c ∈ s, p c = true) :
    (s ++ r).dropWhile p = r := by
  rw [List.dropWhile_append_of_pos hs]
  cases r with
  | nil => rfl
  | cons c r => rw [List.dropWhile_cons_of_neg (by simp [hr c rfl])]

end Stops

/-- A run of a class that a wider class goes on with is a run of the wider class. -/
theorem takeWhile_append_takeWhile_dropWhile {p q : Char → Bool} (h : ∀ c, p c = true → q c = true)
    (s : List Char) : s.takeWhile p ++ (s.dropWhile p).takeWhile q = s.takeWhile q := by
  induction s with
  | nil => rfl
  | cons c s ih =>
    by_cases hc : p c = true
    · rw [List.takeWhile_cons_of_pos hc, List.dropWhile_cons_of_pos hc,
        List.takeWhile_cons_of_pos (h c hc), List.cons_append, ih]
    · rw [List.takeWhile_cons_of_neg hc, List.dropWhile_cons_of_neg hc, List.nil_append]

theorem dropWhile_dropWhile {p q : Char → Bool} (h : ∀ c, p c = true → q c = true) (s : List Char) :
    (s.dropWhile p).dropWhile q = s.dropWhile q := by
  induction s with
  | nil => rfl
  | cons c s ih =>
    by_cases hc : p c = true
    · rw [List.dropWhile_cons_of_pos hc, List.dropWhile_cons_of_pos (h c hc), ih]
    · rw [List.dropWhile_cons_of_neg hc]

namespace Rule

variable {α β : Type} {p : Char → Bool} {c : Char} {s r : List Char}

theorem read_bind_of_ok {x : Rule α} {f : α → Rule β} {a : α} (h : x.read s = .ok a r) :
    (x >>= f).read s = (f a).read r := by
  show (Rule.bind x f).read s = _
  simp only [Rule.bind, h]

theorem read_bind_of_error {x : Rule α} {f : α → Rule β} (h : x.read s = .error r) :
    (x >>= f).read s = .error r := by
  show (Rule.bind x f).read s = _
  simp only [Rule.bind, h]

theorem read_optional_of_ok {x : Rule α} {a : α} (h : x.read s = .ok a r) :
    (Rule.optional x).read s = .ok (some a) r := by
  simp only [Rule.optional, h]

theorem readMany_of_ok {x : Rule α} (hx : x.Advances) {a : α} (h : x.read s = .ok a r) :
    readMany x hx s = (readMany x hx r).map (a :: ·) := by
  rw [readMany]
  split
  · rename_i h'
    rw [h] at h'
    cases h'
    rfl
  · rename_i h'
    rw [h] at h'
    cases h'
  · rename_i h'
    rw [h] at h'
    cases h'

theorem readMany_of_error {x : Rule α} (hx : x.Advances) (h : x.read s = .error r) :
    readMany x hx s = .ok [] s := by
  rw [readMany]
  split
  · rename_i h'
    rw [h] at h'
    cases h'
  · rfl
  · rename_i h'
    rw [h] at h'
    cases h'

theorem read_one (h : p c = true) (s : List Char) : (one p).read (c :: s) = .ok c s := by
  simp only [one, h, if_true]

theorem read_one_of_stops (h : Stops p s) : (one p).read s = .error s := by
  cases s with
  | nil => rfl
  | cons c s => simp only [one, h c rfl, Bool.false_eq_true, if_false]

theorem read_one_eq_ok_iff : (one p).read s = .ok c r ↔ p c = true ∧ s = c :: r := by
  refine ⟨fun h => ?_, fun ⟨hc, hs⟩ => hs ▸ read_one hc r⟩
  simp only [one] at h
  split at h
  · split at h <;> cases h
    exact ⟨‹_›, rfl⟩
  · cases h

theorem read_run (hr : Stops p r) (hs : ∀ c ∈ s, p c = true) : (run p).read (s ++ r) = .ok s r := by
  show Reply.ok _ _ = _
  rw [hr.takeWhile_append hs, hr.dropWhile_append hs]

theorem read_run1 (hr : Stops p r) (hc : p c = true) (hs : ∀ d ∈ s, p d = true) :
    (run1 p).read (c :: (s ++ r)) = .ok (c :: s) r :=
  (read_bind_of_ok (read_one hc _)).trans (read_bind_of_ok (read_run hr hs))

/-- What a run of at least one character takes is all there is of the class. -/
theorem read_run1_eq_ok_iff {cs : List Char} :
    (run1 p).read s = .ok cs r ↔ cs ≠ [] ∧ (∀ c ∈ cs, p c = true) ∧ Stops p r ∧ s = cs ++ r := by
  constructor
  · intro h
    obtain ⟨c, t, hc, h⟩ := read_bind_eq_ok_iff.1 h
    obtain ⟨ds, u, hds, h⟩ := read_bind_eq_ok_iff.1 h
    cases hds
    cases h
    obtain ⟨hpc, rfl⟩ := read_one_eq_ok_iff.1 hc
    refine ⟨List.cons_ne_nil _ _,
      List.forall_mem_cons.2 ⟨hpc, List.all_eq_true.1 List.all_takeWhile⟩, ?_, ?_⟩
    · intro d hd
      have hnot := List.head?_dropWhile_not p t
      rw [Option.mem_def.1 hd] at hnot
      exact hnot
    · rw [List.cons_append, List.takeWhile_append_dropWhile]
  · rintro ⟨hne, hcs, hr, rfl⟩
    obtain ⟨c, cs, rfl⟩ := List.exists_cons_of_ne_nil hne
    rw [List.forall_mem_cons] at hcs
    exact read_run1 hr hcs.1 hcs.2

theorem read_spaces (hr : Stops isSpace r) (hs : ∀ c ∈ s, isSpace c = true) :
    spaces.read (s ++ r) = .ok () r := by
  show Reply.ok _ _ = _
  rw [skipSpaces, hr.dropWhile_append hs]

theorem read_spaces1 (hr : Stops isSpace r) (hne : s ≠ []) (hs : ∀ c ∈ s, isSpace c = true) :
    spaces1.read (s ++ r) = .ok () r := by
  cases s with
  | nil => exact absurd rfl hne
  | cons c s =>
    rw [List.forall_mem_cons] at hs
    exact (read_bind_of_ok (read_one hs.1 _)).trans (read_spaces hr hs.2)

theorem read_token {w : String} (h : s = w.toList ++ r) : (token w).read s = .ok () r := by
  simp only [token, after?_eq_some_iff.2 h]

theorem read_token_eq_ok_iff {w : String} : (token w).read s = .ok () r ↔ s = w.toList ++ r := by
  refine ⟨fun h => ?_, read_token⟩
  simp only [token] at h
  split at h <;> cases h
  exact after?_eq_some_iff.1 ‹_›

theorem read_token_of_none {w : String} (h : after? w.toList s = none) :
    (token w).read s = .error s := by
  simp only [token, h]

end Rule

end LiveMarkup
