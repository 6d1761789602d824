import LiveMarkup.Text.Blank
import LiveMarkup.Text.Scan

/-!
# Grammar rules

A `Rule` reads something off the head of a text.  Its `Reply` is the thing read with the rest of the
text, or an error with the rest at which something else was expected.  Errors make `orElse`,
`optional`, `many` and `separated` try something else or stop where they were; a `failure` is final
and passes through.  Of several alternatives the last one names the place of the error.

What a rule leaves is always an end of the text it was given, and a rule that `Advances` leaves less
than that.  Only such a rule can be repeated, and so a repetition ends.
-/

namespace LiveMarkup

inductive Reply (α : Type) where
  | ok (value : α) (rest : List Char)
  | error (rest : List Char)
  | failure (rest : List Char)
  deriving Repr

namespace Reply

variable {α β : Type}

/-- The reply with its value changed. -/
def map (f : α → β) : Reply α → Reply β
  | .ok a r => .ok (f a) r
  | .error r => .error r
  | .failure r => .failure r

theorem map_eq_ok_iff {f : α → β} {x : Reply α} {b : β} {r : List Char} :
    x.map f = .ok b r ↔ ∃ a, x = .ok a r ∧ f a = b := by
  cases x <;> grind [map]

end Reply

/-- A rule of a grammar: what it reads off the head of a text. -/
structure Rule (α : Type) where
  read : List Char → Reply α
  rest_suffix : ∀ {s : List Char} {a : α} {r : List Char}, read s = .ok a r → r <:+ s

namespace Rule

variable {α β γ : Type}

theorem length_le (p : Rule α) {s : List Char} {a : α} {r : List Char} (h : p.read s = .ok a r) :
    r.length ≤ s.length :=
  (p.rest_suffix h).length_le

/-- Whether a rule reads at least one character whenever it reads anything. -/
def Advances (p : Rule α) : Prop :=
  ∀ ⦃s : List Char⦄ ⦃a : α⦄ ⦃r : List Char⦄, p.read s = .ok a r → r.length < s.length

/-! ### Sequences and alternatives -/

protected def pure (a : α) : Rule α where
  read s := .ok a s
  rest_suffix h := by
    cases h
    exact List.suffix_rfl

protected def bind (p : Rule α) (f : α → Rule β) : Rule β where
  read s :=
    match p.read s with
    | .ok a r => (f a).read r
    | .error r => .error r
    | .failure r => .failure r
  rest_suffix h := by
    split at h
    · rename_i a r hp
      exact ((f a).rest_suffix h).trans (p.rest_suffix hp)
    · cases h
    · cases h

instance : Monad Rule where
  pure := Rule.pure
  bind := Rule.bind

theorem read_bind_eq_ok_iff {p : Rule α} {f : α → Rule β} {s : List Char} {b : β} {r : List Char} :
    (p >>= f).read s = .ok b r ↔ ∃ a t, p.read s = .ok a t ∧ (f a).read t = .ok b r := by
  change (Rule.bind p f).read s = _ ↔ _
  simp only [Rule.bind]
  split <;> grind

/-- The rule that reads nothing. -/
def nothing : Rule α where
  read s := .error s
  rest_suffix h := by cases h

/-- A rule that is made only when it is used. -/
def delay (p : Unit → Rule α) : Rule α where
  read s := (p ()).read s
  rest_suffix h := (p ()).rest_suffix h

/-- The first rule or, where it reports an error, the second. -/
def orElse (p q : Rule α) : Rule α where
  read s :=
    match p.read s with
    | .error _ => q.read s
    | reply => reply
  rest_suffix h := by
    split at h
    · exact q.rest_suffix h
    · exact p.rest_suffix h

/-- The first of several rules that reports no error; if all do, the last error stands. -/
def firstOf (p : Rule α) : List (Rule α) → Rule α
  | [] => p
  | q :: qs => orElse p (firstOf q qs)

/-- What the rule reads, if it reads anything. -/
def optional (p : Rule α) : Rule (Option α) where
  read s :=
    match p.read s with
    | .ok a r => .ok (some a) r
    | .error _ => .ok none s
    | .failure r => .failure r
  rest_suffix h := by
    split at h <;> cases h
    · rename_i a r hp
      exact p.rest_suffix hp
    · exact List.suffix_rfl

/-- Nothing, where the rule reads nothing. -/
def notAhead (p : Rule α) : Rule Unit where
  read s :=
    match p.read s with
    | .ok _ _ => .error s
    | .error _ => .ok () s
    | .failure r => .failure r
  rest_suffix h := by
    split at h <;> cases h
    exact List.suffix_rfl

/-- What the second rule reads after the first. -/
def after (p : Rule α) (q : Rule β) : Rule β := do
  let _ ← p
  q

/-- What the first rule reads before the second. -/
def before (p : Rule α) (q : Rule β) : Rule α := do
  let a ← p
  let _ ← q
  pure a

/-- Requires that the rule reads the whole text. -/
def whole (p : Rule α) : Rule α where
  read s :=
    match p.read s with
    | .ok a [] => .ok a []
    | .ok _ r => .error r
    | reply => reply
  rest_suffix h := by
    split at h
    · cases h
      exact List.nil_suffix
    · cases h
    · exact p.rest_suffix h

theorem Advances.bind {p : Rule α} {f : α → Rule β} (hp : p.Advances) : (p >>= f).Advances := by
  intro s b r h
  obtain ⟨a, t, ht, hr⟩ := read_bind_eq_ok_iff.1 h
  exact Nat.lt_of_le_of_lt ((f a).length_le hr) (hp ht)

theorem Advances.bind_right {p : Rule α} {f : α → Rule β} (hf : ∀ a, (f a).Advances) :
    (p >>= f).Advances := by
  intro s b r h
  obtain ⟨a, t, ht, hr⟩ := read_bind_eq_ok_iff.1 h
  exact Nat.lt_of_lt_of_le (hf a hr) (p.length_le ht)

theorem Advances.orElse {p q : Rule α} (hp : p.Advances) (hq : q.Advances) :
    (p.orElse q).Advances := by
  intro s a r h
  simp only [Rule.orElse] at h
  split at h
  · exact hq h
  · exact hp h

theorem Advances.firstOf {p : Rule α} {qs : List (Rule α)} (hp : p.Advances)
    (hqs : ∀ q ∈ qs, q.Advances) : (firstOf p qs).Advances := by
  induction qs generalizing p with
  | nil => exact hp
  | cons q qs ih =>
    exact hp.orElse (ih (hqs q List.mem_cons_self) fun q' hq' =>
      hqs q' (List.mem_cons_of_mem q hq'))

/-! ### Repetition -/

/-- What the rule reads time after time, as long as it reads something. -/
def readMany (p : Rule α) (hp : p.Advances) (s : List Char) : Reply (List α) :=
  match _h : p.read s with
  | .ok a r => (readMany p hp r).map (a :: ·)
  | .error _ => .ok [] s
  | .failure r => .failure r
termination_by s.length
decreasing_by exact hp _h

theorem readMany_suffix (p : Rule α) (hp : p.Advances) (s : List Char) {as : List α} {r : List Char}
    (h : readMany p hp s = .ok as r) : r <:+ s := by
  fun_induction readMany p hp s generalizing as with
  | case1 s a t ht ih =>
    obtain ⟨as', has, -⟩ := Reply.map_eq_ok_iff.1 h
    exact (ih has).trans (p.rest_suffix ht)
  | case2 s t ht =>
    cases h
    exact List.suffix_rfl
  | case3 s t ht => cases h

/-- What the rule reads time after time, as long as it reads something. -/
def many (p : Rule α) (hp : p.Advances) : Rule (List α) where
  read := readMany p hp
  rest_suffix := readMany_suffix p hp _

/-- Items with separators between them, possibly none. -/
def separated (sep : Rule β) (item : Rule α) (hsep : sep.Advances) : Rule (List α) := do
  match ← optional item with
  | none => pure []
  | some a =>
    let as ← many (after sep item) hsep.bind
    pure (a :: as)

/-! ### Characters and fixed text -/

/-- A character of a class. -/
def one (p : Char → Bool) : Rule Char where
  read s :=
    match s with
    | c :: r => if p c then .ok c r else .error s
    | [] => .error s
  rest_suffix h := by
    split at h
    · split at h <;> cases h
      exact List.suffix_cons ..
    · cases h

/-- The characters of a class at the head of the text, possibly none. -/
def run (p : Char → Bool) : Rule (List Char) where
  read s := .ok (s.takeWhile p) (s.dropWhile p)
  rest_suffix h := by
    cases h
    exact List.dropWhile_suffix p

/-- At least one character of a class. -/
def run1 (p : Char → Bool) : Rule (List Char) := do
  let c ← one p
  let cs ← run p
  pure (c :: cs)

/-- Any number of spaces. -/
def spaces : Rule Unit where
  read s := .ok () (skipSpaces s)
  rest_suffix h := by
    cases h
    exact List.dropWhile_suffix isSpace

/-- At least one space. -/
def spaces1 : Rule Unit := do
  let _ ← one isSpace
  spaces

/-- What the rule reads, with spaces around it. -/
def spaced (p : Rule α) : Rule α := do
  spaces
  let a ← p
  spaces
  pure a

/-- The fixed text `w`. -/
def token (w : String) : Rule Unit where
  read s :=
    match after? w.toList s with
    | some r => .ok () r
    | none => .error s
  rest_suffix h := by
    split at h <;> cases h
    exact suffix_of_after? ‹_›

/-- The fixed text `w`, for which `a` is read. -/
def tokenAs (w : String) (a : α) : Rule α := do
  token w
  pure a

/-- The sign `w`, not doubled, for which `a` is read. -/
def singleAs (w : String) (a : α) : Rule α := do
  token w
  notAhead (token w)
  pure a

theorem advances_one (p : Char → Bool) : (one p).Advances := by
  intro s a r h
  simp only [one] at h
  split at h
  · split at h <;> cases h
    exact Nat.lt_succ_self _
  · cases h

theorem advances_spaces1 : spaces1.Advances := (advances_one isSpace).bind

theorem Advances.spaced {p : Rule α} (hp : p.Advances) : (spaced p).Advances :=
  .bind_right fun _ => hp.bind

theorem advances_token {w : String} (hw : w ≠ "") : (token w).Advances := by
  intro s a r h
  simp only [token] at h
  split at h <;> cases h
  have hne : w.toList ≠ [] := by simpa using hw
  exact length_lt_of_after? hne ‹_›

theorem advances_tokenAs {w : String} {a : α} (hw : w ≠ "") : (tokenAs w a).Advances :=
  (advances_token hw).bind

theorem advances_singleAs {w : String} {a : α} (hw : w ≠ "") : (singleAs w a).Advances :=
  (advances_token hw).bind

end Rule

end LiveMarkup
