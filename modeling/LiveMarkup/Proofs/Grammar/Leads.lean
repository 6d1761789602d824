import LiveMarkup.Proofs.Expr.Name

/-!
# From rule to rule

`Leads P p Q q` says that on every text with the property `P` the rule `p` comes to what `q` makes
of a text with the property `Q`.  A rule that reads `a` leads to `pure a`, and a sequence of rules
is followed from one to the next (`Leads.bind`, `Leads.trans`).  `Refuses P p` says that `p` reports
an error on every text with the property `P`, so that alternatives and repetitions go on without it.

`gather` is the loop of operators with one precedence: it takes a rule time after time and puts what
it reads to what there is already.
-/

namespace LiveMarkup

namespace Rule

variable {α β γ : Type} {P P' Q Q' R : List Char → Prop} {p q : Rule α} {f : α → Rule β} {a : α}

/-- Whether one rule on texts of one kind comes to what another rule makes of texts of another
kind. -/
def Leads (P : List Char → Prop) (p : Rule α) (Q : List Char → Prop) (q : Rule α) : Prop :=
  ∀ s, P s → ∃ r, Q r ∧ p.read s = q.read r

/-- Whether a rule reports an error on all texts of a kind. -/
def Refuses (P : List Char → Prop) (p : Rule α) : Prop := ∀ s, P s → ∃ r, p.read s = .error r

namespace Leads

theorem refl (P : List Char → Prop) (p : Rule α) : Leads P p P p := fun s hs => ⟨s, hs, rfl⟩

theorem trans {t : Rule α} (h : Leads P p Q q) (h' : Leads Q q R t) : Leads P p R t := by
  intro s hs
  obtain ⟨r, hr, hrs⟩ := h s hs
  obtain ⟨r', hr', hrs'⟩ := h' r hr
  exact ⟨r', hr', hrs.trans hrs'⟩

theorem mono (h : Leads P p Q q) (hP : ∀ s, P' s → P s) (hQ : ∀ s, Q s → Q' s) :
    Leads P' p Q' q := by
  intro s hs
  obtain ⟨r, hr, hrs⟩ := h s (hP s hs)
  exact ⟨r, hQ r hr, hrs⟩

theorem mono_left (h : Leads P p Q q) (hP : ∀ s, P' s → P s) : Leads P' p Q q :=
  h.mono hP fun _ => id

theorem mono_right (h : Leads P p Q q) (hQ : ∀ s, Q s → Q' s) : Leads P p Q' q :=
  h.mono (fun _ => id) hQ

/-- A rule that reads a value is followed by what is made of the value. -/
theorem bind {t : Rule β} (h : Leads P p Q (pure a)) (h' : Leads Q (f a) R t) :
    Leads P (p >>= f) R t := by
  intro s hs
  obtain ⟨r, hr, hrs⟩ := h s hs
  obtain ⟨r', hr', hrs'⟩ := h' r hr
  exact ⟨r', hr', (read_bind_of_ok hrs).trans hrs'⟩

theorem map {b : β} (h : Leads P p Q (pure a)) (hb : f a = pure b) : Leads P (p >>= f) Q (pure b) :=
  h.bind (hb ▸ refl Q (pure b))

theorem orElse (h : Leads P p Q (pure a)) : Leads P (orElse p q) Q (pure a) := by
  intro s hs
  obtain ⟨r, hr, hrs⟩ := h s hs
  exact ⟨r, hr, read_orElse_of_ok hrs⟩

theorem optional (h : Leads P p Q (pure a)) : Leads P (optional p) Q (pure (some a)) := by
  intro s hs
  obtain ⟨r, hr, hrs⟩ := h s hs
  exact ⟨r, hr, read_optional_of_ok hrs⟩

theorem many_cons {as : List α} {hp : p.Advances} (h : Leads P p Q (pure a))
    (h' : Leads Q (many p hp) R (pure as)) :
    Leads P (many p hp) R (pure (a :: as)) := by
  intro s hs
  obtain ⟨r, hr, hrs⟩ := h s hs
  obtain ⟨r', hr', hrs'⟩ := h' r hr
  refine ⟨r', hr', (readMany_of_ok hp hrs).trans ?_⟩
  have hmany : readMany p hp r = .ok as r' := hrs'
  rw [hmany]
  rfl

end Leads

namespace Refuses

theorem mono (h : Refuses P p) (hP : ∀ s, P' s → P s) : Refuses P' p := fun s hs => h s (hP s hs)

theorem bind (h : Refuses P p) : Refuses P (p >>= f) := by
  intro s hs
  obtain ⟨r, hr⟩ := h s hs
  exact ⟨r, read_bind_of_error hr⟩

theorem orElse_leads (h : Refuses P p) (h' : Leads P q Q (pure a)) :
    Leads P (orElse p q) Q (pure a) := by
  intro s hs
  obtain ⟨r, hr⟩ := h s hs
  obtain ⟨r', hr', hrs'⟩ := h' s hs
  exact ⟨r', hr', (read_orElse_of_error hr).trans hrs'⟩

theorem orElse (h : Refuses P p) (h' : Refuses P q) : Refuses P (orElse p q) := by
  intro s hs
  obtain ⟨r, hr⟩ := h s hs
  obtain ⟨r', hr'⟩ := h' s hs
  exact ⟨r', (read_orElse_of_error hr).trans hr'⟩

theorem optional (h : Refuses P p) : Leads P (optional p) P (pure none) := by
  intro s hs
  obtain ⟨r, hr⟩ := h s hs
  exact ⟨s, hs, read_optional_of_error hr⟩

theorem many {hp : p.Advances} (h : Refuses P p) : Leads P (many p hp) P (pure []) := by
  intro s hs
  obtain ⟨r, hr⟩ := h s hs
  exact ⟨s, hs, readMany_of_error hp hr⟩

end Refuses

/-- A sequence refuses where what is made of its first value does. -/
theorem Leads.refuses_bind (h : Leads P p Q (pure a)) (h' : Refuses Q (f a)) :
    Refuses P (p >>= f) := by
  intro s hs
  obtain ⟨r, hr, hrs⟩ := h s hs
  obtain ⟨r', hr'⟩ := h' r hr
  exact ⟨r', (read_bind_of_ok hrs).trans hr'⟩

/-! ### Items with separators -/

theorem leads_separated_nil {sep : Rule β} {hsep : sep.Advances} (h : Refuses P p) :
    Leads P (separated sep p hsep) P (pure []) :=
  h.optional.bind (Leads.refl _ _)

theorem leads_separated_cons {sep : Rule β} {hsep : sep.Advances} {as : List α}
    (h : Leads P p Q (pure a)) (h' : Leads Q (many (after sep p) hsep.bind) R (pure as)) :
    Leads P (separated sep p hsep) R (pure (a :: as)) :=
  h.optional.bind (h'.map rfl)

/-! ### Loops -/

/-- The rule time after time, with what it reads put to what there is already. -/
def gather (q : Rule β) (hq : q.Advances) (f : α → β → α) (a : α) : Rule α := do
  let bs ← many q hq
  pure (bs.foldl f a)

variable {t : Rule β} {ht : t.Advances} {g : α → β → α} {b : β}

theorem Leads.gather (h : Leads P t Q (pure b)) (g : α → β → α) (a : α) :
    Leads P (gather t ht g a) Q (gather t ht g (g a b)) := by
  intro s hs
  obtain ⟨r, hr, hrs⟩ := h s hs
  refine ⟨r, hr, ?_⟩
  have hmany : (many t ht).read s = (readMany t ht r).map (b :: ·) := readMany_of_ok ht hrs
  show (Rule.bind (many t ht) fun bs => pure (bs.foldl g a)).read s =
    (Rule.bind (many t ht) fun bs => pure (bs.foldl g (g a b))).read r
  have hrest : (many t ht).read r = readMany t ht r := rfl
  simp only [Rule.bind, hmany, hrest]
  cases readMany t ht r <;> rfl

theorem Refuses.gather (h : Refuses P t) (g : α → β → α) (a : α) :
    Leads P (gather t ht g a) P (pure a) :=
  h.many.map rfl

/-! ### Spaces -/

theorem read_spaced_of_ok {s r : List Char} (h : p.read (skipSpaces s) = .ok a r) :
    (spaced p).read s = .ok a (skipSpaces r) :=
  (read_bind_of_ok (x := spaces) (a := ()) rfl).trans ((read_bind_of_ok h).trans rfl)

theorem read_spaced_of_skip_error {s r : List Char} (h : p.read (skipSpaces s) = .error r) :
    (spaced p).read s = .error r :=
  (read_bind_of_ok (x := spaces) (a := ()) rfl).trans (read_bind_of_error h)

/-! ### First characters -/

theorem refuses_one {c : Char → Bool} : Refuses (Stops c) (one c) :=
  fun s hs => ⟨s, read_one_of_stops hs⟩

theorem refuses_token {c : Char → Bool} {w : String} {d : Char} (hw : w.toList.head? = some d)
    (hd : c d = true) :
    Refuses (Stops c) (token w) := by
  intro s hs
  refine ⟨s, read_token_of_none ?_⟩
  obtain ⟨ds, hds⟩ := List.head?_eq_some_iff.1 hw
  rw [hds]
  cases s with
  | nil => rfl
  | cons e s =>
    refine if_neg ?_
    rintro rfl
    exact absurd hd (by simp [hs d rfl])

end Rule

end LiveMarkup
