import LiveMarkup.Proofs.Expr.RoundTrip

/-!
# Words as expressions

A text of the shape of a name is an expression, the name itself or the literal that the word stands
for (`Expr.parse_identifier`).  With a character right behind it that can go on neither with a word
nor with an expression it is none, and this character is what is in the way
(`Expr.parse_word_cons`).
-/

namespace LiveMarkup

namespace Grammar

open Rule

/-- Whether a text goes on neither with a word nor with an expression. -/
def Cut (r : List Char) : Prop :=
  Stops (fun c => isSpace c || isIdentPart c || opLevel? c != none) r

section Words

variable {expr : Rule Expr} {x : String} {r : List Char} {n : Nat}

theorem Cut.nil : Cut [] := Stops.nil

theorem Cut.mono (h : Cut r) {p : Char → Bool}
    (hp : ∀ c, p c = true → isSpace c = true ∨ isIdentPart c = true ∨ opLevel? c ≠ none) :
    Stops p r := by
  refine Stops.mono h fun c hc => ?_
  simpa [or_assoc] using hp c hc

theorem Cut.skipSpaces_eq (h : Cut r) : skipSpaces r = r := by
  have hspaces := (h.mono (p := isSpace) fun _ => Or.inl).dropWhile_append (s := []) (by simp)
  rwa [List.nil_append] at hspaces

theorem Cut.closed (h : Cut r) (n : Nat) : Closed n (· = r) := by
  rintro m - _ rfl
  rw [h.skipSpaces_eq]
  refine h.mono fun c hc => Or.inr (Or.inr ?_)
  rw [opensOp, beq_iff_eq] at hc
  rw [hc]
  exact Option.some_ne_none m

theorem leads_identifier_cut (hx : IsIdentifier x) (hr : Cut r) :
    Leads (· = x.toList ++ r) identifier (· = r) (pure x) := by
  rintro _ rfl
  obtain ⟨c, cs, hs, hc, hcs⟩ := hx
  refine ⟨r, rfl, ?_⟩
  have hstop : Stops isIdentPart r := hr.mono fun c hc => Or.inr (Or.inl hc)
  rw [hs]
  refine (read_bind_of_ok (read_one hc _)).trans ((read_bind_of_ok (read_run hstop hcs)).trans ?_)
  show Reply.ok (String.ofList (c :: cs)) r = .ok x r
  rw [← hs, String.ofList_toList]

theorem IsIdentifier.exists_cons (hx : IsIdentifier x) (r : List Char) :
    ∃ c cs, x.toList ++ r = c :: cs ∧ isIdentStart c = true := by
  obtain ⟨c, cs, hs, hc, -⟩ := hx
  exact ⟨c, cs ++ r, by rw [hs, List.cons_append], hc⟩

theorem skipSpaces_word (hx : IsIdentifier x) (r : List Char) :
    skipSpaces (x.toList ++ r) = x.toList ++ r := by
  obtain ⟨c, cs, hs, hc⟩ := IsIdentifier.exists_cons hx r
  have hspaces := (nameHead_cons hc cs).space.dropWhile_append (s := []) (by simp)
  rw [hs]
  rwa [List.nil_append] at hspaces

/-- The rule of each level reads a word up to where the text is cut. -/
theorem leads_tier_word (hx : IsIdentifier x) (hr : Cut r) (hn : n ≤ 8) :
    Leads (· = x.toList ++ r) (tier expr n) (· = r) (pure (word x)) := by
  induction hn using Nat.decreasingInduction with
  | self =>
    have hprimary : Leads (· = x.toList ++ r) (primary expr) (· = r) (pure (word x)) := by
      refine leads_primary_word ?_ (leads_identifier_cut hx hr)
      rintro _ rfl
      exact IsIdentifier.exists_cons hx r
    have hspaced : Leads (· = x.toList ++ r) (spaced (primary expr)) (· = r) (pure (word x)) := by
      rintro _ rfl
      obtain ⟨_, rfl, hread⟩ := hprimary _ rfl
      rw [← skipSpaces_word hx] at hread
      refine ⟨_, rfl, (read_spaced_of_ok hread).trans ?_⟩
      rw [hr.skipSpaces_eq]
      rfl
    show Leads _ (postfixed expr) _ _
    rw [postfixed_eq_bind]
    exact hspaced.bind (leads_goOn_of_closed (Nat.le_refl 8) (by decide) (hr.closed 8))
  | of_succ n hn ih =>
    by_cases h7 : n = 7
    · subst h7
      exact leads_unary_of_postfixed ih
    · rw [tier_eq_bind expr (by omega)]
      exact ih.bind (leads_goOn_of_closed (by omega) h7 (hr.closed n))

theorem read_spaced_expression (hx : IsIdentifier x) (hr : Cut r) :
    (spaced (expression (n + 1))).read (x.toList ++ r) = .ok (word x) r := by
  have htier : Leads (· = x.toList ++ r) (tier (expression n) 0) (· = r) (pure (word x)) :=
    leads_tier_word hx hr (Nat.zero_le 8)
  obtain ⟨t, ht, hread⟩ := htier _ rfl
  rw [ht] at hread
  have hexpression : (expression (n + 1)).read (skipSpaces (x.toList ++ r)) = .ok (word x) r := by
    rw [skipSpaces_word hx]
    exact hread
  rw [read_spaced_of_ok hexpression, hr.skipSpaces_eq]

end Words

end Grammar

namespace Expr

open Grammar (Cut word nearLength)

variable {x : String} {c : Char} {r : List Char}

/-- A text of the shape of a name is read as the name or as the literal that the word stands for. -/
theorem parse_identifier (hx : IsIdentifier x) : Expr.parse x = .ok (word x) := by
  have hread := Grammar.read_spaced_expression (n := x.length) hx Cut.nil
  rw [List.append_nil] at hread
  unfold Expr.parse Grammar.readAll
  simp only [Rule.whole, hread]

/-- A name is read as the expression that refers to it. -/
theorem parse_name (hx : IsName x) : Expr.parse x = .ok (.ident x) := by
  rw [parse_identifier hx.parts, Grammar.word_of_isName hx]

/-- What follows a word and cannot go on with it is in the way. -/
theorem parse_word_cons (hx : IsIdentifier x) (hr : Cut (c :: r)) (hc : isBlank c = false) :
    Expr.parse (x ++ String.ofList (c :: r)) =
      .error (.unexpectedToken (String.ofList ((c :: r).take nearLength))
        (x ++ String.ofList (c :: r))) := by
  have hread := Grammar.read_spaced_expression (n := (x ++ String.ofList (c :: r)).length) hx hr
  rw [← String.toList_ofList (l := c :: r), ← String.toList_append, String.toList_ofList] at hread
  unfold Expr.parse Grammar.readAll
  simp only [Rule.whole, hread]
  simp [nearLength, hc]

end Expr

end LiveMarkup
