import LiveMarkup.Proofs.Expr.Lexeme
import Mathlib.Data.Nat.Init

/-!
# Levels of precedence

`Grammar.tier` numbers the rules for expressions by the level of the operators that they read.  A
rule with a loop reads an operand of the next level and then goes on with `Grammar.goOn`, so that
its work on a layout of lexemes can be followed operator by operator.  The operators of different
levels start with different characters (`Grammar.opLevel?`), and hence a rule stops before every
operator that binds more loosely than its own (`Grammar.Ends`, `Grammar.leads_goOn_of_closed`).
-/

namespace LiveMarkup

namespace Grammar

open Rule Lexeme

/-! ### The rules by their levels -/

/-- The operators of one level with their right operands. -/
def more {α : Type} (op : Rule α) (hop : op.Advances) (operand : Rule Expr)
    (combine : Expr → α → Expr → Expr) :
    Expr → Rule Expr :=
  gather (do let o ← spaced op; let e ← operand; pure (o, e)) hop.spaced.bind fun e oe =>
  combine e oe.1 oe.2

/-- The rule for expressions of a level. -/
def tier (expr : Rule Expr) : Nat → Rule Expr
  | 0 => conditional expr
  | 1 => disjunction expr
  | 2 => conjunction expr
  | 3 => equality expr
  | 4 => relational expr
  | 5 => additive expr
  | 6 => multiplicative expr
  | 7 => unary expr
  | _ => postfixed expr

/-- How the rule for a level goes on behind its first operand. -/
def goOn (expr : Rule Expr) : Nat → Expr → Rule Expr
  | 0 => fun test => do
    let chosen ← optional (branches expr)
    match chosen with
    | some (yes, no) => pure (.conditional test yes no)
    | none => pure test
  | 1 =>
    more (token "||") (advances_token (by decide)) (conjunction expr) fun lhs _ rhs =>
    .logical .or lhs rhs
  | 2 =>
    more (token "&&") (advances_token (by decide)) (equality expr) fun lhs _ rhs =>
    .logical .and lhs rhs
  | 3 => more equalityOp advances_equalityOp (relational expr) fun lhs o rhs => .binary o lhs rhs
  | 4 => more relationalOp advances_relationalOp (additive expr) fun lhs o rhs => .binary o lhs rhs
  | 5 =>
    more additiveOp advances_additiveOp (multiplicative expr) fun lhs o rhs => .binary o lhs rhs
  | 6 =>
    more multiplicativeOp advances_multiplicativeOp (unary expr) fun lhs o rhs => .binary o lhs rhs
  | _ => gather (suffix expr) (advances_suffix expr) Suffix.apply

variable {expr : Rule Expr} {e : Expr} {ls rest : List Lexeme} {n p q : Nat}

theorem tier_eq_bind (expr : Rule Expr) (hn : n ≤ 6) :
    tier expr n = tier expr (n + 1) >>= goOn expr n := by
  match n, hn with
  | 0, _ | 1, _ | 2, _ | 3, _ | 4, _ | 5, _ | 6, _ => rfl

theorem postfixed_eq_bind (expr : Rule Expr) :
    postfixed expr = spaced (primary expr) >>= goOn expr 8 := rfl

/-! ### Where a level ends -/

/-- The level of the operators that start with a character. -/
def opLevel? (c : Char) : Option Nat :=
  if c = '?' then some 0
  else if c = '|' then some 1
  else if c = '&' then some 2
  else if c = '=' ∨ c = '!' then some 3
  else if c = '<' ∨ c = '>' then some 4
  else if c = '+' ∨ c = '-' then some 5
  else if c = '*' ∨ c = '/' ∨ c = '%' then some 6
  else if c = '.' ∨ c = '[' ∨ c = '(' then some 8
  else none

theorem opLevel?_le {c : Char} : ∀ m ∈ opLevel? c, m ≤ 8 := by
  intro m hm
  unfold opLevel? at hm
  repeat' split at hm
  all_goals
    cases hm
    try decide

/-- Whether operators of a level start with a character. -/
def opensOp (n : Nat) (c : Char) : Bool := opLevel? c == some n

/-- Whether no operator of a level or of a tighter one follows. -/
def Ends (n : Nat) (ls : List Lexeme) : Prop := ∀ m, n ≤ m → ∀ s, Lays ls s → Stops (opensOp m) s

theorem Ends.mono (h : Ends n ls) (hnm : n ≤ m) : Ends m ls := fun k hk => h k (Nat.le_trans hnm hk)

/-- Nothing binds more tightly than a suffix. -/
theorem ends_nine (ls : List Lexeme) : Ends 9 ls := by
  intro m hm s hs c hc
  rw [opensOp, beq_eq_false_iff_ne]
  intro h
  have := opLevel?_le m h
  omega

theorem ends_nil (n : Nat) : Ends n [] := by
  intro m _ s hs
  cases hs
  exact .nil

theorem ends_sign {w : String} (h : ∀ c ∈ w.toList.head?, ∀ m ∈ opLevel? c, m < n) :
    Ends n (sign w :: ls) := by
  intro m hm s hs
  refine hs.stops fun c hc => ?_
  rw [opensOp, beq_eq_false_iff_ne]
  intro hop
  have := h c hc m hop
  omega

/-- Whether no operator of a level or of a tighter one follows the spaces that texts of a kind start
with. -/
def Closed (n : Nat) (P : List Char → Prop) : Prop := ∀ m, n ≤ m → ∀ s,
    P s → Stops (opensOp m) (skipSpaces s)

theorem Ends.closed (h : Ends n ls) : Closed n (At ls) := fun m hm _ hs => h m hm _ hs

theorem refuses_op {α : Type} {op : Rule α} {P : List Char → Prop}
    (h : Refuses (Stops (opensOp n)) op) (hP : Closed n P) : Refuses P (spaced op) := by
  intro s hs
  obtain ⟨r, hr⟩ := h _ (hP n (Nat.le_refl n) s hs)
  exact ⟨r, read_spaced_of_skip_error hr⟩

section Refuses

variable {α : Type} {cls : Char → Bool} {w : String} {c : Char}

theorem refuses_tokenAs (a : α) (hw : w.toList.head? = some c) (hc : cls c = true) :
    Refuses (Stops cls) (tokenAs w a) :=
  (refuses_token hw hc).bind

theorem refuses_singleAs (a : α) (hw : w.toList.head? = some c) (hc : cls c = true) :
    Refuses (Stops cls) (singleAs w a) :=
  (refuses_token hw hc).bind

end Refuses

theorem refuses_equalityOp : Refuses (Stops (opensOp 3)) equalityOp :=
  .orElse (refuses_tokenAs _ (c := '=') rfl rfl) (.orElse (refuses_tokenAs _ (c := '!') rfl rfl)
    (.orElse (refuses_tokenAs _ (c := '=') rfl rfl) (refuses_tokenAs _ (c := '!') rfl rfl)))

theorem refuses_relationalOp : Refuses (Stops (opensOp 4)) relationalOp :=
  .orElse (refuses_tokenAs _ (c := '<') rfl rfl) (.orElse (refuses_tokenAs _ (c := '>') rfl rfl)
    (.orElse (refuses_tokenAs _ (c := '<') rfl rfl) (refuses_tokenAs _ (c := '>') rfl rfl)))

theorem refuses_additiveOp : Refuses (Stops (opensOp 5)) additiveOp :=
  .orElse (refuses_singleAs _ (c := '+') rfl rfl) (refuses_singleAs _ (c := '-') rfl rfl)

theorem refuses_multiplicativeOp : Refuses (Stops (opensOp 6)) multiplicativeOp :=
  .orElse (refuses_tokenAs _ (c := '*') rfl rfl) (.orElse (refuses_tokenAs _ (c := '/') rfl rfl)
    (refuses_tokenAs _ (c := '%') rfl rfl))

section Closed

variable {P : List Char → Prop}

theorem refuses_suffix (h : Closed 8 P) : Refuses P (suffix expr) :=
  .orElse (refuses_op (refuses_token (d := '.') rfl rfl) h).bind
    (.orElse (refuses_op (refuses_token (d := '[') rfl rfl) h).bind
      (refuses_op (refuses_token (d := '(') rfl rfl) h).bind.bind)

theorem refuses_branches (h : Closed 0 P) : Refuses P (branches expr) :=
  (refuses_op (refuses_token (d := '?') rfl rfl) h).bind

theorem leads_more_of_closed {α : Type} {op : Rule α} {hop : op.Advances} {operand : Rule Expr}
    {combine : Expr → α → Expr → Expr} (hop' : Refuses (Stops (opensOp n)) op) (h : Closed n P) :
    Leads P (more op hop operand combine e) P (pure e) :=
  (refuses_op hop' h).bind.gather _ _

/-- A loop ends where no operator of its level and no tighter one follows. -/
theorem leads_goOn_of_closed (hn : n ≤ 8) (hn' : n ≠ 7) (h : Closed n P) :
    Leads P (goOn expr n e) P (pure e) := by
  match n, hn with
  | 0, _ => exact (refuses_branches h).optional.bind (Leads.refl _ _)
  | 1, _ =>
    unfold goOn
    exact leads_more_of_closed (refuses_token (d := '|') rfl rfl) h
  | 2, _ =>
    unfold goOn
    exact leads_more_of_closed (refuses_token (d := '&') rfl rfl) h
  | 3, _ =>
    unfold goOn
    exact leads_more_of_closed refuses_equalityOp h
  | 4, _ =>
    unfold goOn
    exact leads_more_of_closed refuses_relationalOp h
  | 5, _ =>
    unfold goOn
    exact leads_more_of_closed refuses_additiveOp h
  | 6, _ =>
    unfold goOn
    exact leads_more_of_closed refuses_multiplicativeOp h
  | 7, _ => exact absurd rfl hn'
  | 8, _ => exact (refuses_suffix h).gather _ _

end Closed

section More

variable {α : Type} {op : Rule α} {hop : op.Advances} {operand : Rule Expr}
  {combine : Expr → α → Expr → Expr}

/-- An operator and its right operand are put to what there is already. -/
theorem leads_more {l : Lexeme} {o : α} {rhs : Expr}
    (ho : Leads (Lays (l :: ls)) op (At ls) (pure o))
    (hrhs : Leads (At ls) operand (At rest) (pure rhs)) :
    Leads (At (l :: ls)) (more op hop operand combine e) (At rest)
    (more op hop operand combine (combine e o rhs)) :=
  Leads.gather (b := (o, rhs)) (((leads_spaced ho).mono_right fun _ => Lays.at).bind
    (hrhs.map (f := fun e => pure (o, e)) rfl)) _ _

end More

/-! ### Where no operand starts -/

/-- Whether an operand without signs can start with a character. -/
def opensPrimary (c : Char) : Bool :=
  c.isDigit || (c == '"' || c == '\'') || c == '(' || c == '[' || isIdentStart c

/-- Whether a sign in front of an operand can start with a character. -/
def opensSign (c : Char) : Bool := c == '!' || c == '-' || c == '+'

/-- The texts that do not start with an operand. -/
def NoOperand (s : List Char) : Prop :=
  Stops (fun c => opensPrimary c || opensSign c) (skipSpaces s)

theorem opensSign_of_opensPrimary {c : Char} (h : opensPrimary c = true) : opensSign c = false := by
  rw [Bool.eq_false_iff]
  intro hs
  simp only [opensSign, Bool.or_eq_true, beq_iff_eq] at hs
  rcases hs with (rfl | rfl) | rfl <;> exact absurd h (by decide)

theorem refuses_number : Refuses (Stops Char.isDigit) Grammar.number := refuses_one.bind.bind

theorem refuses_stringLiteral : Refuses (Stops fun c => c == '"' || c == '\'') stringLiteral :=
  refuses_one.bind

theorem refuses_identifier : Refuses (Stops isIdentStart) identifier := refuses_one.bind

theorem refuses_primary (expr : Rule Expr) : Refuses (Stops opensPrimary) (primary expr) := by
  have hdigit : Refuses (Stops opensPrimary) Grammar.number :=
    refuses_number.mono fun s hs => hs.mono fun c hc => by simp [opensPrimary, hc]
  have hquote : Refuses (Stops opensPrimary) stringLiteral :=
    refuses_stringLiteral.mono fun s hs => hs.mono fun c hc => by
      rw [opensPrimary, hc, Bool.or_true]
      rfl
  have hident : Refuses (Stops opensPrimary) identifier :=
    refuses_identifier.mono fun s hs => hs.mono fun c hc => by simp [opensPrimary, hc]
  exact .orElse hdigit.bind (.orElse hquote.bind (.orElse (refuses_token (d := '(') rfl rfl).bind
    (.orElse (refuses_token (d := '[') rfl rfl).bind.bind hident.bind)))

theorem refuses_unaryOp : Refuses (Stops opensSign) unaryOp :=
  .orElse (refuses_tokenAs _ (c := '!') rfl rfl) (.orElse (refuses_singleAs _ (c := '-') rfl rfl)
    (refuses_singleAs _ (c := '+') rfl rfl))

theorem refuses_postfixed (expr : Rule Expr) :
    Refuses (fun s => Stops opensPrimary (skipSpaces s)) (postfixed expr) := by
  intro s hs
  obtain ⟨r, hr⟩ := refuses_primary expr _ hs
  exact ⟨r, read_bind_of_error (read_spaced_of_skip_error hr)⟩

/-- Without a sign in front, an operand is read as one without signs. -/
theorem read_unary_of_error {s r : List Char} (h : (spaced unaryOp).read s = .error r) :
    (unary expr).read s = (postfixed expr).read s := by
  show readUnary expr s = _
  rw [readUnary]
  split
  · rename_i h'
    rw [h] at h'
    cases h'
  · rfl
  · rename_i h'
    rw [h] at h'
    cases h'

theorem refuses_tier (expr : Rule Expr) (hn : n ≤ 7) : Refuses NoOperand (tier expr n) := by
  induction hn using Nat.decreasingInduction with
  | self =>
    intro s hs
    obtain ⟨r, hr⟩ := refuses_unaryOp _ (Stops.mono hs fun c hc => by simp [hc])
    obtain ⟨r', hr'⟩ := refuses_postfixed expr s (Stops.mono hs fun c hc => by simp [hc])
    exact ⟨r', (read_unary_of_error (read_spaced_of_skip_error hr)).trans hr'⟩
  | of_succ n hn ih =>
    rw [tier_eq_bind expr (by omega)]
    exact ih.bind

theorem noOperand_of_sign {w : String}
    (h : ∀ c ∈ w.toList.head?, (opensPrimary c || opensSign c) = false) {s : List Char}
    (hs : At (sign w :: ls) s) : NoOperand s :=
  Lays.stops hs h

/-! ### Signs -/

/-- An operand that is read without signs has none in front. -/
theorem read_unary_of_read_postfixed {s r : List Char} (h : (postfixed expr).read s = .ok e r) :
    (unary expr).read s = .ok e r := by
  have hstart : ¬Stops opensPrimary (skipSpaces s) := by
    intro hs
    obtain ⟨r', hr'⟩ := refuses_postfixed expr s hs
    rw [h] at hr'
    cases hr'
  have hsign : Stops opensSign (skipSpaces s) := by
    intro c hc
    refine opensSign_of_opensPrimary ?_
    rw [← Bool.not_eq_false]
    intro hprimary
    refine hstart fun d hd => ?_
    rw [Option.mem_unique hd hc]
    exact hprimary
  obtain ⟨r', hr'⟩ := refuses_unaryOp _ hsign
  rw [read_unary_of_error (read_spaced_of_skip_error hr'), h]

theorem leads_unary_of_postfixed {P Q : List Char → Prop}
    (h : Leads P (postfixed expr) Q (pure e)) :
    Leads P (unary expr) Q (pure e) := by
  intro s hs
  obtain ⟨r, hr, hread⟩ := h s hs
  exact ⟨r, hr, read_unary_of_read_postfixed hread⟩

theorem leads_unaryOp (op : UnaryOp) :
    Leads (Lays (sign op.sign :: ls)) unaryOp (At ls) (pure op) := by
  cases op with
  | not => exact (leads_tokenAs (w := "!") _).orElse
  | neg =>
    exact leads_skip (w := "-") (by decide) (by decide)
      (leads_singleAs _ (by decide) (by decide)).orElse
  | plus =>
    refine leads_skip (w := "+") (by decide) (by decide) (leads_skip (by decide) (by decide) ?_)
    exact leads_singleAs _ (by decide) (by decide)

theorem leads_unary_sign {op : UnaryOp} (h : Leads (At ls) (unary expr) (At rest) (pure e)) :
    Leads (At (sign op.sign :: ls)) (unary expr) (At rest) (pure (.unary op e)) := by
  intro s hs
  obtain ⟨r, hr, hop⟩ := leads_spaced (leads_unaryOp op) s hs
  obtain ⟨r', hr', hread⟩ := h r hr.at
  refine ⟨r', hr', ?_⟩
  have hop' : (spaced unaryOp).read s = .ok op r := hop
  have hread' : readUnary expr r = .ok e r' := hread
  show readUnary expr s = .ok _ _
  rw [readUnary]
  split
  · rename_i h'
    rw [hop'] at h'
    cases h'
    rw [hread']
  · rename_i h'
    rw [hop'] at h'
    cases h'
  · rename_i h'
    rw [hop'] at h'
    cases h'

end Grammar

end LiveMarkup
