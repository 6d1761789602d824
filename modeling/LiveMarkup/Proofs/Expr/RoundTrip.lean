import LiveMarkup.Proofs.Expr.Level

/-!
# Reading printed expressions

An expression is read back from each of its texts (`Expr.parse_prints`).  An operand of a level is
read by the rule of that level up to where the level `Ends` (`Grammar.Fits`), and where the rule is
a loop it is read without leaving the loop (`Grammar.Grows`), which is what makes operators
associate to the left.  It is enough to know one of the two at the level of the expression itself
(`Grammar.Own`): tighter rules meet the expression in parentheses, and looser ones find no operator
of theirs.

What stands in brackets or between the signs of `?:` is read by the rule for the next depth of
nesting (`Grammar.ReadsBelow`); it has fewer lexemes than the expression around it.
-/

namespace LiveMarkup

theorem LogicalOp.sign_ne (op : LogicalOp) : op.sign ≠ "" := by
  cases op <;> decide

namespace Grammar

open Rule Lexeme

variable {expr : Rule Expr} {e : Expr} {ls rest : List Lexeme} {n p : Nat}

/-! ### Operators and their right operands -/

theorem refuses_start {α : Type} {x : Rule α} {cls : Char → Bool} {l : Lexeme}
    (h : Refuses (Stops cls) x) (hl : ∀ c, l.Starts c → cls c = false) :
    Refuses (Lays (l :: ls)) x :=
  h.mono fun _ hs => hs.stops hl

/-- The rule for the operators of a level. -/
def levelOp : Nat → Rule BinaryOp
  | 3 => equalityOp
  | 4 => relationalOp
  | 5 => additiveOp
  | _ => multiplicativeOp

theorem advances_levelOp (op : BinaryOp) : (levelOp op.level).Advances := by
  cases op with
  | mul | div | rem => exact advances_multiplicativeOp
  | add | sub => exact advances_additiveOp
  | lt | le | gt | ge => exact advances_relationalOp
  | eq | ne | strictEq | strictNe => exact advances_equalityOp

theorem goOn_binary (expr : Rule Expr) (op : BinaryOp) :
    goOn expr op.level =
      more (levelOp op.level) (advances_levelOp op) (tier expr (op.level + 1)) fun lhs o rhs =>
        .binary o lhs rhs := by
  cases op <;> rfl

theorem goOn_logical (expr : Rule Expr) (op : LogicalOp) :
    goOn expr op.level =
      more (token op.sign) (advances_token op.sign_ne) (tier expr (op.level + 1))
        fun lhs _ rhs => .logical op lhs rhs := by
  cases op <;> rfl

/-- Each operator is read by the rule of its level: no sign before it in the list of alternatives is
the start of it. -/
theorem leads_levelOp (op : BinaryOp) :
    Leads (Lays (sign op.sign :: ls)) (levelOp op.level) (At ls) (pure op) := by
  cases op with
  | mul => exact (leads_tokenAs (w := "*") _).orElse
  | div => exact leads_skip (w := "/") (by decide) (by decide) (leads_tokenAs _).orElse
  | rem =>
    exact leads_skip (w := "%") (by decide) (by decide) (leads_skip (by decide) (by decide)
      (leads_tokenAs _))
  | add => exact (leads_singleAs (w := "+") _ (by decide) (by decide)).orElse
  | sub =>
    exact leads_skip (w := "-") (by decide) (by decide) (leads_singleAs _ (by decide) (by decide))
  | le => exact (leads_tokenAs (w := "<=") _).orElse
  | ge => exact leads_skip (w := ">=") (by decide) (by decide) (leads_tokenAs _).orElse
  | lt =>
    refine leads_skip (w := "<") (by decide) (by decide) (leads_skip (by decide) (by decide) ?_)
    exact (leads_tokenAs _).orElse
  | gt =>
    refine leads_skip (w := ">") (by decide) (by decide) (leads_skip (by decide) (by decide) ?_)
    exact leads_skip (by decide) (by decide) (leads_tokenAs _)
  | strictEq => exact (leads_tokenAs (w := "===") _).orElse
  | strictNe => exact leads_skip (w := "!==") (by decide) (by decide) (leads_tokenAs _).orElse
  | eq =>
    refine leads_skip (w := "==") (by decide) (by decide) (leads_skip (by decide) (by decide) ?_)
    exact (leads_tokenAs _).orElse
  | ne =>
    refine leads_skip (w := "!=") (by decide) (by decide) (leads_skip (by decide) (by decide) ?_)
    exact leads_skip (by decide) (by decide) (leads_tokenAs _)

theorem leads_binary {op : BinaryOp} {rhs : Expr}
    (h : Leads (At ls) (tier expr (op.level + 1)) (At rest) (pure rhs)) :
    Leads (At (sign op.sign :: ls)) (goOn expr op.level e) (At rest)
    (goOn expr op.level (.binary op e rhs)) := by
  rw [goOn_binary]
  exact leads_more (leads_levelOp op) h

theorem leads_logical {op : LogicalOp} {rhs : Expr}
    (h : Leads (At ls) (tier expr (op.level + 1)) (At rest) (pure rhs)) :
    Leads (At (sign op.sign :: ls)) (goOn expr op.level e) (At rest)
    (goOn expr op.level (.logical op e rhs)) := by
  rw [goOn_logical]
  exact leads_more leads_token h

/-! ### Brackets -/

/-- What is expected of the rule inside brackets: it reads expressions of fewer than `n` lexemes,
and nothing where no operand starts. -/
structure ReadsBelow (expr : Rule Expr) (n : Nat) : Prop where
  reads : ∀ {e : Expr}, e.Printable → e.lexemes.length < n → ∀ rest, Ends 0 rest →
    Leads (At (e.lexemes ++ rest)) expr (At rest) (pure e)
  refuses : Refuses NoOperand expr

/-- A sign at the end of a list. -/
structure Closes (w : String) : Prop where
  ends : ∀ ls, Ends 0 (sign w :: ls)
  noOperand : ∀ ls s, At (sign w :: ls) s → NoOperand s
  noComma : ¬ ",".toList <+: w.toList

theorem closes_bracket : Closes "]" where
  ends _ := ends_sign (by decide)
  noOperand _ _ hs := noOperand_of_sign (by decide) hs
  noComma := by decide

theorem closes_paren : Closes ")" where
  ends _ := ends_sign (by decide)
  noOperand _ _ hs := noOperand_of_sign (by decide) hs
  noComma := by decide

section Items

variable {w : String}

theorem ends_moreLexemes (hw : Closes w) (es : List Expr) (rest : List Lexeme) :
    Ends 0 (Expr.moreLexemes es ++ sign w :: rest) := by
  cases es with
  | nil => exact hw.ends rest
  | cons e es => exact ends_sign (by decide)

theorem leads_moreItems (hexpr : ReadsBelow expr n) (hw : Closes w) {es : List Expr}
    (hes : Expr.AllPrintable es) (hlen : (Expr.moreLexemes es).length < n)
    (hsep : (spaced (token ",")).Advances) :
    Leads (At (Expr.moreLexemes es ++ sign w :: rest))
    (many (after (spaced (token ",")) expr) hsep.bind)
      (At (sign w :: rest)) (pure es) := by
  induction es with
  | nil => exact (refuses_spaced (refuses_token_sign hw.noComma (by decide))).bind.many
  | cons e es ih =>
    rw [Expr.moreLexemes, List.length_cons, List.length_append] at hlen
    rw [Expr.moreLexemes, List.cons_append, List.append_assoc]
    have he := hexpr.reads hes.1 (by omega) _ (ends_moreLexemes hw es rest)
    exact Leads.many_cons ((leads_sign "," _).bind he) (ih hes.2 (by omega))

/-- Items and the commas between them are read up to the sign behind them. -/
theorem leads_items (hexpr : ReadsBelow expr n) (hw : Closes w) {es : List Expr}
    (hes : Expr.AllPrintable es) (hlen : (Expr.listLexemes es).length < n)
    (hsep : (spaced (token ",")).Advances) (rest : List Lexeme) :
    Leads (At (Expr.listLexemes es ++ sign w :: rest)) (separated (spaced (token ",")) expr hsep)
      (At (sign w :: rest)) (pure es) := by
  cases es with
  | nil => exact leads_separated_nil (hexpr.refuses.mono (hw.noOperand rest))
  | cons e es =>
    rw [Expr.listLexemes, List.length_append] at hlen
    rw [Expr.listLexemes, List.append_assoc]
    have he := hexpr.reads hes.1 (by omega) _ (ends_moreLexemes hw es rest)
    exact leads_separated_cons he (leads_moreItems hexpr hw hes.2 (by omega) hsep)

end Items

/-! ### Operands without signs -/

theorem leads_primary_number {x : Float} :
    Leads (Lays (.number x :: ls)) (primary expr) (At ls) (pure (.literal (.number x))) := by
  refine Leads.orElse ?_
  exact leads_number.bind (.refl _ _)

theorem leads_primary_string {s : String} :
    Leads (Lays (string s :: ls)) (primary expr) (At ls) (pure (.literal (.string s))) := by
  have hnumber : Refuses (Lays (string s :: ls)) Grammar.number :=
    refuses_start refuses_number fun c hc => by
      cases hc
      decide
  refine hnumber.bind.orElse_leads (Leads.orElse ?_)
  exact leads_stringLiteral.bind (.refl _ _)

/-- A text that starts like a name is read as a name, which may be a word for a literal. -/
theorem leads_primary_word {P Q : List Char → Prop} {x : String}
    (hP : ∀ s, P s → ∃ c cs, s = c :: cs ∧ isIdentStart c = true)
    (h : Leads P identifier Q (pure x)) :
    Leads P (primary expr) Q (pure (word x)) := by
  have hrefuses {α : Type} {p : Rule α} {cls : Char → Bool} (hp : Refuses (Stops cls) p)
      (hcls : ∀ {c cs}, NameHead (c :: cs) → cls c = false) : Refuses P p := by
    refine hp.mono fun s hs => ?_
    obtain ⟨c, cs, rfl, hc⟩ := hP s hs
    exact .cons (hcls (nameHead_cons hc cs)) cs
  have hnumber : Refuses P Grammar.number := hrefuses refuses_number fun {c _} hc => hc.digit c rfl
  have hquote : Refuses P stringLiteral :=
    hrefuses refuses_stringLiteral fun hc => by
      simp [Ne.symm (hc.ne (d := '"') (by decide)), Ne.symm (hc.ne (d := '\'') (by decide))]
  have hsign {w : String} {d : Char} (hw : w.toList.head? = some d)
      (hd : d ∈ ['!', '-', '+', '(', '[', '"', '\'']) : Refuses P (token w) :=
    hrefuses (refuses_token (c := (· == d)) hw (by simp)) fun hc => by
      simp [Ne.symm (hc.ne hd)]
  refine hnumber.bind.orElse_leads (hquote.bind.orElse_leads ?_)
  refine (hsign (d := '(') rfl (by decide)).bind.orElse_leads ?_
  refine (hsign (d := '[') rfl (by decide)).bind.bind.orElse_leads ?_
  exact h.bind (.refl _ _)

theorem leads_primary_name {s : String} :
    Leads (Lays (name s :: ls)) (primary expr) (At ls) (pure (word s)) := by
  refine leads_primary_word (fun r hr => ?_) leads_identifier
  obtain ⟨c, cs, rfl, hc, -⟩ := hr.exists_cons
  exact ⟨c, cs, rfl, hc⟩

/-- A sign is no literal, and so brackets or parentheses are tried. -/
theorem leads_primary_sign {w : String} (hw : ∀ c ∈ w.toList.head?, c.isDigit = false ∧
    (c == '"' || c == '\'') = false)
    (h : Leads (Lays (sign w :: ls)) (firstOf (parenthesized expr)
      [do let items ← bracketed "[" "]" false expr; pure (.array items),
       do let name ← identifier; pure (word name)]) (At rest) (pure e)) :
    Leads (Lays (sign w :: ls)) (primary expr) (At rest) (pure e) := by
  have hnumber : Refuses (Lays (sign w :: ls)) Grammar.number :=
    refuses_start refuses_number fun c hc => (hw c hc).1
  have hquote : Refuses (Lays (sign w :: ls)) stringLiteral :=
    refuses_start refuses_stringLiteral fun c hc => (hw c hc).2
  exact hnumber.bind.orElse_leads (hquote.bind.orElse_leads h)

theorem leads_primary_parens (hexpr : ReadsBelow expr n) (he : e.Printable)
    (hlen : (parens e.lexemes).length ≤ n) :
    Leads (Lays (parens e.lexemes ++ rest)) (primary expr) (At rest) (pure e) := by
  rw [parens, List.length_cons, List.length_append] at hlen
  have hinside := hexpr.reads he (by omega) (sign ")" :: rest) (closes_paren.ends rest)
  rw [parens, List.cons_append, List.append_assoc]
  refine leads_primary_sign (by decide) (Leads.orElse ?_)
  refine leads_token.bind (hinside.bind ?_)
  exact (leads_sign ")" rest).bind (.refl _ _)

theorem leads_primary_array (hexpr : ReadsBelow expr n) {es : List Expr}
    (hes : Expr.AllPrintable es) (hlen : (Expr.array es).lexemes.length ≤ n) :
    Leads (Lays ((Expr.array es).lexemes ++ rest)) (primary expr) (At rest) (pure (.array es)) := by
  rw [Expr.lexemes, List.length_cons, List.length_append] at hlen
  rw [Expr.lexemes, List.cons_append, List.append_assoc]
  refine leads_primary_sign (by decide) (leads_skip (by decide) (by decide) (Leads.orElse ?_))
  refine Leads.bind ?_ (.refl _ _)
  have hitems :=
    leads_items hexpr closes_bracket hes (by omega) (advances_token (by decide)).spaced rest
  exact leads_token.bind (hitems.bind ((leads_sign "]" rest).bind (.refl _ _)))

/-! ### Suffixes -/

theorem leads_member {name : String} :
    Leads (At (sign "." :: .name name :: ls)) (goOn expr 8 e) (At ls)
    (goOn expr 8 (.member e name)) := by
  have h :
    Leads (At (sign "." :: .name name :: ls)) (suffix expr) (At ls) (pure (.member name)) := by
    refine Leads.orElse ?_
    exact leads_spaced_token.bind (leads_identifier.bind (.refl _ _))
  exact h.gather _ _

theorem leads_index (hexpr : ReadsBelow expr n) {key : Expr} (hkey : key.Printable)
    (hlen : key.lexemes.length < n) :
    Leads (At (sign "[" :: (key.lexemes ++ sign "]" :: rest))) (goOn expr 8 e) (At rest)
      (goOn expr 8 (.index e key)) := by
  have h :
    Leads (At (sign "[" :: (key.lexemes ++ sign "]" :: rest))) (suffix expr) (At rest)
      (pure (.index key)) := by
    refine (refuses_spaced (refuses_token_sign (by decide) (by decide))).bind.orElse_leads
      (Leads.orElse ?_)
    have hinside := hexpr.reads hkey hlen _ (closes_bracket.ends rest)
    exact (leads_sign "[" _).bind (hinside.bind ((leads_sign "]" rest).bind (.refl _ _)))
  exact h.gather _ _

theorem leads_call (hexpr : ReadsBelow expr n) {args : List Expr} (hargs : Expr.AllPrintable args)
    (hlen : (Expr.listLexemes args).length < n) :
    Leads (At (sign "(" :: (Expr.listLexemes args ++ sign ")" :: rest))) (goOn expr 8 e) (At rest)
      (goOn expr 8 (.call e args)) := by
  have hitems := leads_items hexpr closes_paren hargs hlen (advances_token (by decide)).spaced rest
  have h :
    Leads (At (sign "(" :: (Expr.listLexemes args ++ sign ")" :: rest))) (suffix expr) (At rest)
      (pure (.call args)) := by
    refine (refuses_spaced (refuses_token_sign (by decide) (by decide))).bind.orElse_leads ?_
    refine (refuses_spaced (refuses_token_sign (by decide) (by decide))).bind.orElse_leads ?_
    refine Leads.bind ?_ (.refl _ _)
    exact (leads_sign "(" _).bind (hitems.bind ((leads_sign ")" rest).bind (.refl _ _)))
  exact h.gather _ _

/-! ### Operands of a level -/

/-- Whether the rule of a level reads an expression as an operand. -/
def Fits (expr : Rule Expr) (p : Nat) (e : Expr) : Prop :=
  ∀ rest, Ends p rest →
    Leads (At (operand p e.level e.lexemes ++ rest)) (tier expr p) (At rest) (pure e)

/-- Whether the loop of a level comes to an expression without leaving the loop. -/
def Grows (expr : Rule Expr) (p : Nat) (e : Expr) : Prop :=
  ∀ rest, Ends (p + 1) rest →
    Leads (At (operand p e.level e.lexemes ++ rest)) (tier expr p) (At rest) (goOn expr p e)

/-- What is to be known of an expression at its own level. -/
def Own (expr : Rule Expr) (e : Expr) : Prop :=
  if e.level = 0 ∨ e.level = 7 then Fits expr e.level e else Grows expr e.level e

theorem level_le (e : Expr) : e.level ≤ 8 := by
  unfold Expr.level
  split
  · omega
  · rename_i op _ _
    cases op <;> decide
  · rename_i op _ _
    cases op <;> decide
  · omega
  · omega

theorem operand_self (p : Nat) (ls : List Lexeme) : operand p p ls = ls := if_neg (Nat.lt_irrefl p)

/-- Only at its own level it matters to an expression whether the next tighter one is wanted. -/
theorem operand_succ (h : e.level ≠ p) : operand (p + 1) e.level ls = operand p e.level ls := by
  unfold operand
  by_cases hp : e.level < p
  · rw [if_pos hp, if_pos (by omega)]
  · rw [if_neg hp, if_neg (by omega)]

theorem Grows.fits (h : Grows expr p e) (hp : p ≤ 8) (hp' : p ≠ 7) : Fits expr p e :=
  fun rest hrest =>
  (h rest (hrest.mono (Nat.le_succ p))).trans (leads_goOn_of_closed hp hp' hrest.closed)

theorem Fits.grows (h : Fits expr (p + 1) e) (hp : p ≤ 6) (he : e.level ≠ p) : Grows expr p e := by
  intro rest hrest
  rw [← operand_succ he, tier_eq_bind expr hp]
  exact (h rest hrest).bind (.refl _ _)

theorem Fits.unary (h : Fits expr 8 e) (he : e.level ≠ 7) : Fits expr 7 e := by
  intro rest hrest
  rw [← operand_succ he]
  exact leads_unary_of_postfixed (h rest (hrest.mono (Nat.le_succ 7)))

theorem grows_of_primary
    (h : ∀ rest, Leads (Lays (operand 8 e.level e.lexemes ++ rest)) (primary expr)
      (At rest) (pure e)) :
    Grows expr 8 e := by
  intro rest _
  show Leads _ (postfixed expr) _ _
  rw [postfixed_eq_bind]
  exact ((leads_spaced (h rest)).mono_right fun _ => Lays.at).bind (.refl _ _)

theorem Own.grows (h : Own expr e) (h0 : e.level ≠ 0) (h7 : e.level ≠ 7) :
    Grows expr e.level e := by
  rw [Own, if_neg (by omega)] at h
  exact h

theorem Own.fits (h : Own expr e) : Fits expr e.level e := by
  unfold Own at h
  split at h
  · exact h
  · exact h.fits (level_le e) (by omega)

section Operands

variable (hexpr : ReadsBelow expr n) (he : e.Printable) (hown : e.lexemes.length ≤ n → Own expr e)

include hexpr he hown

theorem grows_eight (hlen : (operand 8 e.level e.lexemes).length ≤ n) : Grows expr 8 e := by
  by_cases h : e.level = 8
  · rw [h, operand_self] at hlen
    have hgrows := (hown hlen).grows (by omega) (by omega)
    rw [h] at hgrows
    exact hgrows
  · have hparens : operand 8 e.level e.lexemes = parens e.lexemes :=
      if_pos (by have := level_le e; omega)
    rw [hparens] at hlen
    refine grows_of_primary fun rest => ?_
    rw [hparens]
    exact leads_primary_parens hexpr he hlen

/-- The rule of each level reads an expression, in parentheses if it binds more loosely than that
level. -/
theorem fits_operand (hp : p ≤ 8) (hlen : (operand p e.level e.lexemes).length ≤ n) :
    Fits expr p e := by
  induction hp using Nat.decreasingInduction with
  | self => exact (grows_eight hexpr he hown hlen).fits (by omega) (by omega)
  | of_succ p hp ih =>
    by_cases h : e.level = p
    · subst h
      rw [operand_self] at hlen
      exact (hown hlen).fits
    · have hfits := ih (by rwa [operand_succ h])
      by_cases h7 : p = 7
      · subst h7
        exact hfits.unary h
      · exact (hfits.grows (by omega) h).fits (by omega) h7

/-- The left operand of an operator leaves the loop of its level going. -/
theorem grows_operand (hp : p ≤ 8) (h0 : p ≠ 0) (h7 : p ≠ 7)
    (hlen : (operand p e.level e.lexemes).length ≤ n) :
    Grows expr p e := by
  by_cases h : e.level = p
  · subst h
    rw [operand_self] at hlen
    exact (hown hlen).grows h0 h7
  · by_cases h8 : p = 8
    · subst h8
      exact grows_eight hexpr he hown hlen
    · refine Fits.grows (fits_operand hexpr he hown (by omega) ?_) (by omega) h
      rwa [operand_succ h]

end Operands

/-! ### Expressions -/

theorem own_of_primary (h8 : e.level = 8)
    (h : ∀ rest, Leads (Lays (e.lexemes ++ rest)) (primary expr) (At rest) (pure e)) :
    Own expr e := by
  rw [Own, if_neg (by omega), h8]
  refine grows_of_primary fun rest => ?_
  rw [h8, operand_self]
  exact h rest

theorem own_literal {l : Literal} : Own expr (.literal l) := by
  refine own_of_primary rfl fun rest => ?_
  cases l with
  | undefined => exact leads_primary_name
  | null => exact leads_primary_name
  | bool b => cases b <;> exact leads_primary_name
  | number x => exact leads_primary_number
  | string s => exact leads_primary_string

theorem own_ident {s : String} (hs : IsName s) : Own expr (.ident s) := by
  refine own_of_primary rfl fun rest => ?_
  have h : Leads (Lays (.name s :: rest)) (primary expr) (At rest) (pure (word s)) :=
    leads_primary_name
  rw [word_of_isName hs] at h
  exact h

theorem own_of_suffix {object : Expr} {ls : List Lexeme} (h8 : e.level = 8)
    (hobject : Grows expr 8 object) (hls : e.lexemes = operand 8 object.level object.lexemes ++ ls)
    (h : ∀ rest, Leads (At (ls ++ rest)) (goOn expr 8 object) (At rest) (goOn expr 8 e)) :
    Own expr e := by
  rw [Own, if_neg (by omega), h8]
  intro rest _
  rw [h8, operand_self, hls, List.append_assoc]
  exact (hobject _ (ends_nine _)).trans (h rest)

theorem own_member {object : Expr} {s : String} (hobject : Grows expr 8 object) :
    Own expr (.member object s) :=
  own_of_suffix rfl hobject rfl fun _ => leads_member

theorem own_index (hexpr : ReadsBelow expr n) {object key : Expr} (hobject : Grows expr 8 object)
    (hkey : key.Printable) (hlen : key.lexemes.length < n) : Own expr (.index object key) := by
  refine own_of_suffix rfl hobject rfl fun rest => ?_
  rw [List.cons_append, List.append_assoc]
  exact leads_index hexpr hkey hlen

theorem own_call (hexpr : ReadsBelow expr n) {callee : Expr} {args : List Expr}
    (hcallee : Grows expr 8 callee) (hargs : Expr.AllPrintable args)
    (hlen : (Expr.listLexemes args).length < n) : Own expr (.call callee args) := by
  refine own_of_suffix rfl hcallee rfl fun rest => ?_
  rw [List.cons_append, List.append_assoc]
  exact leads_call hexpr hargs hlen

theorem own_unary {op : UnaryOp} (h : Fits expr 7 e) : Own expr (.unary op e) := by
  refine (if_pos (.inr rfl)).mpr ?_
  intro rest hrest
  show Leads (At (sign op.sign :: (operand 7 e.level e.lexemes ++ rest))) (unary expr) _ _
  exact leads_unary_sign (h rest hrest)

/-- The left operand of an operator keeps the loop of its level going, and the right one is put to
it. -/
theorem own_infix {w : String} {lhs rhs : Expr} (hlevel : e.level = p) (h0 : p ≠ 0) (h7 : p ≠ 7)
    (hls : e.lexemes = operand p lhs.level lhs.lexemes ++ sign w ::
      operand (p + 1) rhs.level rhs.lexemes)
    (hw : ∀ c ∈ w.toList.head?, ∀ m ∈ opLevel? c, m < p + 1) (hlhs : Grows expr p lhs)
    (hrhs : Fits expr (p + 1) rhs)
    (hop : ∀ {ls rest}, Leads (At ls) (tier expr (p + 1)) (At rest) (pure rhs) →
      Leads (At (sign w :: ls)) (goOn expr p lhs) (At rest) (goOn expr p e)) : Own expr e := by
  rw [Own, if_neg (by omega), hlevel]
  intro rest hrest
  rw [hlevel, operand_self, hls, List.append_assoc, List.cons_append]
  exact (hlhs _ (ends_sign hw)).trans (hop (hrhs rest hrest))

theorem own_binary {op : BinaryOp} {lhs rhs : Expr} (hlhs : Grows expr op.level lhs)
    (hrhs : Fits expr (op.level + 1) rhs) : Own expr (.binary op lhs rhs) :=
  own_infix (p := op.level) rfl (by cases op <;> decide) (by cases op <;> decide) rfl
    (by cases op <;> decide) hlhs hrhs
    leads_binary

theorem own_logical {op : LogicalOp} {lhs rhs : Expr} (hlhs : Grows expr op.level lhs)
    (hrhs : Fits expr (op.level + 1) rhs) : Own expr (.logical op lhs rhs) :=
  own_infix (p := op.level) rfl (by cases op <;> decide) (by cases op <;> decide) rfl
    (by cases op <;> decide) hlhs hrhs
    leads_logical

theorem own_conditional (hexpr : ReadsBelow expr n) {test yes no : Expr} (htest : Fits expr 1 test)
    (hyes : yes.Printable) (hno : no.Printable) (hlenYes : yes.lexemes.length < n)
    (hlenNo : no.lexemes.length < n) :
    Own expr (.conditional test yes no) := by
  refine (if_pos (.inl rfl)).mpr ?_
  intro rest hrest
  have hreadYes :=
    hexpr.reads hyes hlenYes (sign ":" :: (no.lexemes ++ rest)) (ends_sign (by decide))
  have hreadNo := hexpr.reads hno hlenNo rest hrest
  have hbranches :
    Leads (At (sign "?" :: (yes.lexemes ++ sign ":" :: (no.lexemes ++ rest))))
      (branches expr) (At rest)
      (pure (yes, no)) :=
    (leads_sign "?" _).bind (hreadYes.bind ((leads_sign ":" _).bind (hreadNo.bind (.refl _ _))))
  show Leads (At (operand 0 0 _ ++ rest)) (tier expr 0) _ _
  rw [operand_self, Expr.lexemes, List.append_assoc, List.cons_append, List.append_assoc,
    List.cons_append, tier_eq_bind expr (by decide)]
  exact (htest _ (ends_sign (by decide))).bind (hbranches.optional.bind (.refl _ _))

/-- An expression is read at its own level, provided that what is nested in it is read. -/
theorem own (hexpr : ReadsBelow expr n) :
    (e : Expr) → e.Printable → e.lexemes.length ≤ n → Own expr e
  | .literal _, _, _ => own_literal
  | .ident _, he, _ => own_ident he
  | .array _, he, hlen => own_of_primary rfl fun _ => leads_primary_array hexpr he hlen
  | .member object _, he, hlen => by
    rw [Expr.lexemes, List.length_append] at hlen
    have hobject :=
      grows_operand hexpr he.1 (own hexpr object he.1) (Nat.le_refl 8) (by decide)
        (by decide) (by omega)
    exact own_member hobject
  | .index object key, he, hlen => by
    rw [Expr.lexemes, List.length_append, List.length_cons, List.length_append] at hlen
    have hobject :=
      grows_operand hexpr he.1 (own hexpr object he.1) (Nat.le_refl 8) (by decide)
        (by decide) (by omega)
    exact own_index hexpr hobject he.2 (by omega)
  | .call callee args, he, hlen => by
    rw [Expr.lexemes, List.length_append, List.length_cons, List.length_append] at hlen
    have hcallee :=
      grows_operand hexpr he.1 (own hexpr callee he.1) (Nat.le_refl 8) (by decide)
        (by decide) (by omega)
    exact own_call hexpr hcallee he.2 (by omega)
  | .unary op e, he, hlen => by
    rw [Expr.lexemes, List.length_cons] at hlen
    exact own_unary (fits_operand hexpr he (own hexpr e he) (by decide) (by omega))
  | .binary op lhs rhs, he, hlen => by
    rw [Expr.lexemes, List.length_append, List.length_cons] at hlen
    have hlevel : 3 ≤ op.level ∧ op.level ≤ 6 := by cases op <;> decide
    have hrhs :=
      fits_operand hexpr he.2 (own hexpr rhs he.2) (p := op.level + 1) (by omega) (by omega)
    exact own_binary (grows_operand hexpr he.1 (own hexpr lhs he.1) (by omega) (by omega)
      (by omega) (by omega)) hrhs
  | .logical op lhs rhs, he, hlen => by
    rw [Expr.lexemes, List.length_append, List.length_cons] at hlen
    have hlevel : 1 ≤ op.level ∧ op.level ≤ 2 := by cases op <;> decide
    have hrhs :=
      fits_operand hexpr he.2 (own hexpr rhs he.2) (p := op.level + 1) (by omega) (by omega)
    exact own_logical (grows_operand hexpr he.1 (own hexpr lhs he.1) (by omega) (by omega)
      (by omega) (by omega)) hrhs
  | .conditional test yes no, he, hlen => by
    simp only [Expr.lexemes, List.length_append, List.length_cons] at hlen
    have htest := fits_operand hexpr he.1 (own hexpr test he.1) (p := 1) (by decide) (by omega)
    exact own_conditional hexpr htest he.2.1 he.2.2 (by omega) (by omega)

theorem readsBelow_expression (n : Nat) : ReadsBelow (expression n) n := by
  induction n with
  | zero =>
    exact ⟨fun _ hlen => absurd hlen (Nat.not_lt_zero _), fun s _ => ⟨s, rfl⟩⟩
  | succ n ih =>
    refine ⟨fun {e} he hlen rest hrest => ?_, refuses_tier (expression n) (Nat.zero_le 7)⟩
    have hoperand : operand 0 e.level e.lexemes = e.lexemes := if_neg (Nat.not_lt_zero _)
    have hfits : Fits (expression n) 0 e := by
      refine fits_operand ih he (own ih e he) (Nat.zero_le 8) ?_
      rw [hoperand]
      exact Nat.le_of_lt_succ hlen
    have hread := hfits rest hrest
    rw [hoperand] at hread
    exact hread

end Grammar

namespace Expr

open Lexeme (sign operand parens Spells)

/-! ### Every expression has a text -/

/-- Whether each of several lexemes has a text. -/
def Spelled (ls : List Lexeme) : Prop := ∀ l ∈ ls, ∃ w, l.Spells w

theorem spelled_cons_iff {l : Lexeme} {ls : List Lexeme} :
    Spelled (l :: ls) ↔ (∃ w, l.Spells w) ∧ Spelled ls :=
  List.forall_mem_cons

theorem spelled_append_iff {ls ls' : List Lexeme} : Spelled (ls ++ ls') ↔ Spelled ls ∧
    Spelled ls' :=
  List.forall_mem_append

theorem spelled_nil : Spelled [] := List.forall_mem_nil _

theorem exists_spells_sign {w : String} (h : w ≠ "" ∧ ∀ c ∈ w.toList, isSpace c = false) :
    ∃ v, (sign w).Spells v :=
  ⟨_, .sign h.1 h.2⟩

theorem Spelled.operand {ls : List Lexeme} (h : Spelled ls) (p level : Nat) :
    Spelled (operand p level ls) := by
  unfold Lexeme.operand
  split
  · rw [parens, spelled_cons_iff, spelled_append_iff, spelled_cons_iff]
    exact ⟨exists_spells_sign (by decide), h, exists_spells_sign (by decide), spelled_nil⟩
  · exact h

theorem exists_spells_literal {l : Literal} (h : (literal l).Printable) :
    ∃ w, l.lexeme.Spells w := by
  cases l with
  | undefined => exact ⟨_, .name (by decide)⟩
  | null => exact ⟨_, .name (by decide)⟩
  | bool b => cases b <;> exact ⟨_, .name (by decide)⟩
  | number x =>
    obtain ⟨cs, hcs, hx⟩ := h
    exact ⟨cs, .number hcs hx⟩
  | string s => exact ⟨_, .string s⟩

mutual

/-- Every lexeme of an expression has a text. -/
theorem spelled : (e : Expr) → e.Printable → Spelled e.lexemes
  | .literal l, he => by
    rw [lexemes, spelled_cons_iff]
    exact ⟨exists_spells_literal he, spelled_nil⟩
  | .ident s, he => by
    rw [lexemes, spelled_cons_iff]
    exact ⟨⟨_, .name he.parts⟩, spelled_nil⟩
  | .array items, he => by
    rw [lexemes, spelled_cons_iff, spelled_append_iff, spelled_cons_iff]
    exact ⟨exists_spells_sign (by decide), spelled_listLexemes items he,
      exists_spells_sign (by decide), spelled_nil⟩
  | .member object s, he => by
    rw [lexemes, spelled_append_iff, spelled_cons_iff, spelled_cons_iff]
    exact ⟨(spelled object he.1).operand _ _, exists_spells_sign (by decide),
      ⟨_, .name he.2⟩, spelled_nil⟩
  | .index object key, he => by
    rw [lexemes, spelled_append_iff, spelled_cons_iff, spelled_append_iff, spelled_cons_iff]
    exact ⟨(spelled object he.1).operand _ _, exists_spells_sign (by decide), spelled key he.2,
      exists_spells_sign (by decide), spelled_nil⟩
  | .call callee args, he => by
    rw [lexemes, spelled_append_iff, spelled_cons_iff, spelled_append_iff, spelled_cons_iff]
    exact ⟨(spelled callee he.1).operand _ _, exists_spells_sign (by decide),
      spelled_listLexemes args he.2, exists_spells_sign (by decide), spelled_nil⟩
  | .unary op e, he => by
    rw [lexemes, spelled_cons_iff]
    exact ⟨exists_spells_sign (by cases op <;> decide), (spelled e he).operand _ _⟩
  | .binary op lhs rhs, he => by
    rw [lexemes, spelled_append_iff, spelled_cons_iff]
    exact ⟨(spelled lhs he.1).operand _ _, exists_spells_sign (by cases op <;> decide),
      (spelled rhs he.2).operand _ _⟩
  | .logical op lhs rhs, he => by
    rw [lexemes, spelled_append_iff, spelled_cons_iff]
    exact ⟨(spelled lhs he.1).operand _ _, exists_spells_sign (by cases op <;> decide),
      (spelled rhs he.2).operand _ _⟩
  | .conditional test yes no, he => by
    rw [lexemes, spelled_append_iff, spelled_cons_iff, spelled_append_iff, spelled_cons_iff]
    exact ⟨(spelled test he.1).operand _ _, exists_spells_sign (by decide), spelled yes he.2.1,
      exists_spells_sign (by decide), spelled no he.2.2⟩

theorem spelled_listLexemes : (es : List Expr) → AllPrintable es → Spelled (listLexemes es)
  | [], _ => spelled_nil
  | e :: es, hes => by
    rw [listLexemes, spelled_append_iff]
    exact ⟨spelled e hes.1, spelled_moreLexemes es hes.2⟩

theorem spelled_moreLexemes : (es : List Expr) → AllPrintable es → Spelled (moreLexemes es)
  | [], _ => spelled_nil
  | e :: es, hes => by
    rw [moreLexemes, spelled_cons_iff, spelled_append_iff]
    exact ⟨exists_spells_sign (by decide), spelled e hes.1, spelled_moreLexemes es hes.2⟩

end

theorem exists_prints {e : Expr} (he : e.Printable) : ∃ text, e.Prints text := by
  obtain ⟨s, hs⟩ := Lexeme.exists_lays (spelled e he)
  refine ⟨String.ofList s, ?_⟩
  rw [Prints, String.toList_ofList]
  exact hs

/-! ### Every text of an expression is read -/

theorem parse_of_prints {e : Expr} (he : e.Printable) {text : String} (h : e.Prints text) :
    Expr.parse text = .ok e := by
  have hlen : e.lexemes.length < text.length + 1 := by
    have := Lexeme.Lays.length_le h
    rw [String.length_toList] at this
    omega
  have hread :=
    (Grammar.readsBelow_expression (text.length + 1)).reads he hlen [] (Grammar.ends_nil 0)
  rw [List.append_nil] at hread
  obtain ⟨r, hr, hspaced⟩ :=
    Lexeme.leads_spaced (hread.mono_left fun _ => Lexeme.Lays.at) _ (Lexeme.Lays.at h)
  cases hr
  have hok : (Rule.spaced (Grammar.expression (text.length + 1))).read text.toList = .ok e [] :=
    hspaced
  unfold Expr.parse Grammar.readAll
  simp only [Rule.whole, hok]

/-- An expression can be written, and each of its texts is read as this very expression. -/
theorem parse_prints (e : Expr) (he : e.Printable) :
    (∃ text, e.Prints text) ∧ ∀ text, e.Prints text → Expr.parse text = .ok e :=
  ⟨exists_prints he, fun _ => parse_of_prints he⟩

/-- Parentheses, a sign in front of suffixes and a string with a quote in it. -/
theorem parse_prints_product :
    ∃ e : Expr,
      e = .binary .mul (.binary .sub (.ident "a") (.literal (.number (ofDigits ['1', '5'] 2))))
        (.unary .neg (.call (.member (.ident "b") "c") [.literal (.string "\"")])) ∧
      e.Printable ∧ e.Prints "( a - 1.5e3 ) * - b . c ( \"\\\"\" )" ∧
      Expr.parse "( a - 1.5e3 ) * - b . c ( \"\\\"\" )" = .ok e := by
  have hexponent : IsExponent ('e' :: ([] ++ ['3'])) :=
    .power (.inl rfl) (.inl rfl) (by decide) (by decide)
  have hdecimal : IsDecimal (['1'] ++ (['.', '5'] ++ ['e', '3'])) :=
    .mk (by decide) (by decide) (.point (by decide)) hexponent
  have hnumber : readUnsigned? ['1', '.', '5', 'e', '3'] = some (ofDigits ['1', '5'] 2) := rfl
  refine ⟨_, rfl, ?_⟩
  generalize he : Expr.binary _ _ _ = e
  have hprintable : e.Printable := by
    subst he
    exact ⟨⟨show IsName "a" by decide, _, hdecimal, hnumber⟩,
      ⟨show IsName "b" by decide, by decide⟩, trivial, trivial⟩
  have hprints : e.Prints "( a - 1.5e3 ) * - b . c ( \"\\\"\" )" := by
    subst he
    refine .cons (w := ['(']) (.sign (w := "(") (by decide) (by decide)) ?_
    refine .cons (w := ['a']) (.name (s := "a") (by decide)) ?_
    refine .cons (w := ['-']) (.sign (w := "-") (by decide) (by decide)) ?_
    refine .cons (.number hdecimal hnumber) ?_
    refine .cons (w := [')']) (.sign (w := ")") (by decide) (by decide)) ?_
    refine .cons (w := ['*']) (.sign (w := "*") (by decide) (by decide)) ?_
    refine .cons (w := ['-']) (.sign (w := "-") (by decide) (by decide)) ?_
    refine .cons (w := ['b']) (.name (s := "b") (by decide)) ?_
    refine .cons (w := ['.']) (.sign (w := ".") (by decide) (by decide)) ?_
    refine .cons (w := ['c']) (.name (s := "c") (by decide)) ?_
    refine .cons (w := ['(']) (.sign (w := "(") (by decide) (by decide)) ?_
    refine .cons (.string "\"") ?_
    exact .last (.sign (w := ")") (by decide) (by decide))
  exact ⟨hprintable, hprints, (parse_prints e hprintable).2 _ hprints⟩

end Expr

end LiveMarkup
