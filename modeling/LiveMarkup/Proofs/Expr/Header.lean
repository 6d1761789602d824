import LiveMarkup.Proofs.Expr.RoundTrip

/-!
# Reading printed loop headers

A loop header is read back from each of its texts (`LoopHeader.parse_of_prints`).  Its statements
are told apart by their first two lexemes: an expression that starts with a name goes on with a sign
between operands, or ends, and so it is neither a declaration nor a step nor an assignment
(`Grammar.Led`).
-/

namespace LiveMarkup

open Lexeme (sign)

/-! ### Printing -/

def AssignOp.sign : AssignOp → String
  | set => "="
  | add => "+="
  | sub => "-="
  | mul => "*="
  | div => "/="

def Step.sign : Step → String
  | up => "++"
  | down => "--"

/-- The words in front of a declaration. -/
def declarationWords : List String := ["let", "var", "const"]

namespace Stmt

/-- The lexemes with which a statement can be written. -/
inductive Writes : Stmt → List Lexeme → Prop
  | declare {w : String} (hw : w ∈ declarationWords) (name : String) (init : Expr) :
    Writes (declare name init) (.name w :: .name name :: sign "=" :: init.lexemes)
  | assign (name : String) (op : AssignOp) (rhs : Expr) :
    Writes (assign name op rhs) (.name name :: sign op.sign :: rhs.lexemes)
  | stepAfter (name : String) (direction : Step) :
      Writes (step name direction) [.name name, sign direction.sign]
  | stepBefore (name : String) (direction : Step) :
      Writes (step name direction) [sign direction.sign, .name name]
  | expr (e : Expr) : Writes (expr e) e.lexemes

/-- Whether a statement can be written. -/
def Printable : Stmt → Prop
  | declare name init => IsIdentifier name ∧ init.Printable
  | assign name _ rhs => IsIdentifier name ∧ rhs.Printable
  | step name _ => IsIdentifier name
  | expr e => e.Printable

end Stmt

/-- The lexemes of a part that may be left out. -/
inductive WritesOptional {α : Type} (W : α → List Lexeme → Prop) : Option α → List Lexeme → Prop
  | none : WritesOptional W none []
  | some {a : α} {ls : List Lexeme} (h : W a ls) : WritesOptional W (some a) ls

namespace LoopHeader

/-- The lexemes with which a loop header can be written: its three parts with semicolons between
them. -/
inductive Writes : LoopHeader → List Lexeme → Prop
  | mk {init step : Option Stmt} {test : Option Expr} {is ts ss : List Lexeme}
    (hinit : WritesOptional Stmt.Writes init is)
    (htest : WritesOptional (fun e ls => ls = e.lexemes) test ts)
    (hstep : WritesOptional Stmt.Writes step ss) :
    Writes ⟨init, test, step⟩ (is ++ sign ";" :: (ts ++ sign ";" :: ss))

/-- Whether a loop header can be written. -/
structure Printable (h : LoopHeader) : Prop where
  init : ∀ s ∈ h.init, s.Printable
  test : ∀ e ∈ h.test, e.Printable
  step : ∀ s ∈ h.step, s.Printable

/-- The texts of a loop header. -/
def Prints (h : LoopHeader) (text : String) : Prop := ∃ ls, h.Writes ls ∧ Lexeme.Lays ls text.toList

end LoopHeader

namespace Grammar

open Rule Lexeme

variable {expr : Rule Expr} {ls rest : List Lexeme} {n : Nat} {x w : String}

/-! ### The start of an expression -/

/-- The signs that may stand behind a name at the start of an expression, or end the expression. -/
def infixSigns : List String :=
  [".", "[", "(", "?", ";", "*", "/", "%", "+", "-", "<", "<=", ">", ">=", "==", "!=", "===",
    "!==", "&&", "||"]

/-- The signs with which an expression may start. -/
def prefixSigns : List String := ["(", "[", "!", "-", "+"]

/-- Whether lexemes start like an expression. -/
def Led : List Lexeme → Prop
  | [] => False
  | [.name _] => True
  | .name _ :: sign w :: _ => w ∈ infixSigns
  | .name _ :: _ :: _ => False
  | sign w :: _ => w ∈ prefixSigns
  | .number _ :: _ => True
  | .string _ :: _ => True

theorem Led.append (h : Led ls) (hw : w ∈ infixSigns) (rest : List Lexeme) :
    Led (ls ++ sign w :: rest) := by
  match ls, h with
  | [.name _], _ => exact hw
  | .name _ :: sign _ :: _, h => exact h
  | sign _ :: _, h => exact h
  | .number _ :: _, _ => trivial
  | .string _ :: _, _ => trivial

theorem Led.operand (h : Led ls) (p level : Nat) : Led (operand p level ls) := by
  unfold Lexeme.operand
  split
  · show "(" ∈ prefixSigns
    decide
  · exact h

theorem led_lexemes : (e : Expr) → Led e.lexemes
  | .literal l => by cases l <;> trivial
  | .ident _ => trivial
  | .array _ => show "[" ∈ prefixSigns by decide
  | .member object _ => ((led_lexemes object).operand _ _).append (by decide) _
  | .index object _ => ((led_lexemes object).operand _ _).append (by decide) _
  | .call callee _ => ((led_lexemes callee).operand _ _).append (by decide) _
  | .unary op _ => show op.sign ∈ prefixSigns by cases op <;> decide
  | .binary op lhs _ => ((led_lexemes lhs).operand _ _).append (by cases op <;> decide) _
  | .logical op lhs _ => ((led_lexemes lhs).operand _ _).append (by cases op <;> decide) _
  | .conditional test _ _ => ((led_lexemes test).operand _ _).append (by decide) _

/-! ### Where no statement of another kind starts -/

/-- The word in front of a declaration. -/
def declarationWord : Rule Unit := firstOf (token "let") [token "var", token "const"]

theorem refuses_declarationWord : Refuses (Stops isIdentStart) declarationWord :=
  .orElse (refuses_token (d := 'l') rfl rfl)
    (.orElse (refuses_token (d := 'v') rfl rfl) (refuses_token (d := 'c') rfl rfl))

theorem refuses_identifier_sign (h : ∀ c ∈ w.toList.head?, isIdentStart c = false) :
    Refuses (Lays (sign w :: ls)) identifier :=
  refuses_start refuses_identifier h

theorem refuses_increment_sign (h : ¬ "++".toList <+: w.toList) (h' : ¬ "--".toList <+: w.toList) :
    Refuses (Lays (sign w :: ls)) increment :=
  .orElse (refuses_token_sign h (by decide)).bind (refuses_token_sign h' (by decide)).bind

theorem refuses_increment : Refuses (Stops fun c => c == '+' || c == '-') increment :=
  .orElse (refuses_tokenAs _ (c := '+') rfl rfl) (refuses_tokenAs _ (c := '-') rfl rfl)

theorem refuses_assignOp : Refuses (Stops fun c => opLevel? c != none) assignOp :=
  .orElse (refuses_tokenAs _ (c := '+') rfl rfl) (.orElse (refuses_tokenAs _ (c := '-') rfl rfl)
    (.orElse (refuses_tokenAs _ (c := '*') rfl rfl) (.orElse (refuses_tokenAs _ (c := '/') rfl rfl)
      (refuses_singleAs _ (c := '=') rfl rfl))))

/-- Off a name the word in front of a declaration is read with a part of the name left, if at
all. -/
theorem read_declarationWord {ys t : List Char} (ht : Gap t) :
    (∃ r, declarationWord.read (ys ++ t) = .error r) ∨
      ∃ zs, zs <:+ ys ∧ declarationWord.read (ys ++ t) = .ok () (zs ++ t) := by
  have htoken {v : String} (hv : ' ' ∉ v.toList) : (token v).read (ys ++ t) = .error (ys ++ t) ∨
      ∃ zs, zs <:+ ys ∧ (token v).read (ys ++ t) = .ok () (zs ++ t) := by
    by_cases hvy : v.toList <+: ys
    · obtain ⟨zs, rfl⟩ := hvy
      exact .inr ⟨zs, List.suffix_append _ _, read_token (List.append_assoc _ _ _)⟩
    · exact .inl (read_token_of_none (ht.after?_eq_none hvy hv))
  rcases htoken (v := "let") (by decide) with hlet | ⟨zs, hzs, hlet⟩
  · rcases htoken (v := "var") (by decide) with hvar | ⟨zs, hzs, hvar⟩
    · have hrest := (read_orElse_of_error (q := orElse (token "var") (token "const")) hlet).trans
        (read_orElse_of_error hvar)
      rcases htoken (v := "const") (by decide) with hconst | ⟨zs, hzs, hconst⟩
      · exact .inl ⟨_, hrest.trans hconst⟩
      · exact .inr ⟨zs, hzs, hrest.trans hconst⟩
    · exact .inr ⟨zs, hzs, (read_orElse_of_error hlet).trans (read_orElse_of_ok hvar)⟩
  · exact .inr ⟨zs, hzs, read_orElse_of_ok hlet⟩

/-- A space behind the word is behind the whole name. -/
theorem read_before_declarationWord {s : List Char} (hs : Lays (name x :: ls) s) :
    (∃ r, (before declarationWord spaces1).read s = .error r) ∨
      ∃ r, (before declarationWord spaces1).read s = .ok () r ∧ Lays ls r := by
  obtain ⟨_, t, rfl, hx, hgap, ht⟩ := hs.split
  rcases read_declarationWord hgap with ⟨r, hr⟩ | ⟨zs, hzs, hr⟩
  · exact .inl ⟨r, read_bind_of_error hr⟩
  · have hspaces : (∃ r, spaces1.read (zs ++ t) = .error r) ∨
      spaces1.read (zs ++ t) = .ok () (skipSpaces t) := by
      cases zs with
      | nil =>
        cases t with
        | nil => exact .inl ⟨_, rfl⟩
        | cons c t =>
          have hc := hgap c rfl
          rw [bne_eq_false_iff_eq] at hc
          subst hc
          exact .inr ((read_bind_of_ok (read_one (by decide) t)).trans rfl)
      | cons c zs =>
        have hc : isSpace c = false := by
          cases hx with
          | name hx =>
            have hpart := hx.isIdentPart c (hzs.subset List.mem_cons_self)
            exact isSpace_of_isBlank (isBlank_of_isIdentPart hpart)
        exact .inl ⟨_, read_bind_of_error (read_one_of_stops (.cons hc _))⟩
    rcases hspaces with ⟨r', hr'⟩ | hr'
    · exact .inl ⟨r', (read_bind_of_ok hr).trans (read_bind_of_error hr')⟩
    · exact .inr ⟨_, (read_bind_of_ok hr).trans ((read_bind_of_ok hr').trans rfl), ht⟩

theorem refuses_declaration (h : Refuses (Lays ls) declarationWord) :
    Refuses (At ls) (declaration expr) :=
  (refuses_spaced h.bind).bind

theorem refuses_declaration_name (h : Refuses (Lays ls) identifier) :
    Refuses (At (name x :: ls)) (declaration expr) := by
  intro s hs
  rcases read_before_declarationWord hs with ⟨r, hr⟩ | ⟨r, hr, hls⟩
  · exact ⟨r, read_bind_of_error (read_spaced_of_skip_error hr)⟩
  · have hspaced := read_spaced_of_ok hr
    rw [hls.skipSpaces_eq] at hspaced
    obtain ⟨r', hr'⟩ := h r hls
    exact ⟨r', (read_bind_of_ok hspaced).trans (read_bind_of_error hr')⟩

theorem refuses_step (hid : Refuses (Lays ls) identifier) (hinc : Refuses (Lays ls) increment) :
    Refuses (At ls) Grammar.step :=
  .orElse (refuses_spaced hid).bind (refuses_spaced hinc).bind

theorem refuses_step_name (hinc : Refuses (Lays ls) increment) :
    Refuses (At (name x :: ls)) Grammar.step := by
  have hname : Refuses (Lays (name x :: ls)) increment :=
    refuses_start refuses_increment fun c hc => by
      simp [Ne.symm ((nameHead_cons hc []).ne (d := '+') (by decide)),
        Ne.symm ((nameHead_cons hc []).ne (d := '-') (by decide))]
  refine .orElse ?_ (refuses_spaced hname).bind
  exact (leads_spaced leads_identifier).refuses_bind ((refuses_spaced hinc).bind.mono
    fun _ => Lays.at)

theorem refuses_assignment (hid : Refuses (Lays ls) identifier) :
    Refuses (At ls) (assignment expr) :=
  (refuses_spaced hid).bind

theorem refuses_assignment_name (hop : Refuses (Lays ls) assignOp) :
    Refuses (At (name x :: ls)) (assignment expr) :=
  (leads_spaced leads_identifier).refuses_bind ((refuses_spaced hop).bind.mono fun _ => Lays.at)

/-- A sign that starts with another one twice is not taken for the single one. -/
theorem refuses_singleAs_sign {α : Type} {v : String} (a : α)
    (h : v.toList ++ v.toList <+: w.toList) :
    Refuses (Lays (sign w :: ls)) (singleAs v a) := by
  intro s hs
  obtain ⟨_, t, rfl, hw, -, -⟩ := hs.split
  cases hw
  obtain ⟨zs, hzs⟩ := h
  have hnot : (notAhead (token v)).read (v.toList ++ zs ++ t) = .error (v.toList ++ zs ++ t) := by
    simp only [notAhead, read_token (List.append_assoc v.toList zs t)]
  refine ⟨_, (read_bind_of_ok (read_token ?_)).trans (read_bind_of_error hnot)⟩
  simp [← hzs]

/-- The signs between operands are neither steps nor assignments. -/
theorem refuses_infix (ls : List Lexeme) (hw : w ∈ infixSigns) :
    Refuses (Lays (sign w :: ls)) identifier ∧ Refuses (Lays (sign w :: ls)) increment ∧
      Refuses (Lays (sign w :: ls)) assignOp := by
  have hall : ∀ v ∈ infixSigns, (∀ c ∈ v.toList.head?, isIdentStart c = false) ∧
      (∀ u ∈ ["++", "--", "+=", "-=", "*=", "/="], ¬ u.toList <+: v.toList) ∧
      (¬ "=".toList <+: v.toList ∨ "=".toList ++ "=".toList <+: v.toList) := by decide
  obtain ⟨hstart, hsigns, hset⟩ := hall w hw
  refine ⟨refuses_identifier_sign hstart,
    refuses_increment_sign (hsigns _ (by decide)) (hsigns _ (by decide)), ?_⟩
  have hsingle : Refuses (Lays (sign w :: ls)) (singleAs "=" AssignOp.set) := by
    rcases hset with hset | hset
    · exact (refuses_token_sign hset (by decide)).bind
    · exact refuses_singleAs_sign _ hset
  exact .orElse (refuses_token_sign (hsigns _ (by decide)) (by decide)).bind
    (.orElse (refuses_token_sign (hsigns _ (by decide)) (by decide)).bind
      (.orElse (refuses_token_sign (hsigns _ (by decide)) (by decide)).bind
        (.orElse (refuses_token_sign (hsigns _ (by decide)) (by decide)).bind hsingle)))

/-- What starts like an expression starts no statement of another kind. -/
theorem refuses_of_led (expr : Rule Expr) (h : Led ls) :
    Refuses (At ls) (declaration expr) ∧ Refuses (At ls) Grammar.step ∧
    Refuses (At ls) (assignment expr) := by
  have hstart {l : Lexeme} {ls : List Lexeme} (hid : ∀ c, l.Starts c → isIdentStart c = false)
      (hinc : Refuses (Lays (l :: ls)) increment) :
      Refuses (At (l :: ls)) (declaration expr) ∧ Refuses (At (l :: ls)) Grammar.step ∧
        Refuses (At (l :: ls)) (assignment expr) :=
    ⟨refuses_declaration (refuses_start refuses_declarationWord hid),
      refuses_step (refuses_start refuses_identifier hid) hinc,
      refuses_assignment (refuses_start refuses_identifier hid)⟩
  match ls, h with
  | [.name x], _ =>
    have hnil {α : Type} {p : Rule α} {cls : Char → Bool} (h : Refuses (Stops cls) p) :
      Refuses (Lays []) p :=
      h.mono fun s hs => by
        cases hs
        exact .nil
    exact ⟨refuses_declaration_name (hnil refuses_identifier),
      refuses_step_name (hnil refuses_increment), refuses_assignment_name (hnil refuses_assignOp)⟩
  | .name x :: sign w :: ls, h =>
    obtain ⟨hid, hinc, hop⟩ := refuses_infix ls h
    exact ⟨refuses_declaration_name hid, refuses_step_name hinc, refuses_assignment_name hop⟩
  | sign w :: ls, h =>
    have hall : ∀ v ∈ prefixSigns, (∀ c ∈ v.toList.head?, isIdentStart c = false) ∧
        ¬ "++".toList <+: v.toList ∧ ¬ "--".toList <+: v.toList := by decide
    obtain ⟨hid, hup, hdown⟩ := hall w h
    exact hstart hid (refuses_increment_sign hup hdown)
  | .number x :: ls, _ =>
    refine hstart (fun c hc => ?_) (refuses_start refuses_increment fun c hc => ?_)
    · have hdigit : c.isDigit = true := hc
      rw [Bool.eq_false_iff]
      intro hid
      rw [(toNat_of_isIdentStart hid).2.2] at hdigit
      cases hdigit
    · have hdigit := (isDigit_iff c).1 hc
      rw [Bool.or_eq_false_iff, beq_eq_false_iff_ne, beq_eq_false_iff_ne]
      constructor <;> (rintro rfl; simp at hdigit)
  | .string s :: ls, _ =>
    refine hstart (fun c hc => ?_) (refuses_start refuses_increment fun c hc => ?_)
    · cases hc
      decide
    · cases hc
      decide

/-! ### Statements -/

theorem leads_declarationWord {m : Lexeme} (hw : w ∈ declarationWords) :
    Leads (Lays (name w :: m :: ls)) (before declarationWord spaces1) (Lays (m :: ls))
    (pure ()) := by
  intro s hs
  have hword : ∀ t, declarationWord.read (w.toList ++ ' ' :: t) = .ok () (' ' :: t) := by
    intro t
    simp only [declarationWords, List.mem_cons, List.not_mem_nil, or_false] at hw
    rcases hw with rfl | rfl | rfl <;> rfl
  cases hs with
  | cons hx hs =>
    cases hx
    refine ⟨_, hs, (read_bind_of_ok (hword _)).trans ?_⟩
    have hspaces := read_spaces1 (s := [' ']) hs.stops_isSpace (by simp) (by decide)
    exact (read_bind_of_ok hspaces).trans rfl

variable {e : Expr} {q : Step} {o : AssignOp}

theorem leads_declaration (hw : w ∈ declarationWords) (he : Leads (At ls) expr (At rest) (pure e)) :
    Leads (At (name w :: name x :: sign "=" :: ls)) (declaration expr) (At rest)
    (pure (.declare x e)) := by
  refine (leads_spaced ((leads_declarationWord hw).mono_right fun _ => Lays.at)).bind ?_
  exact leads_identifier.bind ((leads_sign "=" ls).bind (he.bind (.refl _ _)))

theorem leads_increment : Leads (Lays (sign q.sign :: ls)) increment (At ls) (pure q) := by
  cases q with
  | up => exact (leads_tokenAs (w := "++") _).orElse
  | down => exact leads_skip (w := "--") (by decide) (by decide) (leads_tokenAs _)

theorem leads_stepAfter :
    Leads (At (name x :: sign q.sign :: ls)) Grammar.step (At ls) (pure (.step x q)) := by
  refine Leads.orElse ?_
  refine ((leads_spaced leads_identifier).mono_right fun _ => Lays.at).bind ?_
  exact ((leads_spaced leads_increment).mono_right fun _ => Lays.at).bind (.refl _ _)

theorem leads_stepBefore :
    Leads (At (sign q.sign :: name x :: ls)) Grammar.step (At ls) (pure (.step x q)) := by
  have hid : Refuses (Lays (sign q.sign :: name x :: ls)) identifier :=
    refuses_identifier_sign (by cases q <;> decide)
  refine (refuses_spaced hid).bind.orElse_leads ?_
  refine ((leads_spaced leads_increment).mono_right fun _ => Lays.at).bind ?_
  exact ((leads_spaced leads_identifier).mono_right fun _ => Lays.at).bind (.refl _ _)

theorem leads_assignOp : Leads (Lays (sign o.sign :: ls)) assignOp (At ls) (pure o) := by
  cases o with
  | add => exact (leads_tokenAs (w := "+=") _).orElse
  | sub => exact leads_skip (w := "-=") (by decide) (by decide) (leads_tokenAs _).orElse
  | mul =>
    refine leads_skip (w := "*=") (by decide) (by decide) (leads_skip (by decide) (by decide) ?_)
    exact (leads_tokenAs _).orElse
  | div =>
    refine leads_skip (w := "/=") (by decide) (by decide) (leads_skip (by decide) (by decide) ?_)
    exact leads_skip (by decide) (by decide) (leads_tokenAs _).orElse
  | set =>
    refine leads_skip (w := "=") (by decide) (by decide) (leads_skip (by decide) (by decide) ?_)
    refine leads_skip (by decide) (by decide) (leads_skip (by decide) (by decide) ?_)
    exact leads_singleAs _ (by decide) (by decide)

theorem leads_assignment (he : Leads (At ls) expr (At rest) (pure e)) :
    Leads (At (name x :: sign o.sign :: ls)) (assignment expr) (At rest)
    (pure (.assign x o e)) := by
  refine ((leads_spaced leads_identifier).mono_right fun _ => Lays.at).bind ?_
  exact ((leads_spaced leads_assignOp).mono_right fun _ => Lays.at).bind (he.bind (.refl _ _))

/-- What may stand behind a statement: nothing or a semicolon. -/
inductive Closing : List Lexeme → Prop
  | nil : Closing []
  | semicolon (ls : List Lexeme) : Closing (sign ";" :: ls)

theorem Closing.ends (h : Closing rest) : Ends 0 rest := by
  cases h with
  | nil => exact ends_nil 0
  | semicolon => exact ends_sign (by decide)

theorem Closing.led (h : Closing rest) (hls : Led ls) : Led (ls ++ rest) := by
  cases h with
  | nil => rwa [List.append_nil]
  | semicolon => exact hls.append (by decide) _

/-- Every statement is read by the rule for its kind, and none of the rules before that one reads
it. -/
theorem leads_statement (hexpr : ReadsBelow expr n) {st : Stmt} (hst : st.Printable)
    (hls : st.Writes ls) (hlen : ls.length < n) (hrest : Closing rest) :
    Leads (At (ls ++ rest)) (statement expr) (At rest) (pure st) := by
  cases hls with
  | declare hw name init =>
    simp only [List.length_cons] at hlen
    exact (leads_declaration hw (hexpr.reads hst.2 (by omega) _ hrest.ends)).orElse
  | assign name op rhs =>
    simp only [List.length_cons] at hlen
    have hop : (∀ c ∈ op.sign.toList.head?, isIdentStart c = false) ∧
      ¬ "++".toList <+: op.sign.toList ∧
        ¬ "--".toList <+: op.sign.toList := by cases op <;> decide
    refine (refuses_declaration_name (refuses_identifier_sign hop.1)).orElse_leads ?_
    refine (refuses_step_name (refuses_increment_sign hop.2.1 hop.2.2)).orElse_leads
      (Leads.orElse ?_)
    exact leads_assignment (hexpr.reads hst.2 (by omega) _ hrest.ends)
  | stepAfter name direction =>
    have hd : ∀ c ∈ direction.sign.toList.head?, isIdentStart c = false := by
      cases direction <;> decide
    exact (refuses_declaration_name (refuses_identifier_sign hd)).orElse_leads
      leads_stepAfter.orElse
  | stepBefore y direction =>
    have hd : ∀ c ∈ direction.sign.toList.head?, isIdentStart c = false := by
      cases direction <;> decide
    have hword : Refuses (Lays (sign direction.sign :: name y :: rest)) declarationWord :=
      refuses_start refuses_declarationWord hd
    exact (refuses_declaration hword).orElse_leads leads_stepBefore.orElse
  | expr e =>
    obtain ⟨hdeclare, hstep, hassign⟩ := refuses_of_led expr (hrest.led (led_lexemes e))
    refine hdeclare.orElse_leads (hstep.orElse_leads (hassign.orElse_leads ?_))
    exact (hexpr.reads hst hlen _ hrest.ends).bind (.refl _ _)

/-! ### Headers -/

theorem Closing.stops (h : Closing rest) {s : List Char} (hs : Lays rest s) {cls : Char → Bool}
    (hcls : cls ';' = false) : Stops cls s := by
  cases h with
  | nil =>
    cases hs
    exact .nil
  | semicolon =>
    refine hs.stops fun c hc => ?_
    cases hc
    exact hcls

theorem Closing.refuses_expr (h : Closing rest) (hexpr : ReadsBelow expr n) :
    Refuses (At rest) expr :=
  hexpr.refuses.mono fun _ hs => h.stops hs (by decide)

theorem Closing.refuses_statement (h : Closing rest) (hexpr : ReadsBelow expr n) :
    Refuses (At rest) (statement expr) := by
  have hid : Refuses (Lays rest) identifier := refuses_identifier.mono fun _ hs =>
    h.stops hs (by decide)
  have hword : Refuses (Lays rest) declarationWord := refuses_declarationWord.mono fun _ hs =>
    h.stops hs (by decide)
  have hinc : Refuses (Lays rest) increment := refuses_increment.mono fun _ hs =>
    h.stops hs (by decide)
  exact .orElse (refuses_declaration hword) (.orElse (refuses_step hid hinc)
    (.orElse (refuses_assignment hid) (h.refuses_expr hexpr).bind))

theorem leads_optionalStatement (hexpr : ReadsBelow expr n) {st : Option Stmt}
    (hst : ∀ s ∈ st, s.Printable) (hls : WritesOptional Stmt.Writes st ls) (hlen : ls.length < n)
    (hrest : Closing rest) :
    Leads (At (ls ++ rest)) (optional (statement expr)) (At rest) (pure st) := by
  cases hls with
  | none => exact (hrest.refuses_statement hexpr).optional
  | some h => exact (leads_statement hexpr (hst _ rfl) h hlen hrest).optional

theorem leads_optionalTest (hexpr : ReadsBelow expr n) {test : Option Expr}
    (htest : ∀ e ∈ test, e.Printable) (hls : WritesOptional (fun e ls => ls = e.lexemes) test ls)
    (hlen : ls.length < n) (hrest : Closing rest) :
    Leads (At (ls ++ rest)) (optional expr) (At rest) (pure test) := by
  cases hls with
  | none => exact (hrest.refuses_expr hexpr).optional
  | some h =>
    subst h
    exact (hexpr.reads (htest _ rfl) hlen _ hrest.ends).optional

theorem leads_loopHeader (hexpr : ReadsBelow expr n) {h : LoopHeader} (hh : h.Printable)
    (hls : h.Writes ls) (hlen : ls.length < n) :
    Leads (At ls) (loopHeader expr) (Lays []) (pure h) := by
  cases hls with
  | @mk init step test is ts ss hinit htest hstep =>
    simp only [List.length_append, List.length_cons] at hlen
    have hreadInit :=
      leads_optionalStatement hexpr hh.init hinit (by omega) (.semicolon (ts ++ sign ";" :: ss))
    have hreadTest := leads_optionalTest hexpr hh.test htest (by omega) (.semicolon ss)
    have hreadStep := leads_optionalStatement hexpr hh.step hstep (by omega) .nil
    rw [List.append_nil] at hreadStep
    have hspaces : Leads (At []) spaces (Lays []) (pure ()) := fun s hs => ⟨skipSpaces s, hs, rfl⟩
    exact hreadInit.bind ((leads_sign ";" _).bind (hreadTest.bind ((leads_sign ";" _).bind
      (hreadStep.bind (hspaces.bind (.refl _ _))))))

/-- The text of an expression starts with a character that is no blank. -/
theorem Led.stops_isBlank (h : Led ls) {s : List Char} (hs : Lays ls s) : Stops isBlank s := by
  match ls, h with
  | .name x :: ls, _ => exact hs.stops fun c hc => isBlank_of_isIdentStart hc
  | sign w :: ls, h =>
    have hall : ∀ v ∈ prefixSigns, ∀ c ∈ v.toList.head?, isBlank c = false := by decide
    exact hs.stops fun c hc => hall w h c hc
  | .number x :: ls, _ =>
    refine hs.stops fun c hc => ?_
    have hdigit := (isDigit_iff c).1 hc
    exact isBlank_of_printable (by omega) (by omega)
  | .string s :: ls, _ =>
    refine hs.stops fun c hc => ?_
    cases hc
    decide

theorem Led.ne_nil (h : Led ls) {s : List Char} (hs : Lays ls s) : s ≠ [] := by
  rintro rfl
  cases ls with
  | nil => exact h
  | cons l ls =>
    obtain ⟨c, cs, hcs, -⟩ := hs.exists_cons
    cases hcs

end Grammar

/-- A loop header is read back from each of its texts. -/
theorem LoopHeader.parse_of_prints {h : LoopHeader} (hh : h.Printable) {text : String}
    (ht : h.Prints text) :
    LoopHeader.parse text = .ok h := by
  obtain ⟨ls, hls, hlays⟩ := ht
  have hlen : ls.length < text.length + 1 := by
    have := hlays.length_le
    rw [String.length_toList] at this
    omega
  have hexpr := Grammar.readsBelow_expression (text.length + 1)
  obtain ⟨r, hr, hread⟩ := Grammar.leads_loopHeader hexpr hh hls hlen _ hlays.at
  cases hr
  have hok : (Grammar.loopHeader (Grammar.expression (text.length + 1))).read text.toList =
    .ok h [] := hread
  unfold LoopHeader.parse Grammar.readAll
  simp only [Rule.whole, hok]

/-! ### Every header has texts -/

section Spelled

open LiveMarkup.Expr (Spelled spelled_cons_iff spelled_append_iff spelled_nil exists_spells_sign)

variable {ls : List Lexeme}

theorem isIdentifier_of_declarationWords {w : String} (hw : w ∈ declarationWords) :
    IsIdentifier w := by
  simp only [declarationWords, List.mem_cons, List.not_mem_nil, or_false] at hw
  rcases hw with rfl | rfl | rfl <;> decide

theorem Stmt.Writes.spelled {st : Stmt} (h : st.Writes ls) (hst : st.Printable) : Spelled ls := by
  cases h with
  | declare hw name init =>
    rw [spelled_cons_iff, spelled_cons_iff, spelled_cons_iff]
    exact ⟨⟨_, .name (isIdentifier_of_declarationWords hw)⟩, ⟨_, .name hst.1⟩,
      exists_spells_sign (by decide), Expr.spelled init hst.2⟩
  | assign name op rhs =>
    rw [spelled_cons_iff, spelled_cons_iff]
    exact ⟨⟨_, .name hst.1⟩, exists_spells_sign (by cases op <;> decide), Expr.spelled rhs hst.2⟩
  | stepAfter name direction =>
    rw [spelled_cons_iff, spelled_cons_iff]
    exact ⟨⟨_, .name hst⟩, exists_spells_sign (by cases direction <;> decide), spelled_nil⟩
  | stepBefore name direction =>
    rw [spelled_cons_iff, spelled_cons_iff]
    exact ⟨exists_spells_sign (by cases direction <;> decide), ⟨_, .name hst⟩, spelled_nil⟩
  | expr e => exact Expr.spelled e hst

theorem Stmt.exists_writes (st : Stmt) : ∃ ls, st.Writes ls := by
  cases st with
  | declare name init => exact ⟨_, .declare (w := "let") (by decide) name init⟩
  | assign name op rhs => exact ⟨_, .assign name op rhs⟩
  | step name direction => exact ⟨_, .stepAfter name direction⟩
  | expr e => exact ⟨_, .expr e⟩

theorem WritesOptional.spelled {α : Type} {W : α → List Lexeme → Prop} {o : Option α}
    (h : WritesOptional W o ls) (hW : ∀ a ∈ o, W a ls → Spelled ls) : Spelled ls := by
  cases h with
  | none => exact spelled_nil
  | some ha => exact hW _ rfl ha

theorem exists_writesOptional {α : Type} {W : α → List Lexeme → Prop} (hW : ∀ a, ∃ ls, W a ls)
    (o : Option α) :
    ∃ ls, WritesOptional W o ls := by
  cases o with
  | none => exact ⟨[], .none⟩
  | some a =>
    obtain ⟨ls, hls⟩ := hW a
    exact ⟨ls, .some hls⟩

theorem LoopHeader.Writes.spelled {h : LoopHeader} (hls : h.Writes ls) (hh : h.Printable) :
    Spelled ls := by
  cases hls with
  | mk hinit htest hstep =>
    rw [spelled_append_iff, spelled_cons_iff, spelled_append_iff, spelled_cons_iff]
    refine ⟨hinit.spelled fun st hst hw => hw.spelled (hh.init st hst),
      exists_spells_sign (by decide), ?_, exists_spells_sign (by decide),
      hstep.spelled fun st hst hw => hw.spelled (hh.step st hst)⟩
    refine htest.spelled fun e he hw => ?_
    subst hw
    exact Expr.spelled e (hh.test e he)

theorem LoopHeader.exists_writes (h : LoopHeader) : ∃ ls, h.Writes ls := by
  obtain ⟨init, test, step⟩ := h
  obtain ⟨is, hinit⟩ := exists_writesOptional Stmt.exists_writes init
  obtain ⟨ts, htest⟩ :=
    exists_writesOptional (W := fun e ls => ls = Expr.lexemes e) (fun e => ⟨_, rfl⟩) test
  obtain ⟨ss, hstep⟩ := exists_writesOptional Stmt.exists_writes step
  exact ⟨_, .mk hinit htest hstep⟩

end Spelled

/-- A loop header can be written, each way of writing it has a text, and each of these texts is read
as this very header.  A variable may have any identifier as its name, also one that is a word of the
grammar. -/
theorem LoopHeader.parse_printed (h : LoopHeader) (hh : h.Printable) :
    (∃ ls, h.Writes ls) ∧ (∀ ls, h.Writes ls → ∃ text : String, Lexeme.Lays ls text.toList) ∧
      ∀ text, h.Prints text → LoopHeader.parse text = .ok h := by
  refine ⟨h.exists_writes, fun ls hls => ?_, fun text => parse_of_prints hh⟩
  obtain ⟨s, hs⟩ := Lexeme.exists_lays (hls.spelled hh)
  refine ⟨String.ofList s, ?_⟩
  rwa [String.toList_ofList]

/-- Variables with the names `let`, `true` and `null`, and a sum with a sign of its own that is no
step. -/
theorem LoopHeader.parse_printed_words :
    ∃ h : LoopHeader,
      h = ⟨some (.declare "let" (.binary .add (.ident "let") (.unary .plus (.ident "var")))),
        some (.binary .strictEq (.ident "const") (.literal .null)),
        some (.assign "true" .sub (.ident "n"))⟩ ∧
      h.Printable ∧ h.Prints "let let = let + + var ; const === null ; true -= n" ∧
      LoopHeader.parse "let let = let + + var ; const === null ; true -= n" = .ok h := by
  refine ⟨_, rfl, ?_⟩
  generalize hh : LoopHeader.mk _ _ _ = h
  have hprintable : h.Printable := by
    subst hh
    refine ⟨?_, ?_, ?_⟩ <;> rintro _ ⟨⟩
    · exact ⟨by decide, show IsName "let" by decide, show IsName "var" by decide⟩
    · exact ⟨show IsName "const" by decide, trivial⟩
    · exact ⟨by decide, show IsName "n" by decide⟩
  have hprints : h.Prints "let let = let + + var ; const === null ; true -= n" := by
    subst hh
    refine ⟨_, .mk (.some (.declare (w := "let") (by decide) _ _)) (.some rfl)
      (.some (.assign _ _ _)), ?_⟩
    refine .cons (w := ['l', 'e', 't']) (.name (s := "let") (by decide)) ?_
    refine .cons (w := ['l', 'e', 't']) (.name (s := "let") (by decide)) ?_
    refine .cons (w := ['=']) (.sign (w := "=") (by decide) (by decide)) ?_
    refine .cons (w := ['l', 'e', 't']) (.name (s := "let") (by decide)) ?_
    refine .cons (w := ['+']) (.sign (w := "+") (by decide) (by decide)) ?_
    refine .cons (w := ['+']) (.sign (w := "+") (by decide) (by decide)) ?_
    refine .cons (w := ['v', 'a', 'r']) (.name (s := "var") (by decide)) ?_
    refine .cons (w := [';']) (.sign (w := ";") (by decide) (by decide)) ?_
    refine .cons (w := ['c', 'o', 'n', 's', 't']) (.name (s := "const") (by decide)) ?_
    refine .cons (w := ['=', '=', '=']) (.sign (w := "===") (by decide) (by decide)) ?_
    refine .cons (w := ['n', 'u', 'l', 'l']) (.name (s := "null") (by decide)) ?_
    refine .cons (w := [';']) (.sign (w := ";") (by decide) (by decide)) ?_
    refine .cons (w := ['t', 'r', 'u', 'e']) (.name (s := "true") (by decide)) ?_
    refine .cons (w := ['-', '=']) (.sign (w := "-=") (by decide) (by decide)) ?_
    exact .last (w := ['n']) (.name (s := "n") (by decide))
  exact ⟨hprintable, hprints, (LoopHeader.parse_printed h hprintable).2.2 _ hprints⟩

end LiveMarkup
