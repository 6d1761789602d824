import LiveMarkup.Proofs.Expr.Print
import LiveMarkup.Proofs.Grammar.Leads

/-!
# Reading lexemes

A rule that reads a lexeme off a layout of lexemes leaves a layout of the others, possibly with
spaces in front (`Lexeme.At`).  What stands behind a lexeme is a `Gap`, the end or a space, and so
no rule reads on beyond it: a sign is not taken for a longer one, and a number and a name end where
their lexeme ends.
-/

namespace LiveMarkup

/-- Whether a text is empty or starts with a space. -/
def Gap (s : List Char) : Prop := Stops (fun c => c != ' ') s

namespace Gap

variable {s : List Char}

theorem nil : Gap [] := Stops.nil

theorem cons (s : List Char) : Gap (' ' :: s) := Stops.cons (by decide) s

/-- A class without the space does not go on into a gap. -/
theorem stops (h : Gap s) {p : Char → Bool} (hp : p ' ' = false) : Stops p s := by
  refine Stops.mono h fun c hc => ?_
  rw [bne_iff_ne]
  rintro rfl
  rw [hp] at hc
  cases hc

/-- A text that is not the start of another one does not become it by a gap behind it. -/
theorem after?_eq_none (h : Gap s) {p w : List Char} (hpw : ¬ p <+: w) (hp : ' ' ∉ p) :
    after? p (w ++ s) = none := by
  induction p generalizing w with
  | nil => exact absurd List.nil_prefix hpw
  | cons c p ih =>
    rw [List.mem_cons, not_or] at hp
    cases w with
    | nil =>
      cases s with
      | nil => rfl
      | cons d s =>
        refine if_neg ?_
        rintro rfl
        have hd : (c != ' ') = false := h c rfl
        rw [bne_eq_false_iff_eq] at hd
        exact hp.1 hd.symm
    | cons d w =>
      by_cases hcd : c = d
      · subst hcd
        rw [List.prefix_cons_inj] at hpw
        exact (if_pos rfl).trans (ih hpw hp.2)
      · exact if_neg hcd

end Gap

/-! ### Identifiers -/

theorem isIdentPart_of_isIdentStart {c : Char} (h : Grammar.isIdentStart c = true) :
    Grammar.isIdentPart c = true := by
  simp only [Grammar.isIdentStart, Bool.or_eq_true] at h
  rcases h with (h | h) | h <;> simp [Grammar.isIdentPart, Char.isAlphanum, h]

theorem IsIdentifier.isIdentPart {s : String} (h : IsIdentifier s) : ∀ c ∈ s.toList,
    Grammar.isIdentPart c = true := by
  obtain ⟨c, cs, hs, hc, hcs⟩ := h
  rw [hs]
  exact List.forall_mem_cons.2 ⟨isIdentPart_of_isIdentStart hc, hcs⟩

/-- A name has printable ASCII characters. -/
theorem toNat_of_isIdentPart {c : Char} (h : Grammar.isIdentPart c = true) : 32 < c.toNat ∧
    c.toNat < 127 := by
  simp only [Grammar.isIdentPart, Char.isAlphanum, Bool.or_eq_true, isAlpha_iff, isDigit_iff,
    beq_iff_eq] at h
  rcases h with (h | rfl) | rfl
  · omega
  · decide
  · decide

theorem IsIdentifier.toNat_lt {s : String} (h : IsIdentifier s) : ∀ c ∈ s.toList, c.toNat < 128 :=
  fun c hc => Nat.lt_succ_of_lt (toNat_of_isIdentPart (h.isIdentPart c hc)).2

theorem isBlank_of_isIdentPart {c : Char} (h : Grammar.isIdentPart c = true) : isBlank c = false :=
  isBlank_of_printable (toNat_of_isIdentPart h).1 (toNat_of_isIdentPart h).2

theorem isSpace_of_isBlank {c : Char} (h : isBlank c = false) : isSpace c = false := by
  rw [Bool.eq_false_iff]
  intro hspace
  rw [isBlank_of_isSpace hspace] at h
  cases h

/-! ### Decimal literals -/

section Decimal

open Rule Grammar

variable {ds fs es t : List Char}

theorem IsFraction.stops (h : IsFraction fs) (ht : Stops Char.isDigit t) :
    Stops Char.isDigit (fs ++ t) := by
  cases h with
  | absent => exact ht
  | point => exact .cons (by decide) _

theorem IsExponent.stops (h : IsExponent es) (ht : Gap t) {p : Char → Bool} (he : p 'e' = false)
    (hE : p 'E' = false) (hs : p ' ' = false) : Stops p (es ++ t) := by
  cases h with
  | absent => exact ht.stops hs
  | power h =>
    refine .cons ?_ _
    rcases h with rfl | rfl
    · exact he
    · exact hE

/-- The digits of a fraction are those behind the point. -/
theorem IsFraction.read (h : IsFraction fs) (ht : Stops Char.isDigit t) (ht' : Stops (· == '.') t) :
    ∃ x, (optional fraction).read (fs ++ t) = .ok x t ∧
      (x = none ∧ fs = [] ∨ ∃ ds, x = some ds ∧ fs = '.' :: ds) := by
  cases h with
  | absent =>
    obtain ⟨r, hr⟩ := refuses_token (w := ".") (d := '.') (by decide) (by decide) t ht'
    exact ⟨none, read_optional_of_error (read_bind_of_error hr), .inl ⟨rfl, rfl⟩⟩
  | @point ds hds =>
    refine ⟨some ds, read_optional_of_ok ?_, .inr ⟨ds, rfl, rfl⟩⟩
    exact (read_bind_of_ok (read_token (w := ".") rfl)).trans (read_run ht hds)

/-- An exponent is read up to the gap behind it, with the value that it has at the end of a
number. -/
theorem IsExponent.read (h : IsExponent es) (ht : Gap t) :
    ∃ x, readExponent? es = some (x.getD 0) ∧ (optional exponent).read (es ++ t) = .ok x t := by
  cases h with
  | absent =>
    obtain ⟨r, hr⟩ := refuses_one (c := fun c => c == 'e' || c == 'E') t (ht.stops (by decide))
    exact ⟨none, rfl, read_optional_of_error (read_bind_of_error hr)⟩
  | @power e sign ds he hsign hne hds =>
    have hall : ds.all Char.isDigit = true := List.all_eq_true.2 hds
    have hletter : (fun c => c == 'e' || c == 'E') e = true := by
      rcases he with rfl | rfl <;> rfl
    have hdigits := read_run1_eq_ok_iff.2 ⟨hne, hds, ht.stops (by decide), rfl⟩
    have hsigned : Stops (fun c => c == '+' || c == '-') (ds ++ t) := by
      obtain ⟨c, r, rfl⟩ := List.exists_cons_of_ne_nil hne
      refine .cons ?_ _
      have hc := (isDigit_iff c).1 (hds c List.mem_cons_self)
      rw [Bool.or_eq_false_iff, beq_eq_false_iff_ne, beq_eq_false_iff_ne]
      constructor <;> (rintro rfl; simp at hc)
    have hread {x : Option Char}
      (hx : (optional (one fun c => c == '+' || c == '-')).read (sign ++ (ds ++ t)) =
        .ok x (ds ++ t)) : (optional exponent).read (e :: (sign ++ ds) ++ t) =
        .ok (some (if x = some '-' then -(exponentValue ds : Int) else
          (exponentValue ds : Int))) t := by
      rw [List.cons_append, List.append_assoc]
      refine read_optional_of_ok ((read_bind_of_ok (read_one hletter _)).trans ?_)
      exact (read_bind_of_ok hx).trans ((read_bind_of_ok hdigits).trans rfl)
    rcases hsign with rfl | rfl | rfl
    · obtain ⟨r, hr⟩ := refuses_one _ hsigned
      refine ⟨_, ?_, hread (x := none) (read_optional_of_error hr)⟩
      obtain ⟨c, cs, rfl⟩ := List.exists_cons_of_ne_nil hne
      have hc := hsigned c rfl
      refine (if_pos he).trans ?_
      simp only [List.nil_append]
      split
      · rename_i h
        cases h
        cases hc
      · rename_i h
        cases h
        cases hc
      · exact if_pos ⟨hne, hall⟩
    · refine ⟨_, ?_, hread (x := some '+') (read_optional_of_ok (read_one rfl _))⟩
      exact (if_pos he).trans (if_pos ⟨hne, hall⟩)
    · refine ⟨_, ?_, hread (x := some '-') (read_optional_of_ok (read_one rfl _))⟩
      exact (if_pos he).trans (if_pos ⟨hne, hall⟩)

/-- A decimal literal is read up to the gap behind it, as the number that it stands for. -/
theorem IsDecimal.read {cs : List Char} (h : IsDecimal cs) (ht : Gap t) :
    ∃ x, readUnsigned? cs = some x ∧ number.read (cs ++ t) = .ok x t := by
  obtain ⟨hne, hds, hfs, hes⟩ := h
  rename_i ds fs es
  obtain ⟨e, he, hreadE⟩ := hes.read ht
  have hdigits : Stops Char.isDigit es := by
    simpa using hes.stops .nil (p := Char.isDigit) (by decide) (by decide) (by decide)
  have hspan : spanDigits (ds ++ (fs ++ es)) = (ds, fs ++ es) := by
    unfold spanDigits
    rw [(hfs.stops hdigits).takeWhile_append hds, (hfs.stops hdigits).dropWhile_append hds]
  have hreadDs := read_run1_eq_ok_iff.2
    ⟨hne, hds, hfs.stops (hes.stops ht (by decide) (by decide) (by decide)), rfl⟩
  obtain ⟨f, hreadF, hf⟩ := hfs.read (hes.stops ht (by decide) (by decide) (by decide))
    (hes.stops ht (by decide) (by decide) (by decide))
  refine ⟨ofDigits (ds ++ f.getD []) (e.getD 0 - ((f.getD []).length : Int)), ?_, ?_⟩
  · have hread : readUnsigned? (ds ++ (fs ++ es)) =
        (readExponent? es).map fun e =>
        ofDigits (ds ++ f.getD []) (e - ((f.getD []).length : Int)) := by
      simp only [readUnsigned?, hspan]
      rcases hf with ⟨rfl, rfl⟩ | ⟨fd, rfl, rfl⟩
      · have hpoint : Stops (· == '.') es := by
          simpa using hes.stops .nil (p := (· == '.')) (by decide) (by decide) (by decide)
        rw [List.nil_append]
        split
        · cases hpoint '.' rfl
        · simp [hne]
      · cases hfs with
        | point hfd =>
          have hspan' : spanDigits (fd ++ es) = (fd, es) := by
            unfold spanDigits
            rw [hdigits.takeWhile_append hfd, hdigits.dropWhile_append hfd]
          simp [hspan', hne]
    rw [hread, he]
    rfl
  · rw [List.append_assoc, List.append_assoc]
    exact (read_bind_of_ok hreadDs).trans ((read_bind_of_ok hreadF).trans
      ((read_bind_of_ok hreadE).trans rfl))

end Decimal

namespace Lexeme

open Rule Grammar

variable {l : Lexeme} {ls ls' : List Lexeme} {s t w : List Char}

/-! ### Layouts -/

/-- The first characters of the texts of a lexeme. -/
def Starts : Lexeme → Char → Prop
  | number _, c => c.isDigit = true
  | string _, c => c = '"'
  | name _, c => isIdentStart c = true
  | sign w, c => w.toList.head? = some c

theorem Spells.exists_cons (h : l.Spells w) : ∃ c cs, w = c :: cs ∧ l.Starts c ∧
    isSpace c = false := by
  cases h with
  | number hcs =>
    obtain ⟨hne, hds, -, -⟩ := hcs
    obtain ⟨c, cs, rfl⟩ := List.exists_cons_of_ne_nil hne
    have hc := hds c List.mem_cons_self
    have hn := (isDigit_iff c).1 hc
    exact ⟨c, _, rfl, hc, isSpace_of_isBlank (isBlank_of_printable (by omega) (by omega))⟩
  | string s => exact ⟨'"', _, rfl, rfl, by decide⟩
  | name hs =>
    obtain ⟨c, cs, hw, hc, -⟩ := hs
    exact ⟨c, cs, hw, hc, (nameHead_cons hc cs).space c rfl⟩
  | @sign w hne hw =>
    obtain ⟨c, cs, hcs⟩ := List.exists_cons_of_ne_nil (l := w.toList) (by simpa using hne)
    refine ⟨c, cs, hcs, ?_, hw c ?_⟩
    · rw [Starts, hcs]
      rfl
    · rw [hcs]
      exact List.mem_cons_self

/-- The texts of lexemes with spaces in front. -/
def At (ls : List Lexeme) (s : List Char) : Prop := Lays ls (skipSpaces s)

/-- A layout starts like its first lexeme. -/
theorem Lays.exists_cons (h : Lays (l :: ls) s) : ∃ c cs, s = c :: cs ∧ l.Starts c ∧
    isSpace c = false := by
  cases h with
  | last hw => exact hw.exists_cons
  | cons hw =>
    obtain ⟨c, cs, rfl, hc, hspace⟩ := hw.exists_cons
    exact ⟨c, _, rfl, hc, hspace⟩

theorem Lays.stops (h : Lays (l :: ls) s) {p : Char → Bool} (hp : ∀ c, l.Starts c → p c = false) :
    Stops p s := by
  obtain ⟨c, cs, rfl, hc, -⟩ := h.exists_cons
  exact .cons (hp c hc) cs

theorem Lays.stops_isSpace (h : Lays ls s) : Stops isSpace s := by
  cases ls with
  | nil =>
    cases h
    exact .nil
  | cons l ls =>
    obtain ⟨c, cs, rfl, -, hspace⟩ := h.exists_cons
    exact .cons hspace cs

theorem Lays.skipSpaces_eq (h : Lays ls s) : skipSpaces s = s := by
  have hskip := h.stops_isSpace.dropWhile_append (s := []) (by simp)
  rwa [List.nil_append] at hskip

theorem Lays.at (h : Lays ls s) : At ls s := by
  rw [At, h.skipSpaces_eq]
  exact h

theorem at_cons_iff {c : Char} (hc : isSpace c = true) : At ls (c :: s) ↔ At ls s := by
  rw [At, At, skipSpaces, skipSpaces, List.dropWhile_cons_of_pos hc]

/-- A layout is a text of its first lexeme, a gap and the others. -/
theorem Lays.split (h : Lays (l :: ls) s) : ∃ w t, s = w ++ t ∧ l.Spells w ∧ Gap t ∧ At ls t := by
  cases h with
  | last hw => exact ⟨s, [], (List.append_nil s).symm, hw, .nil, Lays.nil.at⟩
  | cons hw hs => exact ⟨_, _, rfl, hw, .cons _, (at_cons_iff (by decide)).2 hs.at⟩

theorem Lays.length_le (h : Lays ls s) : ls.length ≤ s.length := by
  induction h with
  | nil => exact Nat.le_refl _
  | last hw =>
    obtain ⟨c, cs, rfl, -, -⟩ := hw.exists_cons
    exact Nat.succ_le_succ (Nat.zero_le _)
  | cons hw _ ih =>
    obtain ⟨c, cs, rfl, -, -⟩ := hw.exists_cons
    simp only [List.length_cons, List.length_append] at ih ⊢
    omega

/-- Where every lexeme has a text, so have all of them together. -/
theorem exists_lays (h : ∀ l ∈ ls, ∃ w, l.Spells w) : ∃ s, Lays ls s := by
  induction ls with
  | nil => exact ⟨[], .nil⟩
  | cons l ls ih =>
    rw [List.forall_mem_cons] at h
    obtain ⟨w, hw⟩ := h.1
    obtain ⟨s, hs⟩ := ih h.2
    cases ls with
    | nil => exact ⟨w, .last hw⟩
    | cons m ls => exact ⟨_, .cons hw hs⟩

/-! ### Rules between spaces -/

section Spaced

variable {α : Type} {p : Rule α} {a : α}

theorem leads_spaced (h : Leads (Lays ls) p (At ls') (pure a)) :
    Leads (At ls) (spaced p) (Lays ls') (pure a) := by
  intro s hs
  obtain ⟨r, hr, hrs⟩ := h _ hs
  exact ⟨skipSpaces r, hr, read_spaced_of_ok hrs⟩

theorem refuses_spaced (h : Refuses (Lays ls) p) : Refuses (At ls) (spaced p) := by
  intro s hs
  obtain ⟨r, hr⟩ := h _ hs
  exact ⟨r, read_spaced_of_skip_error hr⟩

end Spaced

/-! ### Lexemes of each kind -/

variable {w : String}

theorem leads_token : Leads (Lays (sign w :: ls)) (token w) (At ls) (pure ()) := by
  intro s hs
  obtain ⟨_, t, rfl, hw, -, ht⟩ := hs.split
  cases hw
  exact ⟨t, ht, read_token rfl⟩

/-- A sign is not taken for one that it does not start with. -/
theorem refuses_token_sign {v : String} (hvw : ¬ v.toList <+: w.toList) (hv : ' ' ∉ v.toList) :
    Refuses (Lays (sign w :: ls)) (token v) := by
  intro s hs
  obtain ⟨_, t, rfl, hw, hgap, -⟩ := hs.split
  cases hw
  exact ⟨_, read_token_of_none (hgap.after?_eq_none hvw hv)⟩

/-- Among several rules for signs, one for a sign that does not stand here is passed over. -/
theorem leads_skip {α : Type} {v : String} {f : Unit → Rule α} {p : Rule α} {a : α}
    {Q : List Char → Prop} (hvw : ¬ v.toList <+: w.toList) (hv : ' ' ∉ v.toList)
    (h : Leads (Lays (sign w :: ls)) p Q (pure a)) :
    Leads (Lays (sign w :: ls)) (orElse (token v >>= f) p) Q (pure a) :=
  (refuses_token_sign hvw hv).bind.orElse_leads h

theorem leads_spaced_token : Leads (At (sign w :: ls)) (spaced (token w)) (Lays ls) (pure ()) :=
  leads_spaced leads_token

theorem leads_sign (w : String) (ls : List Lexeme) :
    Leads (At (sign w :: ls)) (spaced (token w)) (At ls) (pure ()) :=
  leads_spaced_token.mono_right fun _ => Lays.at

theorem leads_tokenAs {α : Type} (a : α) :
    Leads (Lays (sign w :: ls)) (tokenAs w a) (At ls) (pure a) :=
  leads_token.map rfl

/-- A single sign is followed by a gap and so is not doubled. -/
theorem leads_singleAs {α : Type} (a : α) (hw : w ≠ "") (hspace : ' ' ∉ w.toList) :
    Leads (Lays (sign w :: ls)) (singleAs w a) (At ls) (pure a) := by
  intro s hs
  obtain ⟨_, t, rfl, h, hgap, ht⟩ := hs.split
  cases h
  have hnone : after? w.toList t = none := hgap.after?_eq_none (w := []) (by simpa using hw) hspace
  have hnot : (notAhead (token w)).read t = .ok () t := by
    simp only [notAhead, read_token_of_none hnone]
  exact ⟨t, ht, (read_bind_of_ok (read_token rfl)).trans ((read_bind_of_ok hnot).trans rfl)⟩

theorem leads_number {x : Float} :
    Leads (Lays (number x :: ls)) Grammar.number (At ls) (pure x) := by
  intro s hs
  obtain ⟨_, t, rfl, h, hgap, ht⟩ := hs.split
  cases h with
  | number hcs hx =>
    obtain ⟨y, hy, hread⟩ := hcs.read hgap
    rw [hx] at hy
    cases hy
    exact ⟨t, ht, hread⟩

theorem readStringBody_quoteChar (cs t : List Char) :
    readStringBody '"' (cs.flatMap quoteChar ++ '"' :: t) = .ok cs t := by
  induction cs with
  | nil =>
    rw [List.flatMap_nil, List.nil_append, readStringBody.eq_def]
    exact if_pos rfl
  | cons c cs ih =>
    rw [List.flatMap_cons, List.append_assoc]
    by_cases hc : c = '"' ∨ c = '\\'
    · have hunescape : unescape c = c := by
        rcases hc with rfl | rfl <;> decide
      rw [quoteChar, if_pos hc, List.cons_append, List.cons_append, List.nil_append,
        readStringBody.eq_def]
      refine (if_neg (by decide)).trans ((if_pos rfl).trans ?_)
      simp only [ih, hunescape, Reply.map]
    · rw [quoteChar, if_neg hc, List.cons_append, List.nil_append, readStringBody.eq_def]
      rw [not_or] at hc
      refine (if_neg hc.1).trans ((if_neg hc.2).trans ?_)
      simp only [ih, Reply.map]

theorem leads_stringLiteral {s : String} :
    Leads (Lays (string s :: ls)) stringLiteral (At ls) (pure s) := by
  intro r hr
  obtain ⟨_, t, rfl, h, -, ht⟩ := hr.split
  cases h
  refine ⟨t, ht, ?_⟩
  have hbody :
    (stringBody '"').read (s.toList.flatMap quoteChar ++ ['"'] ++ t) = .ok s.toList t := by
    rw [List.append_assoc]
    exact readStringBody_quoteChar _ _
  refine (read_bind_of_ok (read_one (by decide) _)).trans ((read_bind_of_ok hbody).trans ?_)
  show Reply.ok (String.ofList s.toList) t = .ok s t
  rw [String.ofList_toList]

theorem leads_identifier {s : String} :
    Leads (Lays (name s :: ls)) identifier (At ls) (pure s) := by
  intro r hr
  obtain ⟨_, t, rfl, h, hgap, ht⟩ := hr.split
  cases h with
  | name hs =>
    obtain ⟨c, cs, hw, hc, hcs⟩ := hs
    refine ⟨t, ht, ?_⟩
    rw [hw]
    refine (read_bind_of_ok (read_one hc _)).trans
      ((read_bind_of_ok (read_run (hgap.stops (by decide)) hcs)).trans ?_)
    show Reply.ok (String.ofList (c :: cs)) t = .ok s t
    rw [← hw, String.ofList_toList]

end Lexeme

end LiveMarkup
