import LiveMarkup.Proofs.Document.Kin
import LiveMarkup.Proofs.Markup.Filled
import Mathlib.Data.List.Forall2

/-!
# Holes in texts and quoted values

Items are `Placed` if all their holes stand in texts or in double-quoted values: tokens without
holes, opening tags with holes in quoted values, and runs of text follow one another.  Texts that
are filled into such items are read token by token in the same way, and so they are read as nodes of
the same make (`Placed.allKin`): what is written in a hole decides which texts there are, and
nothing else.
-/

namespace LiveMarkup

open Item

/-! ### Tokens of the same make -/

namespace Token

/-- Whether a token has neither text nor attributes. -/
def Bare : Token → Prop
  | skipped | endless | closing _ => True
  | text _ | opening .. | leaf _ => False

/-- Tokens that differ at most in text and in the values of attributes. -/
inductive Kin : Token → Token → Prop
  | bare {t : Token} (h : t.Bare) : Kin t t
  | text (s s' : List Char) : Kin (text s) (text s')
  | opening (tag : String) {as as' : List Attr} (hd : Attributes.Distinct as)
    (ha : Attributes.names as = Attributes.names as') : Kin (opening tag as) (opening tag as')
  | leaf {n n' : Node} (h : Node.AllKin [n] [n']) : Kin (leaf n) (leaf n')

variable {total : Nat} {s r : List Char}

theorem startsLoneAngle_of_ne {c : Char} (hc : c ≠ '<') (s : List Char) :
    startsLoneAngle (c :: s) = false := by
  unfold startsLoneAngle
  split
  · rename_i h
    cases h
    exact absurd rfl hc
  · rename_i h
    cases h
    exact absurd rfl hc
  · rfl

theorem skip?_eq_none {ends : Bool} (hc : after? "<!--".toList s = none)
    (hd : after? "<!".toList s = none) :
    skip? ends s = none := by
  simp only [skip?, hc, hd]

theorem next_of_text [EntityCodec] {c : Char} (hc : c ≠ '<') (hs : '<' ∉ s)
    (hr : r = [] ∨ r.head? = some '<') :
    next total true (c :: (s ++ r)) = .ok (text (EntityCodec.decode (c :: s)), r) := by
  have hlone := startsLoneAngle_of_ne hc (s ++ r)
  have hafter (p : List Char) : after? ('<' :: p) (c :: (s ++ r)) = none := if_neg (Ne.symm hc)
  have hskip : skip? true (c :: (s ++ r)) = none := skip?_eq_none (hafter _) (hafter _)
  have hclosing : closingTag.read (c :: (s ++ r)) = .error _ :=
    Rule.read_bind_of_error (Rule.read_token_of_none (hafter _))
  have hopening : openingTag.read (c :: (s ++ r)) = .error _ :=
    Rule.read_bind_of_error (Rule.read_token_of_none (hafter _))
  have hstops : Stops (· != '<') r := by
    intro d hd
    rcases hr with rfl | hr
    · cases hd
    · rw [hr] at hd
      cases hd
      decide
  have hall : ∀ d ∈ c :: s, (d != '<') = true := by
    intro d hd
    rw [bne_iff_ne]
    rintro rfl
    rcases List.mem_cons.1 hd with h | h
    · exact hc h.symm
    · exact hs h
  have htake := hstops.takeWhile_append hall
  have hdrop := hstops.dropWhile_append hall
  rw [List.cons_append] at htake hdrop
  unfold next
  rw [if_neg (by simp [hlone]), hskip, hclosing, hopening]
  simp only [htake, hdrop]

theorem next_of_angle [EntityCodec] {c : Char}
    (hr : s = [] ∨ s.head? = some c ∧ (c.isAlpha || c == '/' || c == '!') = false) :
    next total true ('<' :: s) = .ok (text ['<'], s) := by
  have hlone : startsLoneAngle ('<' :: s) = true := by
    rcases hr with rfl | ⟨hh, hc⟩
    · rfl
    · cases s with
      | nil => cases hh
      | cons d s =>
        cases hh
        simp [startsLoneAngle, hc]
  unfold next
  rw [if_pos hlone]
  rfl

theorem exists_of_read_openingTag [EntityCodec] {tag : String} {as : List Attr} {closed : Bool}
    (h : openingTag.read s = .ok (tag, as, closed) r) : ∃ c t, s = '<' :: c :: t ∧
    c.isAlpha = true := by
  obtain ⟨_, s', hs, h⟩ := Rule.read_bind_eq_ok_iff.1 h
  obtain ⟨_, _, h, -⟩ := Rule.read_bind_eq_ok_iff.1 h
  obtain ⟨_, _, h, -⟩ := Rule.read_bind_eq_ok_iff.1 h
  obtain ⟨c, _, h, -⟩ := Rule.read_bind_eq_ok_iff.1 h
  simp only [Rule.token] at hs
  split at hs <;> cases hs
  rename_i hs
  rw [after?_eq_some_iff] at hs
  cases s' with
  | nil => cases h
  | cons d t =>
    refine ⟨d, t, hs, ?_⟩
    by_cases hd : d.isAlpha = true
    · exact hd
    · rw [Rule.read_one_of_stops (.cons (by simpa using hd) t)] at h
      cases h

theorem next_of_openingTag [EntityCodec] {tag : String} {as : List Attr} {closed : Bool}
    (h : openingTag.read s = .ok (tag, as, closed) r) :
    next total true s =
      if closed || isVoid tag then .ok (leaf (.element tag as []), r)
      else if isRawText tag then rawElement tag as r
      else .ok (opening tag as, r) := by
  obtain ⟨c, t, rfl, hc⟩ := exists_of_read_openingTag h
  have hne : c ≠ '/' ∧ c ≠ '!' := by
    constructor <;> rintro rfl <;> exact absurd hc (by decide)
  have hlone : startsLoneAngle ('<' :: c :: t) = false := by
    simp [startsLoneAngle, hc]
  have hafter (d : Char) (p : List Char) (hd : c ≠ d) :
    after? ('<' :: d :: p) ('<' :: c :: t) = none :=
    (if_pos rfl).trans (if_neg (Ne.symm hd))
  have hskip : skip? true ('<' :: c :: t) = none :=
    skip?_eq_none (hafter _ _ hne.2) (hafter _ _ hne.2)
  have hclosing : closingTag.read ('<' :: c :: t) = .error ('<' :: c :: t) :=
    Rule.read_bind_of_error (Rule.read_token_of_none (hafter _ _ hne.1))
  unfold next
  rw [if_neg (by simp [hlone]), hskip, hclosing, h]

end Token

/-! ### Elements of the same make -/

theorem pushText_nil (ns : List Node) : pushText [] ns = ns := by
  unfold pushText
  split <;> exact if_pos rfl

theorem Node.AllKin.pushText_left {ns ns' : List Node} (h : AllKin ns ns') (t : List Char) :
    AllKin (pushText t ns) ns' := by
  unfold pushText
  split
  · split
    · exact h
    · exact .textLeft _ h.of_textLeft
  · split
    · exact h
    · exact .textLeft _ h

theorem Node.AllKin.pushText_right {ns ns' : List Node} (h : AllKin ns ns') (t : List Char) :
    AllKin ns (pushText t ns') := by
  unfold pushText
  split
  · split
    · exact h
    · exact .textRight _ h.of_textRight
  · split
    · exact h
    · exact .textRight _ h

namespace Elements

/-- Open elements of the same make, with nodes of the same make before them. -/
structure OpenKin (o o' : OpenElement × List Node) : Prop where
  tag : o.1.tag = o'.1.tag
  distinct : Attributes.Distinct o.1.attrs
  names : Attributes.names o.1.attrs = Attributes.names o'.1.attrs
  before : Node.AllKin o.2 o'.2

/-- Nodes of the same make that have been read so far. -/
structure Kin (e e' : Elements) : Prop where
  current : Node.AllKin e.current e'.current
  opened : List.Forall₂ OpenKin e.opened e'.opened

namespace Kin

variable {e e' e₁ e₁' : Elements} {t t' : Token}

theorem start : Elements.start.Kin Elements.start := ⟨.nil, .nil⟩

theorem step (he : e.Kin e') (ht : t.Kin t') (h : e.step t = .ok e₁) (h' : e'.step t' = .ok e₁') :
    e₁.Kin e₁' := by
  cases ht with
  | bare hb =>
    cases t with
    | skipped =>
      cases h
      cases h'
      exact he
    | endless =>
      cases h
      cases h'
      exact he
    | closing tag =>
      obtain ⟨current, opened⟩ := e
      obtain ⟨current', opened'⟩ := e'
      obtain ⟨hcurrent, hopened⟩ := he
      cases hopened with
      | nil => cases h
      | @cons o o' opened opened' ho hopened =>
        obtain ⟨⟨tag₁, as⟩, outer⟩ := o
        obtain ⟨⟨tag₂, as'⟩, outer'⟩ := o'
        obtain ⟨htag, hd, ha, hb⟩ := ho
        cases htag
        simp only [Elements.step] at h h'
        split at h
        · rename_i hclose
          rw [if_pos hclose] at h'
          cases h
          cases h'
          exact ⟨.element _ hd ha hcurrent.reverse hb, hopened⟩
        · cases h
    | text s => exact hb.elim
    | opening tag as => exact hb.elim
    | leaf n => exact hb.elim
  | text s s' =>
    cases h
    cases h'
    exact ⟨(he.current.pushText_left s).pushText_right s', he.opened⟩
  | opening tag hd ha =>
    cases h
    cases h'
    exact ⟨.nil, .cons ⟨rfl, hd, ha, he.current⟩ he.opened⟩
  | @leaf n n' hn =>
    cases h
    cases h'
    exact ⟨hn.append he.current, he.opened⟩

theorem finish {ns ns' : List Node} (he : e.Kin e') (h : e.finish = .ok ns)
    (h' : e'.finish = .ok ns') :
    Node.AllKin ns ns' := by
  obtain ⟨current, opened⟩ := e
  obtain ⟨current', opened'⟩ := e'
  obtain ⟨hcurrent, hopened⟩ := he
  cases hopened with
  | nil =>
    cases h
    cases h'
    exact hcurrent.reverse
  | cons ho hopened => cases h

end Kin

section Tokens

variable {total : Nat} {e : Elements} {s r : List Char}

/-- The first token of a text and what the others make of it. -/
theorem run_of_next [EntityCodec] {t : Token} (h : Token.next total true s = .ok (t, r)) :
    e.run total true s = e.step t >>= fun e' => e'.run total true r := by
  cases s with
  | nil => exact absurd (Token.length_lt_of_next h) (Nat.not_lt_zero _)
  | cons c cs =>
    rw [run_cons, h]
    dsimp only
    cases e.step t <;> rfl

/-- The first token of a text that is read without an error, and what the others make of it. -/
theorem exists_of_run_eq_ok [EntityCodec] {t : Token} {ns : List Node}
    (hn : Token.next total true s = .ok (t, r)) (h : e.run total true s = .ok ns) :
    ∃ e₁, e.step t = .ok e₁ ∧ e₁.run total true r = .ok ns := by
  rw [run_of_next hn] at h
  cases hstep : e.step t with
  | error err =>
    rw [hstep] at h
    cases h
  | ok e₁ =>
    rw [hstep] at h
    exact ⟨e₁, rfl, h⟩

/-- A run of text is one more text, or nothing if it is empty. -/
theorem run_text [EntityCodec] (hs : '<' ∉ s) (hr : r = [] ∨ r.head? = some '<') :
    e.run total true (s ++ r) = Elements.run total true ⟨pushText (EntityCodec.decode s) e.current,
      e.opened⟩ r := by
  cases s with
  | nil => rw [EntityCodec.decode_nil, pushText_nil, List.nil_append]
  | cons c s =>
    rw [List.mem_cons, not_or] at hs
    exact run_of_next (Token.next_of_text (Ne.symm hs.1) hs.2 hr)

theorem run_of_text [EntityCodec] {ns : List Node} (hs : '<' ∉ s) (hr : r = [] ∨ r.head? = some '<')
    (h : e.run total true (s ++ r) = .ok ns) :
    ∃ t e₁, e.step (.text t) = .ok e₁ ∧ e₁.run total true r = .ok ns := by
  rw [run_text hs hr] at h
  exact ⟨_, _, rfl, h⟩

end Tokens

end Elements

/-! ### Where holes stand -/

/-- Items whose holes stand in texts and in double-quoted values.  A token without holes is read in
the same way whatever stands in the holes that follow. -/
inductive Placed [EntityCodec] : List Item → Prop
  | done : Placed []
  | text {run rest : List Item} (hrun : Item.char '<' ∉ run)
    (hrest : rest = [] ∨ rest.head? = some (.char '<'))
    (h : Placed rest) : Placed (run ++ rest)
  /-- A `<` that is text. -/
  | angle {c : Char} {rest : List Item}
    (hrest : rest = [] ∨ rest.head? = some (.char c) ∧ (c.isAlpha || c == '/' || c == '!') = false)
    (h : Placed rest) : Placed (.char '<' :: rest)
  | bare {s : List Char} {t : Token} {rest : List Item} (ht : t.Bare)
    (hread : ∀ total r, Fills rest r → Token.next total true (s ++ r) = .ok (t, r))
    (h : Placed rest) :
    Placed (ofChars s ++ rest)
  | opening {items rest : List Item} {tag : String} {names : List String} {closed : Bool}
    (hs : Token.TagSource items tag names closed rest) (hnames : names.Nodup)
    (hmark : eventAttribute ∉ names) (hraw : closed = true ∨ isVoid tag = true ∨
      isRawText tag = false) (h : Placed rest) : Placed items
  /-- An element with raw text, up to the end of its closing tag. -/
  | raw {items rest : List Item} {tag : String} {names : List String} {body inner : List Char}
    (hs : Token.TagSource items tag names false (ofChars body ++ rest)) (hnames : names.Nodup)
    (hmark : eventAttribute ∉ names) (hvoid : isVoid tag = false) (hraw : isRawText tag = true)
    (hbody : ∀ as r, Fills rest r →
      Token.rawElement tag as (body ++ r) =
        .ok (.leaf (.element tag as (Token.textNodes inner)), r))
    (h : Placed rest) : Placed items

namespace Placed

variable {items : List Item} {s s' : List Char} {ns ns' : List Node}

theorem head?_of_fills {c : Char} (h : items = [] ∨ items.head? = some (.char c))
    (hs : Fills items s) :
    s = [] ∨ s.head? = some c := by
  rcases h with rfl | h
  · exact Or.inl (fills_nil_iff.1 hs)
  · cases items with
    | nil => cases h
    | cons i items =>
      cases h
      obtain ⟨r, rfl, -⟩ := fills_char_cons_iff.1 hs
      exact Or.inr rfl

/-- A `<` that is text is read as text, whatever stands in holes. -/
theorem next_of_angle [EntityCodec] {c : Char} {total : Nat}
    (h : items = [] ∨ items.head? = some (.char c) ∧ (c.isAlpha || c == '/' || c == '!') = false)
    (hs : Fills items s) : Token.next total true ('<' :: s) = .ok (.text ['<'], s) := by
  rcases h with rfl | ⟨hh, hc⟩
  · exact Token.next_of_angle (c := c) (Or.inl (fills_nil_iff.1 hs))
  · rcases head?_of_fills (Or.inr hh) hs with rfl | hhead
    · exact Token.next_of_angle (c := c) (Or.inl rfl)
    · exact Token.next_of_angle (Or.inr ⟨hhead, hc⟩)

theorem distinct {names : List String} {as : List Attr} (ha : Attributes.names as = names)
    (hn : names.Nodup) (hm : eventAttribute ∉ names) : Attributes.Distinct as :=
  ⟨ha ▸ hn, ha ▸ hm⟩

theorem allKin_textNodes (t : List Char) : Node.AllKin (Token.textNodes t) (Token.textNodes t) := by
  unfold Token.textNodes
  split
  · exact .nil
  · exact .textLeft _ (.textRight _ .nil)

theorem exists_kin_of_openingTag [EntityCodec] {tag : String} {as as' : List Attr} {closed : Bool}
    {r r' : List Char} (hraw : closed = true ∨ isVoid tag = true ∨ isRawText tag = false)
    (hd : Attributes.Distinct as) (ha : Attributes.names as = Attributes.names as')
    (h : Token.openingTag.read s = .ok (tag, as, closed) r)
    (h' : Token.openingTag.read s' = .ok (tag, as', closed) r') :
    ∃ t t', (∀ total, Token.next total true s = .ok (t, r)) ∧
      (∀ total, Token.next total true s' = .ok (t', r')) ∧
      t.Kin t' := by
  by_cases hleaf : (closed || isVoid tag) = true
  · refine ⟨_, _, fun total => ?_, fun total => ?_, .leaf (.element tag hd ha .nil .nil)⟩
    · rw [Token.next_of_openingTag h, if_pos hleaf]
    · rw [Token.next_of_openingTag h', if_pos hleaf]
  · have hnot : isRawText tag = false := by
      rw [Bool.or_eq_true, not_or] at hleaf
      rcases hraw with h | h | h
      · exact absurd h hleaf.1
      · exact absurd h hleaf.2
      · exact h
    refine ⟨_, _, fun total => ?_, fun total => ?_, .opening tag hd ha⟩
    · rw [Token.next_of_openingTag h, if_neg hleaf, hnot, if_neg Bool.false_ne_true]
    · rw [Token.next_of_openingTag h', if_neg hleaf, hnot, if_neg Bool.false_ne_true]

theorem run_allKin [EntityCodec] (h : Placed items) {total total' : Nat} {e e' : Elements}
    (hs : Fills items s) (hs' : Fills items s') (he : e.Kin e') (hp : e.run total true s = .ok ns)
    (hp' : e'.run total' true s' = .ok ns') : Node.AllKin ns ns' := by
  induction h generalizing s s' e e' with
  | done =>
    rw [fills_nil_iff.1 hs, Elements.run] at hp
    rw [fills_nil_iff.1 hs', Elements.run] at hp'
    exact he.finish hp hp'
  | text hrun hrest _ ih =>
    obtain ⟨t, r, rfl, ht, hr⟩ := exists_of_fills_append hs
    obtain ⟨t', r', rfl, ht', hr'⟩ := exists_of_fills_append hs'
    obtain ⟨u, e₁, he₁, hp⟩ := Elements.run_of_text (ht.not_mem (Or.inl rfl) hrun)
      (head?_of_fills hrest hr) hp
    obtain ⟨u', e₁', he₁', hp'⟩ := Elements.run_of_text (ht'.not_mem (Or.inl rfl) hrun)
      (head?_of_fills hrest hr') hp'
    exact ih hr hr' (he.step (.text u u') he₁ he₁') hp hp'
  | angle hrest _ ih =>
    obtain ⟨r, rfl, hr⟩ := fills_char_cons_iff.1 hs
    obtain ⟨r', rfl, hr'⟩ := fills_char_cons_iff.1 hs'
    obtain ⟨e₁, he₁, hp⟩ := Elements.exists_of_run_eq_ok (next_of_angle hrest hr) hp
    obtain ⟨e₁', he₁', hp'⟩ := Elements.exists_of_run_eq_ok (next_of_angle hrest hr') hp'
    exact ih hr hr' (he.step (.text _ _) he₁ he₁') hp hp'
  | bare ht hread _ ih =>
    obtain ⟨r, rfl, hr⟩ := exists_of_fills_ofChars_append hs
    obtain ⟨r', rfl, hr'⟩ := exists_of_fills_ofChars_append hs'
    obtain ⟨e₁, he₁, hp⟩ := Elements.exists_of_run_eq_ok (hread total r hr) hp
    obtain ⟨e₁', he₁', hp'⟩ := Elements.exists_of_run_eq_ok (hread total' r' hr') hp'
    exact ih hr hr' (he.step (.bare ht) he₁ he₁') hp hp'
  | opening hsrc hnames hmark hraw _ ih =>
    obtain ⟨as, r, has, ha, hr⟩ := hsrc.read hs
    obtain ⟨as', r', has', ha', hr'⟩ := hsrc.read hs'
    obtain ⟨t, t', hn, hn', ht⟩ := exists_kin_of_openingTag hraw (distinct ha hnames hmark)
      (ha.trans ha'.symm) has has'
    obtain ⟨e₁, he₁, hp⟩ := Elements.exists_of_run_eq_ok (hn total) hp
    obtain ⟨e₁', he₁', hp'⟩ := Elements.exists_of_run_eq_ok (hn' total') hp'
    exact ih hr hr' (he.step ht he₁ he₁') hp hp'
  | @raw _ rest tag _ body inner hsrc hnames hmark hvoid hraw hbody _ ih =>
    obtain ⟨as, t, has, ha, ht⟩ := hsrc.read hs
    obtain ⟨as', t', has', ha', ht'⟩ := hsrc.read hs'
    obtain ⟨r, rfl, hr⟩ := exists_of_fills_ofChars_append ht
    obtain ⟨r', rfl, hr'⟩ := exists_of_fills_ofChars_append ht'
    have hnext (total : Nat) {s r : List Char} {as : List Attr} (hr : Fills rest r)
        (has : Token.openingTag.read s = .ok (tag, as, false) (body ++ r)) :
          Token.next total true s =
          .ok (.leaf (.element tag as (Token.textNodes inner)), r) := by
      rw [Token.next_of_openingTag has, hvoid, hraw]
      exact hbody as r hr
    obtain ⟨e₁, he₁, hp⟩ := Elements.exists_of_run_eq_ok (hnext total hr has) hp
    obtain ⟨e₁', he₁', hp'⟩ := Elements.exists_of_run_eq_ok (hnext total' hr' has') hp'
    have hkin : Node.AllKin [.element tag as (Token.textNodes inner)]
      [.element tag as' (Token.textNodes inner)] :=
      .element tag (distinct ha hnames hmark) (ha.trans ha'.symm) (allKin_textNodes inner) .nil
    exact ih hr hr' (he.step (.leaf hkin) he₁ he₁') hp hp'

/-- Texts that are filled into the same items are read as nodes of the same make. -/
theorem allKin [EntityCodec] (h : Placed items) (hs : Fills items s) (hs' : Fills items s')
    (hp : Markup.parseChars s = .ok ns)
    (hp' : Markup.parseChars s' = .ok ns') : Node.AllKin ns ns' :=
  h.run_allKin hs hs' .start hp hp'

end Placed

end LiveMarkup
