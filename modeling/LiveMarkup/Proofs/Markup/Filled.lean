import LiveMarkup.Markup.Parse
import LiveMarkup.Proofs.Document.Attributes
import LiveMarkup.Proofs.Grammar.Reading

/-!
# Markup with holes

The text that a template gives is made of the characters of the template and of what is written in
its holes. `Fills items s` says that `s` is such a text; what is written in a hole is `Inert`, so it
holds neither the start of a tag nor the end of a quoted value.  An opening tag whose holes all
stand in double-quoted values (`TagSource`) is read as the same tag with the same attribute names,
whatever is written in them (`TagSource.read`).
-/

namespace LiveMarkup

/-- A character of a template, or a place where a value is written. -/
inductive Item where
  | char (c : Char)
  | hole
  deriving DecidableEq

/-- Text that neither starts a tag nor ends a quoted value. -/
structure Inert (v : List Char) : Prop where
  angle : '<' ∉ v
  quote : '"' ∉ v

namespace Item

/-- A text as items. -/
def ofChars (s : List Char) : List Item := s.map char

/-- The texts that come of items when inert texts are written in their holes. -/
inductive Fills : List Item → List Char → Prop
  | nil : Fills [] []
  | char (c : Char) {items : List Item} {s : List Char} (h : Fills items s) :
      Fills (char c :: items) (c :: s)
  | hole {v : List Char} (hv : Inert v) {items : List Item} {s : List Char} (h : Fills items s) :
    Fills (hole :: items) (v ++ s)

variable {items items' : List Item} {s t : List Char}

theorem fills_nil_iff : Fills [] s ↔ s = [] := by
  constructor
  · intro h
    cases h
    rfl
  · rintro rfl
    exact .nil

theorem fills_char_cons_iff {c : Char} : Fills (char c :: items) s ↔ ∃ r, s = c :: r ∧
    Fills items r := by
  constructor
  · intro h
    cases h with
    | char _ h => exact ⟨_, rfl, h⟩
  · rintro ⟨r, rfl, h⟩
    exact .char c h

theorem Fills.append (h : Fills items s) (h' : Fills items' t) :
    Fills (items ++ items') (s ++ t) := by
  induction h with
  | nil => exact h'
  | char c h ih => exact .char c ih
  | hole hv h ih =>
    rw [List.append_assoc]
    exact .hole hv ih

/-- A text for several items is made of texts for them. -/
theorem exists_of_fills_append (h : Fills (items ++ items') s) :
    ∃ a b, s = a ++ b ∧ Fills items a ∧ Fills items' b := by
  induction items generalizing s with
  | nil => exact ⟨[], s, rfl, .nil, h⟩
  | cons i items ih =>
    rw [List.cons_append] at h
    cases h with
    | char c h =>
      obtain ⟨a, b, rfl, ha, hb⟩ := ih h
      exact ⟨c :: a, b, rfl, .char c ha, hb⟩
    | @hole v hv _ s h =>
      obtain ⟨a, b, rfl, ha, hb⟩ := ih h
      exact ⟨v ++ a, b, (List.append_assoc v a b).symm, .hole hv ha, hb⟩

theorem fills_ofChars (s : List Char) : Fills (ofChars s) s := by
  induction s with
  | nil => exact .nil
  | cons c s ih => exact .char c ih

theorem exists_of_fills_ofChars_append {p : List Char} (h : Fills (ofChars p ++ items) s) :
    ∃ r, s = p ++ r ∧ Fills items r := by
  induction p generalizing s with
  | nil => exact ⟨s, rfl, h⟩
  | cons c p ih =>
    obtain ⟨s', rfl, hs'⟩ := fills_char_cons_iff.1 h
    obtain ⟨r, rfl, hr⟩ := ih hs'
    exact ⟨r, rfl, hr⟩

/-- What is written in holes adds nothing to what matters for tags. -/
theorem Fills.not_mem {c : Char} (hc : c = '<' ∨ c = '"') (h : Fills items s)
    (hm : Item.char c ∉ items) : c ∉ s := by
  induction h with
  | nil => exact List.not_mem_nil
  | char d h ih =>
    rw [List.mem_cons, not_or] at hm ⊢
    exact ⟨fun he => hm.1 (he ▸ rfl), ih hm.2⟩
  | hole hv h ih =>
    rw [List.mem_append, not_or]
    refine ⟨?_, ih fun hi => hm (List.mem_cons_of_mem _ hi)⟩
    rcases hc with rfl | rfl
    · exact hv.angle
    · exact hv.quote

end Item

/-! ### Opening tags -/

namespace Token

open Rule

theorem read_tagName {c : Char} {cs r : List Char} (hc : c.isAlpha = true)
    (hcs : ∀ d ∈ cs, (d.isAlphanum || d == '-') = true)
    (hr : Stops (fun d => d.isAlphanum || d == '-') r) :
    tagName.read (c :: (cs ++ r)) = .ok (lower (c :: cs)) r := by
  have hwide (d : Char) (hd : d.isAlpha = true) : (d.isAlphanum || d == '-') = true := by
    simp [Char.isAlphanum, hd]
  have htake := takeWhile_append_takeWhile_dropWhile hwide (cs ++ r)
  have hdrop := dropWhile_dropWhile hwide (cs ++ r)
  rw [hr.takeWhile_append hcs] at htake
  rw [hr.dropWhile_append hcs] at hdrop
  have hrun1 : (run1 Char.isAlpha).read (c :: (cs ++ r)) =
      .ok (c :: (cs ++ r).takeWhile Char.isAlpha) ((cs ++ r).dropWhile Char.isAlpha) :=
    (read_bind_of_ok (read_one hc _)).trans rfl
  refine (read_bind_of_ok hrun1).trans ?_
  show Reply.ok _ _ = _
  rw [List.cons_append, htake, hdrop]

/-- An attribute with a value in double quotes. -/
theorem read_attr_quoted [EntityCodec] {space before after value r : List Char} {c : Char}
    {cs : List Char} (hne : space ≠ [])
    (hspace : ∀ d ∈ space, isSpace d = true) (hc : isNameChar c = true)
    (hcs : ∀ d ∈ cs, isNameChar d = true) (hbefore : ∀ d ∈ before, isSpace d = true)
    (hafter : ∀ d ∈ after, isSpace d = true) (hvalue : '"' ∉ value) :
    attr.read (space ++ (c :: (cs ++ (before ++ '=' :: (after ++ '"' :: (value ++ '"' :: r)))))) =
      .ok ⟨lower (c :: cs), String.ofList (EntityCodec.decode value)⟩ r := by
  have hblank {d : Char} (hd : isSpace d = true) : isNameChar d = false := by
    simp [isNameChar, isBlank_of_isSpace hd]
  have hsp : isSpace c = false := by
    rw [Bool.eq_false_iff]
    intro h
    rw [hblank h] at hc
    cases hc
  have hname : Stops isNameChar (before ++ '=' :: (after ++ '"' :: (value ++ '"' :: r))) := by
    cases before with
    | nil => exact .cons (by decide) _
    | cons d before => exact .cons (hblank (hbefore d List.mem_cons_self)) _
  have heq : (spaced (token "=")).read (before ++ '=' :: (after ++ '"' :: (value ++ '"' :: r))) =
      .ok () ('"' :: (value ++ '"' :: r)) := by
    refine (read_bind_of_ok (read_spaces (.cons (by decide) _) hbefore)).trans ?_
    refine (read_bind_of_ok (read_token rfl)).trans ?_
    exact read_bind_of_ok (read_spaces (.cons (by decide) _) hafter)
  have hquoted : (quoted '"').read ('"' :: (value ++ '"' :: r)) = .ok value r := by
    refine (read_bind_of_ok (read_one (by decide) _)).trans ?_
    refine (read_bind_of_ok (read_run (.cons (by decide) _) fun d hd => ?_)).trans ?_
    · rw [bne_iff_ne]
      rintro rfl
      exact hvalue hd
    · exact read_bind_of_ok (read_one (by decide) _)
  have hval : (optional (Rule.after (spaced (token "=")) attributeValue)).read
      (before ++ '=' :: (after ++ '"' :: (value ++ '"' :: r))) = .ok (some value) r := by
    have hfirst : attributeValue.read ('"' :: (value ++ '"' :: r)) = .ok value r := by
      show (orElse (quoted '"') _).read _ = _
      simp only [orElse, hquoted]
    have hafter : (Rule.after (spaced (token "=")) attributeValue).read
        (before ++ '=' :: (after ++ '"' :: (value ++ '"' :: r))) = .ok value r :=
      (read_bind_of_ok heq).trans hfirst
    exact read_optional_of_ok hafter
  refine (read_bind_of_ok (read_spaces1 (.cons hsp _) hne hspace)).trans ?_
  refine (read_bind_of_ok (read_run1 hname hc hcs)).trans ?_
  exact read_bind_of_ok hval

/-- The source of attributes, their names, and what comes after them.  Holes stand in double-quoted
values; an attribute without holes is read in the same way whatever stands in the holes that
follow. -/
inductive AttrSources [EntityCodec] : List Item → List String → List Item → Prop
  | done (rest : List Item) : AttrSources rest [] rest
  | fixed {s : List Char} {a : Attr} {items rest : List Item} {names : List String}
    (h : ∀ r, Item.Fills items r → attr.read (s ++ r) = .ok a r)
    (hs : AttrSources items names rest) :
    AttrSources (Item.ofChars s ++ items) (a.name :: names) rest
  | quoted {space before after cs : List Char} {c : Char} {value items rest : List Item}
    {names : List String}
    (hne : space ≠ []) (hspace : ∀ d ∈ space, isSpace d = true) (hc : isNameChar c = true)
    (hcs : ∀ d ∈ cs, isNameChar d = true) (hbefore : ∀ d ∈ before, isSpace d = true)
    (hafter : ∀ d ∈ after, isSpace d = true) (hvalue : Item.char '"' ∉ value)
    (hs : AttrSources items names rest) :
    AttrSources (Item.ofChars (space ++ (c :: (cs ++ (before ++ '=' :: (after ++ ['"']))))) ++
      (value ++ .char '"' :: items)) (lower (c :: cs) :: names) rest

/-- The end of an opening tag. -/
def tagEnd (space : List Char) (closed : Bool) : List Char := space ++ if closed then
    ['/', '>'] else ['>']

/-- The source of an opening tag, its name, the names of its attributes, whether it closes itself,
and what comes after it. -/
inductive TagSource [EntityCodec] : List Item → String → List String → Bool → List Item → Prop
  | mk {c : Char} {cs space : List Char} {closed : Bool} {items rest : List Item}
    {names : List String}
    (hc : c.isAlpha = true) (hcs : ∀ d ∈ cs, (d.isAlphanum || d == '-') = true)
    (hspace : ∀ d ∈ space, isSpace d = true)
    (ha : AttrSources items names (Item.ofChars (tagEnd space closed) ++ rest)) :
    TagSource (.char '<' :: (Item.ofChars (c :: cs) ++ items)) (lower (c :: cs)) names closed rest

variable {items rest : List Item} {names : List String} {s r : List Char}

theorem AttrSources.read [EntityCodec] (h : AttrSources items names rest)
    (hend : ∀ r, Item.Fills rest r → ∃ r', attr.read r = .error r') (hs : Item.Fills items s) :
    ∃ as r, readMany attr advances_attr s = .ok as r ∧ Attributes.names as = names ∧
      Item.Fills rest r := by
  induction h generalizing s with
  | done =>
    obtain ⟨r', hr'⟩ := hend s hs
    exact ⟨[], s, readMany_of_error advances_attr hr', rfl, hs⟩
  | fixed hfix _ ih =>
    obtain ⟨t, rfl, ht⟩ := Item.exists_of_fills_ofChars_append hs
    obtain ⟨as, r, has, hn, hr⟩ := ih hend ht
    refine ⟨_ :: as, r, ?_, congrArg (_ :: ·) hn, hr⟩
    rw [readMany_of_ok advances_attr (hfix t ht), has, Reply.map]
  | @quoted _ _ _ cs c _ _ _ _ hne hspace hc hcs hbefore hafter hvalue _ ih =>
    obtain ⟨t, rfl, ht⟩ := Item.exists_of_fills_ofChars_append hs
    obtain ⟨v, t', rfl, hv, ht'⟩ := Item.exists_of_fills_append ht
    obtain ⟨t'', rfl, ht''⟩ := Item.fills_char_cons_iff.1 ht'
    obtain ⟨as, r, has, hn, hr⟩ := ih hend ht''
    refine ⟨⟨lower (c :: cs), String.ofList (EntityCodec.decode v)⟩ :: as, r, ?_,
      congrArg (_ :: ·) hn, hr⟩
    have hread := read_attr_quoted (r := t'') hne hspace hc hcs hbefore hafter
      (hv.not_mem (Or.inr rfl) hvalue)
    simp only [List.append_assoc, List.cons_append, List.nil_append] at hread ⊢
    rw [readMany_of_ok advances_attr hread, has, Reply.map]

/-- No attribute starts where a tag ends. -/
theorem read_attr_tagEnd [EntityCodec] {space : List Char} (hspace : ∀ d ∈ space, isSpace d = true)
    (closed : Bool) (r : List Char) : ∃ r', attr.read (tagEnd space closed ++ r) = .error r' := by
  obtain ⟨c, t, ht, hc⟩ : ∃ c t, (if closed then ['/', '>'] else ['>']) ++ r = c :: t ∧
      (c = '/' ∨ c = '>') := by
    cases closed
    · exact ⟨'>', r, rfl, Or.inr rfl⟩
    · exact ⟨'/', '>' :: r, rfl, Or.inl rfl⟩
  have hsp : Stops isSpace (c :: t) := by
    rcases hc with rfl | rfl
    · exact .cons (by decide) t
    · exact .cons (by decide) t
  have hname : Stops isNameChar (c :: t) := by
    rcases hc with rfl | rfl
    · exact .cons (by decide) t
    · exact .cons (by decide) t
  rw [tagEnd, List.append_assoc, ht]
  cases space with
  | nil => exact ⟨_, read_bind_of_error (read_bind_of_error (read_one_of_stops hsp))⟩
  | cons d space =>
    refine ⟨c :: t, (read_bind_of_ok (read_spaces1 hsp (List.cons_ne_nil d space) hspace)).trans ?_⟩
    exact read_bind_of_error (read_bind_of_error (read_one_of_stops hname))

theorem exists_isSpace_of_read_attr [EntityCodec] {a : Attr} (h : attr.read s = .ok a r) :
    ∃ c t, s = c :: t ∧ isSpace c = true := by
  obtain ⟨_, _, h, -⟩ := read_bind_eq_ok_iff.1 h
  obtain ⟨_, _, h, -⟩ := read_bind_eq_ok_iff.1 h
  cases s with
  | nil => cases h
  | cons c s =>
    refine ⟨c, s, rfl, ?_⟩
    by_cases hc : isSpace c = true
    · exact hc
    · rw [read_one_of_stops (.cons (by simpa using hc) s)] at h
      cases h

/-- A space ends the name of a tag. -/
theorem stops_of_isSpace {c : Char} (h : isSpace c = true) (s : List Char) :
    Stops (fun d => d.isAlphanum || d == '-') (c :: s) := by
  refine .cons ?_ s
  simp only [isSpace, Bool.or_eq_true, beq_iff_eq] at h
  rcases h with ((rfl | rfl) | rfl) | rfl <;> decide

theorem stops_tagEnd {space : List Char} (hspace : ∀ d ∈ space, isSpace d = true) (closed : Bool)
    (r : List Char) :
    Stops (fun d => d.isAlphanum || d == '-') (tagEnd space closed ++ r) := by
  cases space with
  | nil =>
    cases closed
    · exact .cons (by decide) r
    · exact .cons (by decide) _
  | cons c space => exact stops_of_isSpace (hspace c List.mem_cons_self) _

theorem AttrSources.stops [EntityCodec] (h : AttrSources items names rest)
    (hend : ∀ r, Item.Fills rest r → Stops (fun d => d.isAlphanum || d == '-') r)
    (hs : Item.Fills items s) :
    Stops (fun d => d.isAlphanum || d == '-') s := by
  cases h with
  | done => exact hend s hs
  | fixed hfix _ =>
    obtain ⟨t, rfl, ht⟩ := Item.exists_of_fills_ofChars_append hs
    obtain ⟨c, t', he, hc⟩ := exists_isSpace_of_read_attr (hfix t ht)
    rw [he]
    exact stops_of_isSpace hc t'
  | @quoted space _ _ _ _ _ _ _ _ hne hspace _ _ _ _ _ _ =>
    obtain ⟨t, rfl, -⟩ := Item.exists_of_fills_ofChars_append hs
    cases space with
    | nil => exact absurd rfl hne
    | cons c space => exact stops_of_isSpace (hspace c List.mem_cons_self) _

/-- An opening tag is read as the same tag with the same attribute names, whatever is written in its
holes. -/
theorem TagSource.read [EntityCodec] {tag : String} {closed : Bool}
    (h : TagSource items tag names closed rest) (hs : Item.Fills items s) :
    ∃ as r, openingTag.read s = .ok (tag, as, closed) r ∧ Attributes.names as = names ∧
      Item.Fills rest r := by
  cases h with
  | @mk c cs space _ _ _ _ hc hcs hspace ha =>
    obtain ⟨s', rfl, hs'⟩ := Item.fills_char_cons_iff.1 hs
    obtain ⟨t, rfl, ht⟩ := Item.exists_of_fills_ofChars_append hs'
    have hend (r : List Char) (hr : Item.Fills (Item.ofChars (tagEnd space closed) ++ rest) r) :
        ∃ r', r = tagEnd space closed ++ r' := by
      obtain ⟨r', rfl, -⟩ := Item.exists_of_fills_ofChars_append hr
      exact ⟨r', rfl⟩
    have hstops : Stops (fun d => d.isAlphanum || d == '-') t := by
      refine ha.stops (fun r hr => ?_) ht
      obtain ⟨r', rfl⟩ := hend r hr
      exact stops_tagEnd hspace closed r'
    have herr (r : List Char) (hr : Item.Fills (Item.ofChars (tagEnd space closed) ++ rest) r) :
        ∃ r', attr.read r = .error r' := by
      obtain ⟨r', rfl⟩ := hend r hr
      exact read_attr_tagEnd hspace closed r'
    obtain ⟨as, t', has, hn, ht'⟩ := ha.read herr ht
    obtain ⟨r, rfl, hr⟩ := Item.exists_of_fills_ofChars_append ht'
    refine ⟨as, r, ?_, hn, hr⟩
    refine (read_bind_of_ok (read_token (w := "<") rfl)).trans ?_
    refine (read_bind_of_ok (read_tagName hc hcs hstops)).trans ?_
    refine (read_bind_of_ok has).trans ?_
    rw [tagEnd, List.append_assoc]
    cases closed
    · refine (read_bind_of_ok (read_spaces (.cons (by decide) r) hspace)).trans ?_
      rfl
    · refine (read_bind_of_ok (read_spaces (.cons (by decide) ('>' :: r)) hspace)).trans ?_
      rfl

end Token

end LiveMarkup
