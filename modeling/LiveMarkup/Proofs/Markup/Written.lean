import LiveMarkup.Eval.Escape
import LiveMarkup.Proofs.Markup.Normal
import LiveMarkup.Proofs.Markup.Placed

/-!
# Written forms of markup trees

What templates escape denotes what was escaped (`denotes_escapeText`).  `Writes ns cs` says that
`cs` is nodes in normal form, written with one of the spellings that denote the texts and the values
in them.  Reading takes such a text up to its end and has read these nodes (`Writes.run`), so they
are what is parsed (`Writes.parseChars`).
-/

namespace LiveMarkup

open EntityCodec

section Spelled

variable [EntityCodec]

theorem denotes_escapeChar (c : Char) : Denotes (escapeChar c) [c] := by
  unfold escapeChar
  split
  · exact denotes_reference (by decide)
  · exact denotes_reference (by decide)
  · exact denotes_reference (by decide)
  · exact denotes_reference (by decide)
  · exact denotes_reference (by decide)
  · exact denotes_char ‹_›

/-- What is escaped decodes to itself. -/
theorem denotes_escapeText (s : String) : Denotes (escapeText s).toList s.toList := by
  rw [escapeText, String.toList_ofList]
  exact denotes_flatMap denotes_escapeChar s.toList

/-- A text that denotes another one and in which a character does not occur. -/
structure Spells (stop : Char) (w t : List Char) : Prop where
  free : stop ∉ w
  denotes : Denotes w t
  /-- Only an empty text spells an empty text. -/
  eq_nil : t = [] → w = []

namespace Spells

variable {stop : Char} {w w' t t' : List Char}

theorem nil (stop : Char) : Spells stop [] [] := ⟨List.not_mem_nil, denotes_nil, id⟩

theorem append (h : Spells stop w t) (h' : Spells stop w' t') :
    Spells stop (w ++ w') (t ++ t') := by
  refine ⟨fun hm => (List.mem_append.1 hm).elim h.free h'.free, h.denotes.append h'.denotes,
    fun hnil => ?_⟩
  rw [List.append_eq_nil_iff] at hnil ⊢
  exact ⟨h.eq_nil hnil.1, h'.eq_nil hnil.2⟩

theorem ne_nil (h : Spells stop w t) (ht : t ≠ []) : w ≠ [] := by
  rintro rfl
  have := h.denotes.decode_eq
  rw [decode_nil] at this
  exact ht this.symm

theorem encodeText (t : List Char) : Spells '<' (encodeText t) t :=
  ⟨not_mem_encodeText t, denotes_encodeText t, fun ht => ht ▸ encodeText_nil⟩

theorem encodeAttribute (t : List Char) : Spells '"' (encodeAttribute t) t :=
  ⟨not_mem_encodeAttribute t, denotes_encodeAttribute t, fun ht => ht ▸ encodeAttribute_nil⟩

end Spells

/-! ### Written nodes -/

/-- Attributes as they stand in a tag, with values in double quotes. -/
inductive WritesAttrs : List Attr → List Char → Prop
  | nil : WritesAttrs [] []
  | cons {a : Attr} {as : List Attr} {w cs : List Char} (hname : IsAttrName a.name)
    (hw : Spells '"' w a.value.toList) (h : WritesAttrs as cs) :
    WritesAttrs (a :: as) (' ' :: (a.name.toList ++ '=' :: '"' :: (w ++ '"' :: cs)))

/-- Nodes in normal form as markup. -/
inductive Writes : List Node → List Char → Prop
  | nil : Writes [] []
  | text {t : String} {w cs : List Char} {ns : List Node} (ht : t ≠ "") (hw : Spells '<' w t.toList)
    (hns : ∀ m ∈ ns.head?, m.isText = false) (h : Writes ns cs) : Writes (.text t :: ns) (w ++ cs)
  | void {tag : String} {as : List Attr} {a cs : List Char} {ns : List Node} (htag : IsTagName tag)
    (ha : WritesAttrs as a) (hvoid : isVoid tag = true) (h : Writes ns cs) :
    Writes (.element tag as [] :: ns) ('<' :: (tag.toList ++ (a ++ '>' :: cs)))
  | raw {tag : String} {as : List Attr} {a cs : List Char} {children ns : List Node}
    (htag : IsTagName tag)
    (ha : WritesAttrs as a) (hraw : isRawText tag = true) (hbody : Node.IsRawContent tag children)
    (h : Writes ns cs) :
    Writes (.element tag as children :: ns)
      ('<' :: (tag.toList ++ (a ++ '>' :: (Node.charsAll true children ++ (closeTag tag ++ cs)))))
  | element {tag : String} {as : List Attr} {a inner cs : List Char} {children ns : List Node}
    (htag : IsTagName tag) (ha : WritesAttrs as a) (hvoid : isVoid tag = false)
    (hraw : isRawText tag = false) (hchildren : Writes children inner) (h : Writes ns cs) :
    Writes (.element tag as children :: ns) ('<' ::
      (tag.toList ++ (a ++ '>' :: (inner ++ (closeTag tag ++ cs)))))

end Spelled

/-! ### Reading tags -/

namespace Token

open Rule

theorem lower_toList {s : String} (h : ∀ c ∈ s.toList, c.isUpper = false) : lower s.toList = s := by
  have hmap : s.toList.map Char.toLower = s.toList := by
    rw [List.map_congr_left fun c hc => toLower_of_not_isUpper (h c hc), List.map_id']
  rw [lower, hmap, String.ofList_toList]

theorem isUpper_of_isTagName {s : String} (h : IsTagName s) : ∀ c ∈ s.toList,
    c.isUpper = false := by
  obtain ⟨c, cs, hs, hc, hcs⟩ := h
  rw [hs, List.forall_mem_cons]
  refine ⟨isUpper_of_isLower hc, fun d hd => ?_⟩
  have hd := hcs d hd
  rw [Bool.eq_false_iff, ne_eq, isUpper_iff]
  simp only [Bool.or_eq_true, isLower_iff, isDigit_iff, beq_iff_eq] at hd
  rcases hd with (hd | hd) | rfl
  · omega
  · omega
  · decide

theorem lower_of_isTagName {s : String} (h : IsTagName s) : lower s.toList = s :=
  lower_toList (isUpper_of_isTagName h)

/-- What is a name of a tag in small letters may be read as one. -/
theorem exists_of_isTagName_lower {cs : List Char} (h : IsTagName (lower cs)) :
    ∃ c ds, cs = c :: ds ∧ c.isAlpha = true ∧ ∀ d ∈ ds, (d.isAlphanum || d == '-') = true := by
  obtain ⟨c, ds, hs, hc, hds⟩ := h
  rw [lower, String.toList_ofList] at hs
  cases cs with
  | nil => cases hs
  | cons c' ds' =>
    obtain ⟨rfl, rfl⟩ := List.cons.inj hs
    refine ⟨c', ds', rfl, ?_, fun d hd => ?_⟩
    · rcases toLower_cases c' with ⟨hu, -⟩ | ⟨-, he⟩
      · simp [isAlpha_eq, hu]
      · rw [he] at hc
        simp [isAlpha_eq, hc]
    · have hd' := hds _ (List.mem_map_of_mem hd)
      rcases toLower_cases d with ⟨hu, -⟩ | ⟨-, he⟩
      · simp [Char.isAlphanum, isAlpha_eq, hu]
      · rw [he] at hd'
        simp only [Bool.or_eq_true] at hd'
        rcases hd' with (h | h) | h <;> simp [Char.isAlphanum, isAlpha_eq, h]

theorem read_tagName_of_isTagName {cs r : List Char} (h : IsTagName (lower cs))
    (hr : Stops (fun d => d.isAlphanum || d == '-') r) :
    tagName.read (cs ++ r) = .ok (lower cs) r := by
  obtain ⟨c, ds, rfl, hc, hds⟩ := exists_of_isTagName_lower h
  exact read_tagName hc hds hr

theorem isNameChar_of_isAttrName {s : String} (h : IsAttrName s) : ∀ c ∈ s.toList,
    isNameChar c = true := by
  intro c hc
  obtain ⟨hb, hm, -⟩ := h.chars c hc
  simp only [List.mem_cons, List.not_mem_nil, or_false, not_or] at hm
  simp [isNameChar, hb, hm]

/-- A closing tag is read with its name in small letters, and white space may stand behind the
name. -/
theorem read_closingTag_spaced {cs ws : List Char} (hcs : IsTagName (lower cs))
    (hws : ∀ d ∈ ws, isSpace d = true) (r : List Char) :
    closingTag.read ('<' :: '/' :: (cs ++ (ws ++ '>' :: r))) = .ok (lower cs) r := by
  have hstops : Stops (fun d => d.isAlphanum || d == '-') (ws ++ '>' :: r) := by
    simpa [tagEnd] using stops_tagEnd hws false r
  refine (read_bind_of_ok (read_token (w := "</") rfl)).trans ?_
  refine (read_bind_of_ok (read_tagName_of_isTagName hcs hstops)).trans ?_
  refine (read_bind_of_ok (read_spaces (.cons (by decide) _) hws)).trans ?_
  rfl

theorem read_closingTag {tag : String} (htag : IsTagName tag) (r : List Char) :
    closingTag.read (closeTag tag ++ r) = .ok tag r := by
  have hlower := lower_of_isTagName htag
  have hs : closeTag tag ++ r = '<' :: '/' :: (tag.toList ++ ([] ++ '>' :: r)) := by simp [closeTag]
  rw [hs, read_closingTag_spaced (hlower.symm ▸ htag) (by simp) r, hlower]

/-- Where a fixed text is put behind a text in which it does not occur, it occurs there first, if
its first character is not in the rest of it. -/
theorem splitAt?_append {c : Char} {q body : List Char} (hc : c ∉ q) (h : ¬(c :: q) <:+: body)
    (r : List Char) :
    splitAt? (c :: q) (body ++ (c :: q ++ r)) = some (body, r) := by
  induction body with
  | nil =>
    have hafter : after? (c :: q) (c :: (q ++ r)) = some r := after?_eq_some_iff.2 rfl
    rw [List.nil_append, List.cons_append, splitAt?, hafter]
  | cons d body ih =>
    rw [List.infix_cons_iff, not_or] at h
    have hafter : after? (c :: q) (d :: (body ++ (c :: q ++ r))) = none := by
      rw [Option.eq_none_iff_forall_not_mem]
      intro r' hr'
      have he : d :: body ++ (c :: q ++ r) = c :: q ++ r' := after?_eq_some_iff.1 hr'
      rcases List.append_eq_append_iff.1 he with ⟨m, hm, hr⟩ | ⟨m, hm, -⟩
      · cases m with
        | nil =>
          rw [List.append_nil] at hm
          exact h.1 ⟨[], by rw [List.append_nil, hm]⟩
        | cons e m =>
          -- the fixed text would start once more inside itself
          have hq : q = body ++ e :: m := List.tail_eq_of_cons_eq hm
          obtain ⟨rfl, -⟩ := List.cons.inj hr
          rw [hq] at hc
          exact hc (List.mem_append_right _ List.mem_cons_self)
      · exact h.1 ⟨m, hm.symm⟩
    rw [List.cons_append, splitAt?, hafter, ih h.2]
    rfl

variable [EntityCodec]

theorem stops_writesAttrs {as : List Attr} {a : List Char} (h : WritesAttrs as a) (closed : Bool)
    (r : List Char) :
    Stops (fun d => d.isAlphanum || d == '-') (a ++ (tagEnd [] closed ++ r)) := by
  cases h with
  | nil => exact stops_tagEnd (by simp) closed r
  | cons hname hw h => exact .cons (by decide) _

/-- Written attributes are read up to the end of the tag. -/
theorem readMany_writesAttrs {as : List Attr} {a : List Char} (h : WritesAttrs as a)
    (closed : Bool) (r : List Char) :
    readMany attr advances_attr (a ++ (tagEnd [] closed ++ r)) = .ok as
    (tagEnd [] closed ++ r) := by
  have hnone : ∀ d ∈ ([] : List Char), isSpace d = true := by simp
  have hblank : ∀ d ∈ [' '], isSpace d = true := by simp [isSpace]
  induction h with
  | nil =>
    obtain ⟨r', hr'⟩ := read_attr_tagEnd hnone closed r
    exact readMany_of_error advances_attr hr'
  | @cons a as w cs hname hw h ih =>
    have hne : a.name.toList ≠ [] := fun he => hname.ne (String.toList_injective he)
    obtain ⟨c, name, hc⟩ := List.exists_cons_of_ne_nil hne
    have hchars := isNameChar_of_isAttrName hname
    have hlower := lower_toList fun c hc => (hname.chars c hc).2.2
    rw [hc, List.forall_mem_cons] at hchars
    rw [hc] at hlower
    have hread :=
      read_attr_quoted (r := cs ++ (tagEnd [] closed ++ r)) (by simp) hblank hchars.1
        hchars.2 hnone hnone
      hw.free
    simp only [hlower, hw.denotes.decode_eq, String.ofList_toList] at hread
    rw [hc]
    simp only [List.cons_append, List.append_assoc, List.nil_append] at hread ⊢
    rw [readMany_of_ok advances_attr hread, ih, Reply.map]

/-- A written tag is read with its name in small letters, whether it closes itself or not. -/
theorem read_tag {cs : List Char} {as : List Attr} {a : List Char} (hcs : IsTagName (lower cs))
    (ha : WritesAttrs as a) (closed : Bool) (r : List Char) :
    openingTag.read ('<' :: (cs ++ (a ++ (tagEnd [] closed ++ r)))) =
      .ok (lower cs, as, closed) r := by
  refine (read_bind_of_ok (read_token (w := "<") rfl)).trans ?_
  refine (read_bind_of_ok (read_tagName_of_isTagName hcs (stops_writesAttrs ha closed r))).trans ?_
  refine (read_bind_of_ok (readMany_writesAttrs ha closed r)).trans ?_
  cases closed <;> rfl

theorem read_namedTag {tag : String} {as : List Attr} {a : List Char} (htag : IsTagName tag)
    (ha : WritesAttrs as a) (closed : Bool) (r : List Char) :
    openingTag.read ('<' :: (tag.toList ++ (a ++ (tagEnd [] closed ++ r)))) =
      .ok (tag, as, closed) r := by
  have hlower := lower_of_isTagName htag
  rw [read_tag (hlower.symm ▸ htag) ha closed r, hlower]

theorem read_openingTag {tag : String} {as : List Attr} {a : List Char} (htag : IsTagName tag)
    (ha : WritesAttrs as a) (r : List Char) :
    openingTag.read ('<' :: (tag.toList ++ (a ++ '>' :: r))) = .ok (tag, as, false) r :=
  read_namedTag htag ha false r

theorem next_closeTag {tag : String} (htag : IsTagName tag) (total : Nat) (r : List Char) :
    next total true (closeTag tag ++ r) = .ok (closing tag, r) := by
  have hclose := read_closingTag htag r
  have hs : closeTag tag ++ r = '<' :: '/' :: (tag.toList ++ '>' :: r) := by simp [closeTag]
  have hlone : startsLoneAngle (closeTag tag ++ r) = false := by
    rw [hs]
    simp [startsLoneAngle]
  have hafter (p : List Char) : after? ('<' :: '!' :: p) (closeTag tag ++ r) = none := by
    rw [hs]
    exact (if_pos rfl).trans (if_neg (by decide))
  have hskip : skip? true (closeTag tag ++ r) = none := skip?_eq_none (hafter _) (hafter _)
  unfold next
  rw [if_neg (by simp [hlone]), hskip, hclose]

theorem textNodes_charsAll {tag : String} {children : List Node}
    (h : Node.IsRawContent tag children) :
    textNodes (Node.charsAll true children) = children := by
  cases h with
  | nil => rfl
  | @text t hne _ =>
    have ht : t.toList ≠ [] := fun he => hne (String.toList_injective he)
    simp [textNodes, Node.charsAll, Node.chars, ht]

theorem rawElement_charsAll {tag : String} (htag : IsTagName tag) (as : List Attr)
    {children : List Node} (h : Node.IsRawContent tag children) (r : List Char) :
    rawElement tag as (Node.charsAll true children ++ (closeTag tag ++ r)) =
      .ok (leaf (.element tag as children), r) := by
  have hp : ("</" ++ tag).toList = '<' :: ('/' :: tag.toList) := by simp
  have hangle : '<' ∉ '/' :: tag.toList := by
    obtain ⟨c, cs, hs, hc, hcs⟩ := htag
    rw [hs]
    simp only [List.mem_cons, not_or]
    refine ⟨by decide, ?_, fun hm => absurd (hcs '<' hm) (by decide)⟩
    rintro rfl
    exact absurd hc (by decide)
  have hbody : ¬(('<' :: ('/' :: tag.toList)) <:+: Node.charsAll true children) := by
    cases h with
    | nil => simp [Node.charsAll]
    | text hne hclose => simpa [Node.charsAll, Node.chars] using hclose
  have hsplit := splitAt?_append hangle hbody ('>' :: r)
  have hs : '<' :: '/' :: tag.toList ++ '>' :: r = closeTag tag ++ r := by simp [closeTag]
  rw [hs] at hsplit
  unfold rawElement
  rw [hp, hsplit]
  simp only [List.drop_left, read_closingTag htag, textNodes_charsAll h]

end Token

/-! ### Reading nodes -/

/-- A text put behind a node that is not a text is a node of its own. -/
theorem pushText_toList {t : String} {ns : List Node} (ht : t ≠ "")
    (h : ∀ n ∈ ns.head?, n.Apart (.text t)) :
    pushText t.toList ns = .text t :: ns := by
  have htl : t.toList ≠ [] := fun he => ht (String.toList_injective he)
  unfold pushText
  split
  · exact absurd ⟨rfl, rfl⟩ (h _ rfl)
  · rw [if_neg htl, String.ofList_toList]

namespace Writes

variable [EntityCodec] {ns : List Node} {cs rest : List Char}

/-- Only a text is written without an opening tag at its head. -/
theorem head?_eq (h : Writes ns cs) (hns : ∀ m ∈ ns.head?, m.isText = false)
    (hrest : rest = [] ∨ rest.head? = some '<') :
    cs ++ rest = [] ∨ (cs ++ rest).head? = some '<' := by
  cases h with
  | nil => exact hrest
  | text => exact absurd (hns _ rfl) (by simp [Node.isText])
  | void => exact Or.inr rfl
  | raw => exact Or.inr rfl
  | element => exact Or.inr rfl

/-- Written nodes are read up to their end. -/
theorem run (h : Writes ns cs) (total : Nat) {e : Elements}
    (hrest : rest = [] ∨ rest.head? = some '<')
    (hapart : ∀ m ∈ ns.head?, ∀ n ∈ e.current.head?, n.Apart m) :
    e.run total true (cs ++ rest) = Elements.run total true ⟨ns.reverse ++ e.current,
      e.opened⟩ rest := by
  induction h generalizing e rest with
  | nil => rfl
  | @text t w cs ns ht hw hns h ih =>
    obtain ⟨c, s, rfl⟩ :=
      List.exists_cons_of_ne_nil (hw.ne_nil fun he => ht (String.toList_injective he))
    have hfree := hw.free
    rw [List.mem_cons, not_or] at hfree
    have hnext := @Token.next_of_text total _ _ _ _ (Ne.symm hfree.1) hfree.2 (h.head?_eq hns hrest)
    have hpush : pushText t.toList e.current = .text t :: e.current :=
      pushText_toList ht (hapart _ rfl)
    rw [List.cons_append, List.cons_append, List.append_assoc, Elements.run_cons, hnext]
    simp only [Elements.step, hw.denotes.decode_eq, hpush]
    rw [ih hrest fun m hm n hn hboth => ?_]
    · simp
    · exact absurd hboth.2 (by simp [hns m hm])
  | @void tag as a cs ns htag ha hvoid h ih =>
    have hopen := Token.read_openingTag htag ha (cs ++ rest)
    have hnext := @Token.next_of_openingTag total _ _ _ _ _ _ hopen
    rw [hvoid, Bool.or_true, if_pos rfl] at hnext
    simp only [List.cons_append, List.append_assoc]
    rw [Elements.run_cons, hnext]
    simp only [Elements.step]
    rw [ih hrest fun m _ n hn hboth => ?_]
    · simp
    · cases hn
      exact Bool.false_ne_true hboth.1
  | @raw tag as a cs children ns htag ha hraw hbody h ih =>
    have hopen :=
      Token.read_openingTag htag ha (Node.charsAll true children ++ (closeTag tag ++ (cs ++ rest)))
    have hnext := @Token.next_of_openingTag total _ _ _ _ _ _ hopen
    rw [Token.isVoid_of_isRawText hraw, Bool.or_false, if_neg Bool.false_ne_true, if_pos hraw,
      Token.rawElement_charsAll htag as hbody] at hnext
    simp only [List.cons_append, List.append_assoc]
    rw [Elements.run_cons, hnext]
    simp only [Elements.step]
    rw [ih hrest fun m _ n hn hboth => ?_]
    · simp
    · cases hn
      exact Bool.false_ne_true hboth.1
  | @element tag as a inner cs children ns htag ha hvoid hraw hchildren h ihchildren ih =>
    have hopen := Token.read_openingTag htag ha (inner ++ (closeTag tag ++ (cs ++ rest)))
    have hnext := @Token.next_of_openingTag total _ _ _ _ _ _ hopen
    rw [hvoid, Bool.or_false, if_neg Bool.false_ne_true, hraw, if_neg Bool.false_ne_true] at hnext
    have hclose := Token.next_closeTag htag total (cs ++ rest)
    simp only [List.cons_append, List.append_assoc]
    rw [Elements.run_cons, hnext]
    simp only [Elements.step]
    have hinner : closeTag tag ++ (cs ++ rest) = [] ∨
      (closeTag tag ++ (cs ++ rest)).head? = some '<' := Or.inr rfl
    rw [ihchildren hinner fun m _ n hn => by cases hn]
    have hcons : closeTag tag ++ (cs ++ rest) = '<' :: (closeTag tag ++ (cs ++ rest)).tail := rfl
    rw [hcons, Elements.run_cons, ← hcons, hclose]
    simp only [Elements.step, List.append_nil, List.reverse_reverse, if_true]
    rw [ih hrest fun m _ n hn hboth => ?_]
    · simp
    · cases hn
      exact Bool.false_ne_true hboth.1

/-- Written nodes are what is read from their text. -/
theorem parseChars (h : Writes ns cs) : Markup.parseChars cs = .ok ns := by
  unfold Markup.parseChars
  have hrun := h.run (Token.byteLength cs) (e := Elements.start) (Or.inl rfl) fun m _ n hn => by
    cases hn
  rw [List.append_nil] at hrun
  rw [hrun, Elements.run, Elements.finish]
  simp [Elements.start]

end Writes

end LiveMarkup
