import LiveMarkup.Proofs.Markup.Plain
import LiveMarkup.Proofs.Text.Letter
import Mathlib.Data.List.Chain

/-!
# Normal form of markup trees

Nodes are in normal form (`Node.AllNormal`) if names of tags and attributes are written as markup
has them, no text is empty and no two texts are neighbours, void elements have no children, and
raw-text elements have at most one text, in which their closing tag does not start.  What is read
from markup is in normal form (`Markup.allNormal_of_parse`).  The invariant of reading is
`Elements.Normal`: the nodes read so far, those of elements that are still open included, are in
normal form.
-/

namespace LiveMarkup

/-! ### Names -/

/-- Names of tags: a small letter, then small letters, digits and dashes. -/
def IsTagName (s : String) : Prop :=
  ∃ c cs, s.toList = c :: cs ∧ c.isLower = true ∧
    ∀ d ∈ cs, (d.isLower || d.isDigit || d == '-') = true

/-- Names of attributes: neither blanks nor capital letters, nor what ends a name in a tag. -/
structure IsAttrName (s : String) : Prop where
  ne : s ≠ ""
  chars : ∀ c ∈ s.toList, isBlank c = false ∧ c ∉ ['/', '>', '=', '"', '\''] ∧ c.isUpper = false

instance (s : String) : Decidable (IsTagName s) := decidable_of_iff _ headedBy_iff

instance (s : String) : Decidable (IsAttrName s) :=
  decidable_of_iff (s ≠ "" ∧ (s.toList.all fun c =>
    decide (isBlank c = false ∧ c ∉ ['/', '>', '=', '"', '\''] ∧ c.isUpper = false)) = true) (by
      simp only [List.all_eq_true, decide_eq_true_iff]
      exact ⟨fun h => ⟨h.1, h.2⟩, fun h => ⟨h.ne, h.chars⟩⟩)

namespace Node

/-- Whether two nodes can be neighbours: two texts would be one. -/
def Apart (n m : Node) : Prop := ¬(n.isText = true ∧ m.isText = true)

/-- The children of a raw-text element: at most one text, in which the closing tag does not
start. -/
inductive IsRawContent (tag : String) : List Node → Prop
  | nil : IsRawContent tag []
  | text {t : String} (hne : t ≠ "") (hclose : ¬("</" ++ tag).toList <:+: t.toList) :
      IsRawContent tag [.text t]

mutual

/-- Whether a node is in normal form. -/
def Normal : Node → Prop
  | text t => t ≠ ""
  | element tag as cs =>
    IsTagName tag ∧ (∀ a ∈ as, IsAttrName a.name) ∧ (isVoid tag = true → cs = []) ∧
      (isRawText tag = true → IsRawContent tag cs) ∧ (isRawText tag = false → AllNormal cs)

/-- Whether several neighbouring nodes are in normal form. -/
def AllNormal : List Node → Prop
  | [] => True
  | n :: ns => n.Normal ∧ (∀ m ∈ ns.head?, n.Apart m) ∧ AllNormal ns

end

theorem Apart.symm {n m : Node} (h : n.Apart m) : m.Apart n := fun hm => h hm.symm

theorem allNormal_iff {ns : List Node} : AllNormal ns ↔ (∀ n ∈ ns, n.Normal) ∧
    ns.IsChain Apart := by
  induction ns with
  | nil => simp [AllNormal]
  | cons n ns ih =>
    rw [AllNormal, ih, List.forall_mem_cons, List.isChain_cons]
    constructor
    · rintro ⟨hn, ha, hns, hc⟩
      exact ⟨⟨hn, hns⟩, ha, hc⟩
    · rintro ⟨⟨hn, hns⟩, ha, hc⟩
      exact ⟨hn, ha, hns, hc⟩

theorem allNormal_reverse_iff {ns : List Node} : AllNormal ns.reverse ↔ AllNormal ns := by
  rw [allNormal_iff, allNormal_iff, List.isChain_reverse]
  have hflip : (fun a b : Node => b.Apart a) = Apart := by
    funext a b
    exact propext ⟨Apart.symm, Apart.symm⟩
  simp only [List.mem_reverse, hflip]

/-- An element may stand beside every node. -/
theorem AllNormal.cons_element {tag : String} {as : List Attr} {cs ns : List Node}
    (hn : (element tag as cs).Normal) (h : AllNormal ns) : AllNormal (element tag as cs :: ns) := by
  rw [AllNormal]
  exact ⟨hn, fun m _ hm => Bool.false_ne_true hm.1, h⟩

/-- A text put behind nodes stays one text with a text at their end. -/
theorem AllNormal.pushText {ns : List Node} (h : AllNormal ns) (t : List Char) :
    AllNormal (pushText t ns) := by
  unfold LiveMarkup.pushText
  split
  · rename_i u ns
    split_ifs with ht
    · exact h
    · rw [AllNormal, Normal] at h ⊢
      refine ⟨?_, h.2.1, h.2.2⟩
      intro he
      have hu := congrArg String.toList he
      simp only [String.toList_append, String.toList_ofList, String.toList_empty,
        List.append_eq_nil_iff] at hu
      exact ht hu.2
  · rename_i hne
    split_ifs with ht
    · exact h
    · rw [AllNormal, Normal]
      refine ⟨fun he => ht (by simpa using he), fun m hm hboth => ?_, h⟩
      obtain ⟨ns, rfl⟩ := List.head?_eq_some_iff.1 hm
      cases m with
      | text u => exact hne u ns rfl
      | element tag as cs => exact Bool.false_ne_true hboth.2

end Node

/-! ### Names in small letters -/

/-- Small letters are neither blanks nor ends of names. -/
theorem isNameChar_of_isLower {c : Char} (h : c.isLower = true) : Token.isNameChar c = true := by
  have hl := (isLower_iff c).1 h
  have hne {d : Char} (hd : d.toNat < 97) : c ≠ d := by
    rintro rfl
    omega
  have hb : isBlank c = false := isBlank_of_printable (by omega) (by omega)
  simp [Token.isNameChar, hb, hne (d := '/') (by decide), hne (d := '>') (by decide),
    hne (d := '=') (by decide), hne (d := '"') (by decide), hne (d := '\'') (by decide)]

theorem isNameChar_toLower {c : Char} (h : Token.isNameChar c = true) :
    Token.isNameChar c.toLower = true := by
  rcases toLower_cases c with ⟨-, hl⟩ | ⟨-, he⟩
  · exact isNameChar_of_isLower hl
  · rwa [he]

/-! ### Tokens -/

namespace Token

open Rule

theorem isTagName_lower {c : Char} {cs : List Char} (hc : c.isAlpha = true)
    (hcs : ∀ d ∈ cs, (d.isAlphanum || d == '-') = true) : IsTagName (lower (c :: cs)) := by
  refine ⟨c.toLower, cs.map Char.toLower, by simp [lower], ?_, ?_⟩
  · rcases toLower_cases c with ⟨-, h⟩ | ⟨hu, he⟩
    · exact h
    · rw [he]
      simpa [isAlpha_eq, hu] using hc
  · intro d hd
    obtain ⟨b, hb, rfl⟩ := List.mem_map.1 hd
    rcases toLower_cases b with ⟨-, h⟩ | ⟨hu, he⟩
    · simp [h]
    · rw [he]
      have := hcs b hb
      simpa [Char.isAlphanum, isAlpha_eq, hu] using this

theorem isAttrName_lower {c : Char} {cs : List Char} (h : ∀ d ∈ c :: cs, isNameChar d = true) :
    IsAttrName (lower (c :: cs)) := by
  constructor
  · intro he
    have := congrArg String.toList he
    simp [lower] at this
  · intro d hd
    rw [lower, String.toList_ofList] at hd
    obtain ⟨b, hb, rfl⟩ := List.mem_map.1 hd
    have hn := isNameChar_toLower (h b hb)
    simp only [isNameChar, Bool.and_eq_true, bne_iff_ne, Bool.not_eq_eq_eq_not, Bool.not_true] at hn
    obtain ⟨⟨⟨⟨⟨h₁, h₂⟩, h₃⟩, h₄⟩, h₅⟩, h₆⟩ := hn
    exact ⟨h₁, by simp [h₂, h₃, h₄, h₅, h₆], isUpper_toLower b⟩

theorem isTagName_of_read {s r : List Char} {tag : String} (h : tagName.read s = .ok tag r) :
    IsTagName tag := by
  obtain ⟨cs, t, hcs, h⟩ := read_bind_eq_ok_iff.1 h
  obtain ⟨ds, u, hds, h⟩ := read_bind_eq_ok_iff.1 h
  cases h
  obtain ⟨hne, halpha, -⟩ := read_run1_eq_ok_iff.1 hcs
  have hds' : ∀ d ∈ ds, (d.isAlphanum || d == '-') = true := by
    cases hds
    exact List.all_eq_true.1 List.all_takeWhile
  obtain ⟨c, cs, rfl⟩ := List.exists_cons_of_ne_nil hne
  rw [List.forall_mem_cons] at halpha
  refine isTagName_lower halpha.1 fun d hd => ?_
  rcases List.mem_append.1 hd with hd | hd
  · simp [Char.isAlphanum, halpha.2 d hd]
  · exact hds' d hd

theorem isAttrName_of_read [EntityCodec] {s r : List Char} {a : Attr} (h : attr.read s = .ok a r) :
    IsAttrName a.name := by
  obtain ⟨_, _, -, h⟩ := read_bind_eq_ok_iff.1 h
  obtain ⟨name, _, hn, h⟩ := read_bind_eq_ok_iff.1 h
  obtain ⟨value, _, -, h⟩ := read_bind_eq_ok_iff.1 h
  cases h
  obtain ⟨hne, hall, -⟩ := read_run1_eq_ok_iff.1 hn
  obtain ⟨c, cs, rfl⟩ := List.exists_cons_of_ne_nil hne
  exact isAttrName_lower hall

theorem isAttrName_of_readMany [EntityCodec] {s r : List Char} {as : List Attr}
    (h : readMany attr advances_attr s = .ok as r) : ∀ a ∈ as, IsAttrName a.name := by
  fun_induction readMany attr advances_attr s generalizing as with
  | case1 s a t ht ih =>
    obtain ⟨as', has, rfl⟩ := Reply.map_eq_ok_iff.1 h
    exact List.forall_mem_cons.2 ⟨isAttrName_of_read ht, ih has⟩
  | case2 s t ht =>
    cases h
    exact fun _ hm => absurd hm List.not_mem_nil
  | case3 s t ht => cases h

theorem isName_of_openingTag [EntityCodec] {s r : List Char} {tag : String} {attrs : List Attr}
    {closed : Bool} (h : openingTag.read s = .ok (tag, attrs, closed) r) : IsTagName tag ∧
    ∀ a ∈ attrs, IsAttrName a.name := by
  obtain ⟨_, _, -, h⟩ := read_bind_eq_ok_iff.1 h
  obtain ⟨_, _, ht, h⟩ := read_bind_eq_ok_iff.1 h
  obtain ⟨as, _, ha, h⟩ := read_bind_eq_ok_iff.1 h
  obtain ⟨_, _, -, h⟩ := read_bind_eq_ok_iff.1 h
  obtain ⟨_, _, -, h⟩ := read_bind_eq_ok_iff.1 h
  obtain ⟨_, _, -, h⟩ := read_bind_eq_ok_iff.1 h
  cases h
  exact ⟨isTagName_of_read ht, isAttrName_of_readMany ha⟩

/-- Where a fixed text occurs first, it does not occur before. -/
theorem not_infix_of_splitAt? {p s b r : List Char} (hp : p ≠ [])
    (h : splitAt? p s = some (b, r)) : ¬p <:+: b := by
  induction s generalizing b with
  | nil =>
    obtain ⟨r', -, hbr⟩ := Option.map_eq_some_iff.1 h
    cases hbr
    rwa [List.infix_nil]
  | cons c cs ih =>
    simp only [splitAt?] at h
    split at h
    · cases h
      rwa [List.infix_nil]
    · rename_i hnone
      obtain ⟨⟨b', r'⟩, hb, hbr⟩ := Option.map_eq_some_iff.1 h
      cases hbr
      rw [List.infix_cons_iff, not_or]
      refine ⟨?_, ih hb⟩
      rintro ⟨q, hq⟩
      have hs : c :: cs = p ++ (q ++ p ++ r') := by
        have happ := append_of_splitAt? hb
        rw [happ, ← List.cons_append, ← List.cons_append, ← hq]
        simp
      rw [after?_eq_some_iff.2 hs] at hnone
      cases hnone

theorem isRawContent_textNodes {tag : String} {body : List Char}
    (h : ¬("</" ++ tag).toList <:+: body) :
    Node.IsRawContent tag (textNodes body) := by
  unfold textNodes
  split_ifs with hb
  · exact .nil
  · refine .text (fun he => hb (by simpa using he)) ?_
    rwa [String.toList_ofList]

/-- Tokens that stand for nodes in normal form.  An element that stays open is neither void nor raw
text. -/
def Normal : Token → Prop
  | leaf n => n.Normal ∧ n.isText = false
  | opening tag attrs =>
    IsTagName tag ∧ (∀ a ∈ attrs, IsAttrName a.name) ∧ isVoid tag = false ∧ isRawText tag = false
  | _ => True

theorem isVoid_of_isRawText {tag : String} (h : isRawText tag = true) : isVoid tag = false := by
  have hm : tag ∈ rawTextElements := List.elem_iff.1 h
  simp only [rawTextElements, List.mem_cons, List.not_mem_nil, or_false] at hm
  rcases hm with rfl | rfl <;> decide

theorem normal_of_rawElement {tag : String} {attrs : List Attr} {s r : List Char} {t : Token}
    (htag : IsTagName tag) (ha : ∀ a ∈ attrs, IsAttrName a.name) (hraw : isRawText tag = true)
    (h : rawElement tag attrs s = .ok (t, r)) : t.Normal := by
  unfold rawElement at h
  split at h
  · cases h
  · rename_i body _ hsplit
    split at h <;> cases h
    have hbody := not_infix_of_splitAt? (by simp) hsplit
    refine ⟨?_, rfl⟩
    rw [Node.Normal]
    refine ⟨htag, ha, fun hv => ?_, fun _ => isRawContent_textNodes hbody, fun hr => ?_⟩
    · rw [isVoid_of_isRawText hraw] at hv
      cases hv
    · rw [hraw] at hr
      cases hr

theorem normal_of_skip? {ends : Bool} {s r : List Char} {t : Token}
    (h : skip? ends s = some (t, r)) :
    t.Normal := by
  unfold skip? at h
  split at h
  · split at h
    · cases h
      trivial
    · obtain ⟨_, -, h⟩ := Option.map_eq_some_iff.1 h
      cases h
      trivial
  · split at h
    · obtain ⟨_, -, h⟩ := Option.map_eq_some_iff.1 h
      cases h
      trivial
    · cases h

theorem normal_of_next [EntityCodec] {total : Nat} {ends : Bool} {s r : List Char} {t : Token}
    (h : next total ends s = .ok (t, r)) : t.Normal := by
  unfold next at h
  split at h
  · cases h
    trivial
  · split at h
    · cases h
      exact normal_of_skip? ‹_›
    · split at h
      · cases h
        trivial
      · split at h
        · rename_i ho
          obtain ⟨htag, ha⟩ := isName_of_openingTag ho
          split at h
          · cases h
            refine ⟨?_, rfl⟩
            rw [Node.Normal, Node.AllNormal]
            exact ⟨htag, ha, fun _ => rfl, fun _ => .nil, fun _ => trivial⟩
          · rename_i hc
            rw [Bool.or_eq_true, not_or, Bool.not_eq_true, Bool.not_eq_true] at hc
            split at h
            · exact normal_of_rawElement htag ha ‹_› h
            · rename_i hraw
              cases h
              exact ⟨htag, ha, hc.2, by simpa using hraw⟩
        · split at h <;> cases h
          trivial

end Token

/-! ### Elements -/

namespace Elements

/-- Whether all nodes read so far are in normal form, those of elements that are still open
included. -/
structure Normal (e : Elements) : Prop where
  current : Node.AllNormal e.current
  opened : ∀ o ∈ e.opened, (Token.opening o.1.tag o.1.attrs).Normal ∧ Node.AllNormal o.2

theorem Normal.step {e e' : Elements} {t : Token} (he : e.Normal) (ht : t.Normal)
    (h : e.step t = .ok e') :
    e'.Normal := by
  cases t with
  | skipped =>
    cases h
    exact he
  | endless =>
    cases h
    exact he
  | text t =>
    cases h
    exact ⟨he.current.pushText t, he.opened⟩
  | leaf n =>
    cases h
    cases n with
    | text t => exact absurd ht.2 (by simp [Node.isText])
    | element tag as cs => exact ⟨he.current.cons_element ht.1, he.opened⟩
  | opening tag attrs =>
    cases h
    exact ⟨trivial, List.forall_mem_cons.2 ⟨⟨ht, he.current⟩, he.opened⟩⟩
  | closing tag =>
    rw [Elements.step] at h
    split at h
    · cases h
    · rename_i o outer opened ho
      have hall := he.opened
      rw [ho, List.forall_mem_cons] at hall
      obtain ⟨⟨⟨htag, ha, hvoid, hraw⟩, houter⟩, hopened⟩ := hall
      split at h <;> cases h
      refine ⟨houter.cons_element ?_, hopened⟩
      rw [Node.Normal]
      refine ⟨htag, ha, fun hv => ?_, fun hr => ?_,
        fun _ => Node.allNormal_reverse_iff.2 he.current⟩
      · rw [hvoid] at hv
        cases hv
      · rw [hraw] at hr
        cases hr

theorem Normal.run [EntityCodec] {total : Nat} {ends : Bool} {e : Elements} {s : List Char}
    {ns : List Node} (he : e.Normal) (h : e.run total ends s = .ok ns) : Node.AllNormal ns := by
  fun_induction Elements.run total ends e s with
  | case1 =>
    unfold finish at h
    split at h <;> cases h
    exact Node.allNormal_reverse_iff.2 he.current
  | case2 => cases h
  | case3 => cases h
  | case4 ends e c cs t r ht e' hstep ih => exact ih (he.step (Token.normal_of_next ht) hstep) h

end Elements

/-- What is read from markup is in normal form. -/
theorem Markup.allNormal_of_parse [EntityCodec] {s : String} {ns : List Node}
    (h : Markup.parse s = .ok ns) :
    Node.AllNormal ns :=
  Elements.Normal.run (e := Elements.start) ⟨trivial, fun _ hm => absurd hm List.not_mem_nil⟩ h

end LiveMarkup
