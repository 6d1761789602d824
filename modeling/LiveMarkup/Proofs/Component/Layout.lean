import LiveMarkup.Component.Definition
import LiveMarkup.Proofs.Markup.Written
import Mathlib.Data.List.Perm.Basic

/-!
# Definition files in print

A definition file is written as a list of `Definition.Part`s: a template, a style sheet and a
script, in any order, with blank text around them.  Blocks are looked for by their marks alone, so
no part may hold the mark of another one (`Definition.Layout`).  Then each mark is found where its
part was written, and reading the file gives the texts of its parts (`Definition.parse_parts`).  The
template may hold everything but its own closing mark, since it is cut out before the other two are
looked for; where the remains meet no mark arises, because every part starts with a blank or an
angle bracket and neither of them stands inside a mark.
-/

namespace LiveMarkup

/-! ### Where a mark occurs -/

theorem splitAt?_of_after? {p s r : List Char} (h : after? p s = some r) :
    splitAt? p s = some ([], r) := by
  cases s with
  | nil => rw [splitAt?, h, Option.map_some]
  | cons c s => rw [splitAt?, h]

/-- No occurrence of a text ends before the first one does. -/
theorem exists_splitAt?_append (a p x : List Char) :
    ∃ b r, splitAt? p (a ++ (p ++ x)) = some (b, r) ∧ x <:+ r := by
  induction a with
  | nil => exact ⟨[], x, splitAt?_of_after? (after?_eq_some_iff.2 rfl), List.suffix_rfl⟩
  | cons c a ih =>
    rw [List.cons_append, splitAt?]
    split
    · rename_i r hr
      have hs : c :: (a ++ (p ++ x)) = p ++ r := after?_eq_some_iff.1 hr
      have hx : x <:+ p ++ r := by
        rw [← hs, ← List.append_assoc, ← List.cons_append]
        exact List.suffix_append _ x
      have hlen := congrArg List.length hs
      simp only [List.length_cons, List.length_append] at hlen
      exact ⟨[], r, rfl, List.suffix_of_suffix_length_le hx (List.suffix_append p r) (by omega)⟩
    · obtain ⟨b, r, hb, hx⟩ := ih
      exact ⟨c :: b, r, by rw [hb, Option.map_some], hx⟩

theorem splitAt?_eq_none_iff {p s : List Char} : splitAt? p s = none ↔ ¬p <:+: s := by
  constructor
  · rintro h ⟨a, x, rfl⟩
    obtain ⟨b, r, hb, -⟩ := exists_splitAt?_append a p x
    rw [List.append_assoc, hb] at h
    cases h
  · intro h
    rw [Option.eq_none_iff_forall_not_mem]
    rintro ⟨b, r⟩ hb
    exact h ⟨b, r, (append_of_splitAt? hb).symm⟩

section Infix

variable {c : Char} {q u v : List Char}

/-- A mark that occurs in neither of two texts does not arise where they meet, if the second one
does not start with a character from the inside of the mark. -/
theorem not_infix_append (hu : ¬(c :: q) <:+: u) (hv : ¬(c :: q) <:+: v)
    (hstart : ∀ d ∈ v.head?, d ∉ q) :
    ¬(c :: q) <:+: u ++ v := by
  rw [List.infix_append_iff]
  rintro (h | h | ⟨l, m, hlm, hl, hm⟩)
  · exact hu h
  · exact hv h
  · cases l with
    | nil => exact hv (hlm ▸ hm.isInfix)
    | cons e l =>
      cases m with
      | nil =>
        rw [List.append_nil] at hlm
        exact hu (hlm ▸ hl.isInfix)
      | cons d m =>
        obtain ⟨k, rfl⟩ := hm
        refine hstart d rfl ?_
        rw [(List.cons.inj hlm).2]
        exact List.mem_append_right _ List.mem_cons_self

/-- A mark does not start in a text without its first character. -/
theorem infix_append_iff_of_not_mem (h : c ∉ u) : (c :: q) <:+: u ++ v ↔ (c :: q) <:+: v := by
  induction u with
  | nil => rw [List.nil_append]
  | cons d u ih =>
    rw [List.mem_cons, not_or] at h
    rw [List.cons_append, List.infix_cons_iff, List.cons_prefix_cons, ih h.2]
    exact or_iff_right fun hd => h.1 hd.1

/-- Whether two texts have different characters in some place. -/
def Clash (q p : List Char) : Prop := ∃ cd ∈ q.zip p, cd.1 ≠ cd.2

instance (q p : List Char) : Decidable (Clash q p) :=
  inferInstanceAs (Decidable (∃ cd ∈ q.zip p, cd.1 ≠ cd.2))

theorem Clash.not_begins {p : List Char} (h : Clash q p) (v : List Char) : ¬q <+: p ++ v := by
  induction q generalizing p with
  | nil => simp [Clash] at h
  | cons d q ih =>
    cases p with
    | nil => simp [Clash] at h
    | cons e p =>
      rw [List.cons_append, List.cons_prefix_cons]
      rintro ⟨rfl, hq⟩
      refine ih ?_ hq
      simpa [Clash] using h

end Infix

namespace Definition

/-! ### Parts -/

/-- A block without its tag: what the opening tag holds and what stands inside the block. -/
structure Block where
  attrs : String
  body : String

/-- A part of a definition file. -/
inductive Part where
  | blank (s : String)
  | template (t : String)
  | block (tag : String) (b : Block)

/-- A block as it is written. -/
def Block.chars (tag : String) (b : Block) : List Char :=
  '<' :: ((tag.toList ++ b.attrs.toList ++ ['>']) ++
    (b.body.toList ++ ('<' :: '/' :: tag.toList ++ ['>'])))

theorem Block.chars_append (tag : String) (b : Block) (r : List Char) : b.chars tag ++ r =
    '<' :: tag.toList ++
      (b.attrs.toList ++
        (['>'] ++ (b.body.toList ++ ('<' :: '/' :: tag.toList ++ ['>'] ++ r)))) := by
  simp only [chars, List.append_assoc, List.cons_append]

namespace Part

/-- A part as it is written. -/
def chars : Part → List Char
  | blank s => s.toList
  | template t => "<template>".toList ++ (t.toList ++ "</template>".toList)
  | block tag b => b.chars tag

/-- Several parts as they are written. -/
def charsAll (ps : List Part) : List Char := ps.flatMap chars

def isBlank : Part → Bool
  | blank _ => true
  | _ => false

/-- Whether a part is a block with a tag. -/
def hasTag (tag : String) : Part → Bool
  | block tag' _ => tag' == tag
  | _ => false

end Part

/-- The tags of the blocks beside the template. -/
def tags : List String := ["style", "script"]

/-- What stands behind the angle bracket in the marks that open a block. -/
def openings : List String := "template>" :: tags

/-- Whether the text in a block holds no mark that opens a block nor the one that closes this block,
and its opening tag ends where it should. -/
structure Block.Plain (tag : String) (b : Block) : Prop where
  attrs : '<' ∉ b.attrs.toList ∧ '>' ∉ b.attrs.toList
  openings : ∀ w ∈ openings, ¬('<' :: w.toList) <:+: b.body.toList
  closing : ¬('<' :: '/' :: tag.toList ++ ['>']) <:+: b.body.toList

theorem Block.plain_iff {tag : String} {b : Block} : b.Plain tag ↔
    ('<' ∉ b.attrs.toList ∧ '>' ∉ b.attrs.toList) ∧
      (∀ w ∈ Definition.openings, splitAt? ('<' :: w.toList) b.body.toList = none) ∧
      splitAt? ('<' :: '/' :: tag.toList ++ ['>']) b.body.toList = none := by
  simp only [splitAt?_eq_none_iff]
  exact ⟨fun h => ⟨h.attrs, h.openings, h.closing⟩, fun h => ⟨h.1, h.2.1, h.2.2⟩⟩

instance (tag : String) (b : Block) : Decidable (b.Plain tag) :=
  decidable_of_iff _ Block.plain_iff.symm

/-- Whether parts are the template `t`, a style sheet and a script, these two if there are any, in
some order and with blank text around them. -/
structure Layout (t : String) (style script : Option Block) (ps : List Part) : Prop where
  template : ¬"</template>".toList <:+: t.toList
  plain_style : ∀ b ∈ style, b.Plain "style"
  plain_script : ∀ b ∈ script, b.Plain "script"
  blank : ∀ s, Part.blank s ∈ ps → ∀ c ∈ s.toList, LiveMarkup.isBlank c = true
  blocks : (ps.filter fun p => !p.isBlank).Perm
    (.template t ::
      ((style.map (Part.block "style")).toList ++ (script.map (Part.block "script")).toList))

/-- Whether a text has a template block. -/
def HasTemplate (text : String) : Prop :=
  ∃ a t b, text.toList = a ++ ("<template>".toList ++ (t ++ ("</template>".toList ++ b)))

/-! ### Marks in parts -/

/-- Whether a part may stand outside the template: it is blank or a plain block with one of the
tags. -/
inductive Part.Outer : Part → Prop
  | blank {s : String} (hs : ∀ c ∈ s.toList, LiveMarkup.isBlank c = true) : Outer (blank s)
  | block {tag : String} (htag : tag ∈ tags) {b : Block} (hb : b.Plain tag) : Outer (block tag b)

theorem inner_of_mem_openings :
    ∀ w ∈ openings, ∀ c ∈ w.toList, c ≠ '<' ∧ LiveMarkup.isBlank c = false := by
  decide

theorem clash_of_mem_openings : ∀ w ∈ openings, ∀ tag ∈ tags,
    w ≠ tag → Clash w.toList tag.toList := by
  decide

theorem template_ne_tag : ∀ tag ∈ tags, (tag == "template>") = false := by
  decide

theorem clash_slash : ∀ w ∈ openings, Clash w.toList ['/'] := by
  decide

variable {w tag : String} {b : Block} {p : Part} {ps : List Part}

theorem angle_not_mem_tag (htag : tag ∈ tags) : '<' ∉ tag.toList := fun h =>
  (inner_of_mem_openings tag (List.mem_cons_of_mem _ htag) '<' h).1 rfl

/-- No mark that opens a block stands in a closing tag. -/
theorem not_infix_closing (hw : w ∈ openings) (htag : tag ∈ tags) :
    ¬('<' :: w.toList) <:+: '<' :: '/' :: tag.toList ++ ['>'] := by
  have hrest : '<' ∉ '/' :: tag.toList ++ ['>'] := by
    simp [angle_not_mem_tag htag]
  rw [List.cons_append, List.infix_cons_iff, List.cons_prefix_cons, not_or]
  exact ⟨fun h => (clash_slash w hw).not_begins _ h.2, fun h => hrest (h.subset List.mem_cons_self)⟩

/-- In a plain block no mark opens another one. -/
theorem not_infix_block (hw : w ∈ openings) (htag : tag ∈ tags) (hne : w ≠ tag) (hb : b.Plain tag) :
    ¬('<' :: w.toList) <:+: b.chars tag := by
  have hangle : '<' ∉ tag.toList ++ b.attrs.toList ++ ['>'] := by
    simp [angle_not_mem_tag htag, hb.attrs.1]
  rw [Block.chars, List.infix_cons_iff, List.cons_prefix_cons, not_or]
  constructor
  · rintro ⟨-, hprefix⟩
    rw [List.append_assoc, List.append_assoc] at hprefix
    exact (clash_of_mem_openings w hw tag htag hne).not_begins _ hprefix
  · rw [infix_append_iff_of_not_mem hangle]
    refine not_infix_append (hb.openings w hw) (not_infix_closing hw htag) ?_
    rintro d ⟨⟩ hd
    exact (inner_of_mem_openings w hw _ hd).1 rfl

theorem Part.Outer.head (h : p.Outer) : ∀ d ∈ p.chars.head?,
    d = '<' ∨ LiveMarkup.isBlank d = true := by
  cases h with
  | blank hs => exact fun d hd => Or.inr (hs d (List.mem_of_mem_head? hd))
  | block htag hb =>
    rintro d ⟨⟩
    exact Or.inl rfl

theorem Part.Outer.not_occurs (h : p.Outer) (hw : w ∈ openings) (htag : p.hasTag w = false) :
    ¬('<' :: w.toList) <:+: p.chars := by
  cases h with
  | blank hs =>
    intro hm
    exact absurd (hs '<' (hm.subset List.mem_cons_self)) (by decide)
  | block htag' hb =>
    exact not_infix_block hw htag' (fun he => by simp [Part.hasTag, he] at htag) hb

theorem head_charsAll (h : ∀ p ∈ ps, p.Outer) :
    ∀ d ∈ (Part.charsAll ps).head?, d = '<' ∨ LiveMarkup.isBlank d = true := by
  induction ps with
  | nil => nofun
  | cons p ps ih =>
    rw [List.forall_mem_cons] at h
    rw [Part.charsAll, List.flatMap_cons, List.head?_append]
    rcases hp : p.chars.head? with _ | c
    · exact ih h.2
    · exact fun d hd => h.1.head d (hp ▸ hd)

/-- A mark does not stand in parts that it does not open. -/
theorem not_infix_charsAll (hw : w ∈ openings) (h : ∀ p ∈ ps, p.Outer)
    (htag : ∀ p ∈ ps, p.hasTag w = false) :
    ¬('<' :: w.toList) <:+: Part.charsAll ps := by
  induction ps with
  | nil => simp [Part.charsAll]
  | cons p ps ih =>
    rw [List.forall_mem_cons] at h htag
    refine not_infix_append (h.1.not_occurs hw htag.1) (ih h.2 htag.2) fun d hd hmem => ?_
    obtain ⟨hangle, hblank⟩ := inner_of_mem_openings w hw d hmem
    rcases head_charsAll h.2 d hd with hd | hd
    · exact hangle hd
    · rw [hblank] at hd
      cases hd

/-! ### Reading -/

/-- The block with a tag is found where it was written, and none is found where there is none. -/
theorem tagBlock?_charsAll (htag : tag ∈ tags) (h : ∀ p ∈ ps, p.Outer) {ob : Option Block}
    (hps : ps.filter (Part.hasTag tag) = (ob.map (Part.block tag)).toList) :
    tagBlock? tag.toList (Part.charsAll ps) = ob.map fun b => b.body.toList := by
  have hopen : tag ∈ openings := List.mem_cons_of_mem _ htag
  cases ob with
  | none =>
    have hnone : ∀ p ∈ ps, p.hasTag tag = false := by simpa using hps
    rw [tagBlock?, splitAt?_eq_none_iff.2 (not_infix_charsAll hopen h hnone)]
    rfl
  | some b =>
    obtain ⟨l, r, rfl, hl, -, -⟩ := List.filter_eq_cons_iff.1 hps
    have hleft : ∀ p ∈ l, p.hasTag tag = false := fun p hp => Bool.eq_false_iff.2 (hl p hp)
    have hb : b.Plain tag := by
      cases h (.block tag b) (by simp) with
      | block _ hb => exact hb
    have hbefore : ¬('<' :: tag.toList) <:+: Part.charsAll l :=
      not_infix_charsAll hopen (fun p hp => h p (List.mem_append_left _ hp)) hleft
    have hattrs : ¬['>'] <:+: b.attrs.toList := fun hm => hb.attrs.2 (hm.subset List.mem_cons_self)
    have hclose : '<' ∉ '/' :: tag.toList ++ ['>'] := by simp [angle_not_mem_tag htag]
    have hchars : Part.charsAll (l ++ Part.block tag b :: r) =
        Part.charsAll l ++ (b.chars tag ++ Part.charsAll r) := by
      rw [Part.charsAll, List.flatMap_append, List.flatMap_cons]
      rfl
    rw [tagBlock?, hchars, Block.chars_append,
      Token.splitAt?_append (angle_not_mem_tag htag) hbefore]
    dsimp only
    rw [Token.splitAt?_append List.not_mem_nil hattrs]
    dsimp only
    rw [List.cons_append, Token.splitAt?_append hclose hb.closing]
    rfl

/-- A block is cut out just if there is one. -/
theorem cutBlock?_eq_none_iff {start stop s : List Char} :
    cutBlock? start stop s = none ↔ ¬∃ a t b, s = a ++ (start ++ (t ++ (stop ++ b))) := by
  rw [cutBlock?]
  constructor
  · rintro h ⟨a, t, b, rfl⟩
    obtain ⟨before, r, hsplit, x, rfl⟩ := exists_splitAt?_append a start (t ++ (stop ++ b))
    rw [hsplit] at h
    refine splitAt?_eq_none_iff.1 (Option.map_eq_none_iff.1 h) ⟨x ++ t, b, ?_⟩
    simp only [List.append_assoc]
  · intro h
    rcases hopen : splitAt? start s with _ | ⟨a, r⟩
    · rfl
    · rw [Option.map_eq_none_iff, splitAt?_eq_none_iff]
      rintro ⟨t, b, rfl⟩
      refine h ⟨a, t, b, ?_⟩
      rw [append_of_splitAt? hopen]
      simp only [List.append_assoc]

theorem parse_eq_error_iff {text : String} :
    parse text = .error .noTemplate ↔ ¬HasTemplate text := by
  rw [HasTemplate, ← cutBlock?_eq_none_iff, parse]
  rcases cutBlock? "<template>".toList "</template>".toList text.toList with
    _ | ⟨before, inner, after⟩ <;> simp

/-- A block is cut out where it was written, if its opening mark does not stand before it nor its
closing mark in it. -/
theorem cutBlock?_append {c d : Char} {q k before inner : List Char} (hq : c ∉ q) (hk : d ∉ k)
    (hbefore : ¬(c :: q) <:+: before) (hinner : ¬(d :: k) <:+: inner) (after : List Char) :
    cutBlock? (c :: q) (d :: k) (before ++ (c :: q ++ (inner ++ (d :: k ++ after)))) =
      some (before, inner, after) := by
  rw [cutBlock?, Token.splitAt?_append hq hbefore]
  dsimp only
  rw [Token.splitAt?_append hk hinner]
  rfl

variable {t : String} {style script : Option Block}

/-- The blocks of the other kind do not count for a tag. -/
theorem filter_blocks (ob : Option Block) (tag' : String) :
    (ob.map (Part.block tag')).toList.filter (Part.hasTag tag) =
      if tag' = tag then (ob.map (Part.block tag')).toList else [] := by
  cases ob with
  | none => simp
  | some b => by_cases h : tag' = tag <;> simp [Part.hasTag, h]

theorem eq_toList_of_perm {α : Type} {as : List α} {o : Option α} (h : as.Perm o.toList) :
    as = o.toList := by
  cases o with
  | none => exact List.perm_nil.1 h
  | some a => exact List.perm_singleton.1 h

/-- Around the template there are blank parts, at most one style sheet and at most one script. -/
theorem Layout.exists_outer (h : Layout t style script ps) : ∃ l r, ps = l ++ .template t :: r ∧
    (∀ p ∈ l ++ r, p.Outer) ∧
    (l ++ r).filter (Part.hasTag "style") = (style.map (Part.block "style")).toList ∧
    (l ++ r).filter (Part.hasTag "script") = (script.map (Part.block "script")).toList := by
  have hmem : Part.template t ∈ ps := (List.mem_filter.1 (h.blocks.mem_iff.2 List.mem_cons_self)).1
  obtain ⟨l, r, rfl⟩ := List.append_of_mem hmem
  have hperm : ((l ++ r).filter fun p => !p.isBlank).Perm
      ((style.map (Part.block "style")).toList ++ (script.map (Part.block "script")).toList) := by
    have hblocks := h.blocks
    rw [List.filter_append, List.filter_cons_of_pos rfl] at hblocks
    rw [List.filter_append]
    exact (List.perm_middle.symm.trans hblocks).cons_inv
  have htagged (tag : String) : ((l ++ r).filter (Part.hasTag tag)).Perm
      ((style.map (Part.block "style")).toList.filter (Part.hasTag tag) ++
        (script.map (Part.block "script")).toList.filter (Part.hasTag tag)) := by
    have hfilter : (l ++ r).filter (Part.hasTag tag) =
        ((l ++ r).filter fun p => !p.isBlank).filter (Part.hasTag tag) := by
      rw [List.filter_filter]
      refine List.filter_congr fun p _ => ?_
      cases p <;> simp [Part.hasTag, Part.isBlank]
    rw [hfilter, ← List.filter_append]
    exact hperm.filter _
  refine ⟨l, r, rfl, fun p hp => ?_, eq_toList_of_perm ?_, eq_toList_of_perm ?_⟩
  · cases hblank : p.isBlank with
    | true =>
      cases p with
      | blank s =>
        have hps : Part.blank s ∈ l ++ .template t :: r :=
          ((List.sublist_cons_self _ r).append_left l).subset hp
        exact .blank (h.blank s hps)
      | _ => cases hblank
    | false =>
      have hp' := hperm.mem_iff.1 (List.mem_filter.2 ⟨hp, by simp [hblank]⟩)
      rw [List.mem_append, Option.mem_toList, Option.mem_toList, Option.map_eq_some_iff,
        Option.map_eq_some_iff] at hp'
      rcases hp' with ⟨b, hb, rfl⟩ | ⟨b, hb, rfl⟩
      · exact .block (by decide) (h.plain_style b hb)
      · exact .block (by decide) (h.plain_script b hb)
  · have hstyle := htagged "style"
    rwa [filter_blocks, filter_blocks, if_pos rfl, if_neg (by decide), List.append_nil] at hstyle
  · have hscript := htagged "script"
    rwa [filter_blocks, filter_blocks, if_neg (by decide), if_pos rfl, List.nil_append] at hscript

theorem charsAll_template (l r : List Part) (t : String) : Part.charsAll (l ++ .template t :: r) =
    Part.charsAll l ++
      ("<template>".toList ++ (t.toList ++ ("</template>".toList ++ Part.charsAll r))) := by
  have hassoc (a b c d : List Char) : a ++ (b ++ c) ++ d = a ++ (b ++ (c ++ d)) := by
    rw [List.append_assoc, List.append_assoc]
  rw [Part.charsAll, List.flatMap_append, List.flatMap_cons]
  exact congrArg (Part.charsAll l ++ ·) (hassoc _ _ _ _)

/-- The template block is cut out of the parts. -/
theorem Layout.cutBlock?_charsAll {l r : List Part}
    (h : Layout t style script (l ++ .template t :: r)) (hl : ∀ p ∈ l, p.Outer) :
    cutBlock? "<template>".toList "</template>".toList (Part.charsAll (l ++ .template t :: r)) =
      some (Part.charsAll l, t.toList, Part.charsAll r) := by
  have hbefore : ¬('<' :: "template>".toList) <:+: Part.charsAll l := by
    refine not_infix_charsAll List.mem_cons_self hl fun p hp => ?_
    cases hl p hp with
    | blank => rfl
    | block htag => exact template_ne_tag _ htag
  rw [charsAll_template]
  exact cutBlock?_append (q := "template>".toList) (k := "/template>".toList) (by decide)
    (by decide) hbefore h.template _

/-- A definition file that is written as a template, a style sheet and a script, in any order and
with blank text around them, is read as the texts of these parts.  A text in which there is no
template block is no definition, and it is the only text that is none. -/
theorem parse_parts :
    (∀ (t : String) (style script : Option Block) (ps : List Part), Layout t style script ps →
      parse (String.ofList (Part.charsAll ps)) =
        .ok ⟨t, (style.map Block.body).getD "", script.map Block.body⟩) ∧
    ∀ text : String, parse text = .error .noTemplate ↔ ¬HasTemplate text := by
  refine ⟨fun t style script ps h => ?_, fun text => parse_eq_error_iff⟩
  obtain ⟨l, r, rfl, houter, hstyle, hscript⟩ := h.exists_outer
  have hcut := h.cutBlock?_charsAll fun p hp => houter p (List.mem_append_left r hp)
  have houtside : Part.charsAll l ++ Part.charsAll r = Part.charsAll (l ++ r) :=
    List.flatMap_append.symm
  rw [parse, String.toList_ofList (l := Part.charsAll _), hcut]
  dsimp only
  rw [houtside, tagBlock?_charsAll (by decide) houter hstyle,
    tagBlock?_charsAll (by decide) houter hscript, String.ofList_toList]
  cases style <;> cases script <;> simp

/-- A file with the script first and with blocks in the template, one of them unfinished. -/
theorem parse_parts_script_first :
    let t := "<b>x</b><style>.i\x7b\x7d</style><script"
    let style : Block := ⟨"", "b > i \x7b\x7d </b"⟩
    let script : Block := ⟨" lang=\"ts\"", "a < b"⟩
    let ps :=
      [Part.block "script" script, .blank "\n", .template t, .blank " ", .block "style" style]
    Layout t (some style) (some script) ps ∧
      parse (String.ofList (Part.charsAll ps)) = .ok ⟨t, "b > i \x7b\x7d </b", some "a < b"⟩ := by
  intro t style script ps
  have hlayout : Layout t (some style) (some script) ps := by
    refine ⟨splitAt?_eq_none_iff.1 (by decide +kernel), ?_, ?_, ?_, ?_⟩
    · rintro b ⟨⟩
      decide +kernel
    · rintro b ⟨⟩
      decide +kernel
    · intro s hs
      simp only [ps, List.mem_cons, reduceCtorEq, Part.blank.injEq, List.not_mem_nil, false_or,
        or_false] at hs
      rcases hs with rfl | rfl <;> decide
    · exact (List.perm_append_singleton _ _).symm
  exact ⟨hlayout, parse_parts.1 t (some style) (some script) ps hlayout⟩

end Definition

end LiveMarkup
