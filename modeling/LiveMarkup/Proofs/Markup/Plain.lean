import LiveMarkup.Markup.Parse
import LiveMarkup.Proofs.Document.Attributes
import LiveMarkup.Proofs.Grammar.Reading
import LiveMarkup.Proofs.Markup.Codec
import LiveMarkup.Proofs.Text.Letter

/-!
# Nodes that markup can tell apart

A node is `Plain` if no name of an attribute has an equals sign and no void element has children.
The nodes that are read from markup are plain (`Markup.plain_of_parse`).  Plain nodes of the same
shape are determined by their markup (`Node.eq_of_htmlAll_eq`), since there each attribute ends
where the next one starts.
-/

namespace LiveMarkup

namespace Attributes

/-- Whether no name has an equals sign. -/
def Plain (as : List Attr) : Prop := ∀ name ∈ names as, '=' ∉ name.toList

end Attributes

namespace Node

mutual

/-- Whether the names of attributes have no equals sign and void elements have no children. -/
def Plain : Node → Prop
  | text _ => True
  | element tag as cs => Attributes.Plain as ∧ (isVoid tag → cs = []) ∧ AllPlain cs

/-- Whether several nodes are plain. -/
def AllPlain : List Node → Prop
  | [] => True
  | n :: ns => n.Plain ∧ AllPlain ns

end

theorem allPlain_iff {ns : List Node} : AllPlain ns ↔ ∀ n ∈ ns, n.Plain := by
  induction ns with
  | nil => simp [AllPlain]
  | cons n ns ih => rw [AllPlain, ih, List.forall_mem_cons]

mutual

/-- A node without attributes. -/
def bare : Node → Node
  | text t => text t
  | element tag _ cs => element tag [] (bareAll cs)

/-- Nodes without attributes. -/
def bareAll : List Node → List Node
  | [] => []
  | n :: ns => n.bare :: bareAll ns

end

end Node

/-! ### Reading markup -/

namespace Token

open Rule

/-- Tokens that stand for plain nodes; elements that are opened are not void. -/
def Plain : Token → Prop
  | leaf n => n.Plain
  | opening tag attrs => Attributes.Plain attrs ∧ ¬isVoid tag
  | _ => True

theorem eq_of_toLower_eq {c : Char} (h : c.toLower = '=') : c = '=' := by
  rcases toLower_cases c with ⟨-, hlower⟩ | ⟨-, he⟩
  · rw [h] at hlower
    cases hlower
  · rw [← he, h]

theorem not_mem_lower {cs : List Char} (h : '=' ∉ cs) : '=' ∉ (lower cs).toList := by
  unfold lower
  rw [String.toList_ofList, List.mem_map]
  rintro ⟨c, hc, he⟩
  exact h (eq_of_toLower_eq he ▸ hc)

theorem plain_of_attr [EntityCodec] {s r : List Char} {a : Attr} (h : attr.read s = .ok a r) :
    '=' ∉ a.name.toList := by
  obtain ⟨_, _, -, h⟩ := read_bind_eq_ok_iff.1 h
  obtain ⟨name, _, hn, h⟩ := read_bind_eq_ok_iff.1 h
  obtain ⟨value, _, -, h⟩ := read_bind_eq_ok_iff.1 h
  cases h
  refine not_mem_lower fun hm => ?_
  have := (read_run1_eq_ok_iff.1 hn).2.1 '=' hm
  exact absurd this (by decide)

theorem plain_of_readMany [EntityCodec] {s r : List Char} {as : List Attr}
    (h : readMany attr advances_attr s = .ok as r) :
    Attributes.Plain as := by
  fun_induction readMany attr advances_attr s generalizing as with
  | case1 s a t ht ih =>
    obtain ⟨as', has, rfl⟩ := Reply.map_eq_ok_iff.1 h
    exact List.forall_mem_cons.2 ⟨plain_of_attr ht, ih has⟩
  | case2 s t ht =>
    cases h
    exact fun _ hm => absurd hm List.not_mem_nil
  | case3 s t ht => cases h

theorem plain_of_openingTag [EntityCodec] {s r : List Char} {tag : String} {attrs : List Attr}
    {closed : Bool} (h : openingTag.read s = .ok (tag, attrs, closed) r) :
    Attributes.Plain attrs := by
  obtain ⟨_, _, -, h⟩ := read_bind_eq_ok_iff.1 h
  obtain ⟨_, _, -, h⟩ := read_bind_eq_ok_iff.1 h
  obtain ⟨as, _, ha, h⟩ := read_bind_eq_ok_iff.1 h
  obtain ⟨_, _, -, h⟩ := read_bind_eq_ok_iff.1 h
  obtain ⟨_, _, -, h⟩ := read_bind_eq_ok_iff.1 h
  obtain ⟨_, _, -, h⟩ := read_bind_eq_ok_iff.1 h
  cases h
  exact plain_of_readMany ha

theorem allPlain_textNodes (t : List Char) : Node.AllPlain (textNodes t) := by
  unfold textNodes
  split <;> simp [Node.AllPlain, Node.Plain]

theorem plain_of_rawElement {tag : String} {attrs : List Attr} {s r : List Char} {t : Token}
    (ha : Attributes.Plain attrs) (hv : ¬isVoid tag)
    (h : rawElement tag attrs s = .ok (t, r)) : t.Plain := by
  unfold rawElement at h
  split at h
  · cases h
  · split at h <;> cases h
    rw [Plain, Node.Plain]
    exact ⟨ha, fun hn => absurd hn hv, allPlain_textNodes _⟩

theorem plain_of_skip? {ends : Bool} {s r : List Char} {t : Token}
    (h : skip? ends s = some (t, r)) :
    t.Plain := by
  unfold skip? at h
  split at h
  · split at h
    · cases h
      trivial
    · obtain ⟨_, -, h⟩ := Option.map_eq_some_iff.1 h
      cases h
      trivial
  · split at h
    · obtain ⟨_, -, h⟩ := Option.map_eq_some_iff.1 h
      cases h
      trivial
    · cases h

theorem plain_of_next [EntityCodec] {total : Nat} {ends : Bool} {s r : List Char} {t : Token}
    (h : next total ends s = .ok (t, r)) : t.Plain := by
  unfold next at h
  split at h
  · cases h
    trivial
  · split at h
    · cases h
      exact plain_of_skip? ‹_›
    · split at h
      · cases h
        trivial
      · split at h
        · rename_i ho
          have ha := plain_of_openingTag ho
          split at h
          · cases h
            rw [Plain, Node.Plain]
            exact ⟨ha, fun _ => rfl, trivial⟩
          · rename_i hc
            rw [Bool.or_eq_true, not_or] at hc
            split at h
            · exact plain_of_rawElement ha hc.2 h
            · cases h
              exact ⟨ha, hc.2⟩
        · split at h <;> cases h
          trivial

end Token

namespace Elements

/-- Whether all nodes read so far are plain, those that are still open included. -/
structure Plain (e : Elements) : Prop where
  current : Node.AllPlain e.current
  opened : ∀ o ∈ e.opened, Attributes.Plain o.1.attrs ∧ ¬isVoid o.1.tag ∧ Node.AllPlain o.2

theorem allPlain_pushText (t : List Char) {ns : List Node} (h : Node.AllPlain ns) :
    Node.AllPlain (pushText t ns) := by
  unfold pushText
  split <;> split <;> simp_all [Node.AllPlain, Node.Plain]

theorem Plain.step {e e' : Elements} {t : Token} (he : e.Plain) (ht : t.Plain)
    (h : e.step t = .ok e') :
    e'.Plain := by
  cases t with
  | skipped =>
    cases h
    exact he
  | endless =>
    cases h
    exact he
  | text t =>
    cases h
    exact ⟨allPlain_pushText t he.current, he.opened⟩
  | leaf n =>
    cases h
    exact ⟨⟨ht, he.current⟩, he.opened⟩
  | opening tag attrs =>
    cases h
    exact ⟨trivial, List.forall_mem_cons.2 ⟨⟨ht.1, ht.2, he.current⟩, he.opened⟩⟩
  | closing tag =>
    rw [Elements.step] at h
    split at h
    · cases h
    · rename_i o outer opened ho
      have hall := he.opened
      rw [ho, List.forall_mem_cons] at hall
      split at h <;> cases h
      refine ⟨⟨?_, hall.1.2.2⟩, hall.2⟩
      rw [Node.Plain]
      refine ⟨hall.1.1, fun hv => absurd hv hall.1.2.1, ?_⟩
      rw [Node.allPlain_iff]
      exact fun n hn => Node.allPlain_iff.1 he.current n (List.mem_reverse.1 hn)

theorem Plain.run [EntityCodec] {total : Nat} {ends : Bool} {e : Elements} {s : List Char}
    {ns : List Node} (he : e.Plain) (h : e.run total ends s = .ok ns) : Node.AllPlain ns := by
  fun_induction Elements.run total ends e s with
  | case1 =>
    unfold finish at h
    split at h <;> cases h
    exact Node.allPlain_iff.2 fun n hn => Node.allPlain_iff.1 he.current n (List.mem_reverse.1 hn)
  | case2 => cases h
  | case3 => cases h
  | case4 ends e c cs t r ht e' hstep ih => exact ih (he.step (Token.plain_of_next ht) hstep) h

end Elements

/-- The nodes that are read from markup are plain. -/
theorem Markup.plain_of_parse [EntityCodec] {s : String} {ns : List Node}
    (h : Markup.parse s = .ok ns) :
    Node.AllPlain ns :=
  Elements.Plain.run (e := Elements.start) ⟨trivial, fun _ hm => absurd hm List.not_mem_nil⟩ h

/-! ### Writing markup -/

/-- A list is determined up to the first place of a member that is marked off by it. -/
theorem append_cons_inj {α : Type} {c : α} {xs ys r r' : List α} (hx : c ∉ xs) (hy : c ∉ ys)
    (h : xs ++ c :: r = ys ++ c :: r') : xs = ys ∧ r = r' := by
  induction xs generalizing ys with
  | nil =>
    cases ys with
    | nil => exact ⟨rfl, List.tail_eq_of_cons_eq h⟩
    | cons y ys =>
      obtain ⟨rfl, -⟩ := List.cons.inj h
      exact absurd List.mem_cons_self hy
  | cons x xs ih =>
    rw [List.mem_cons, not_or] at hx
    cases ys with
    | nil =>
      obtain ⟨rfl, -⟩ := List.cons.inj h
      exact absurd rfl hx.1
    | cons y ys =>
      rw [List.mem_cons, not_or] at hy
      obtain ⟨rfl, ht⟩ := List.cons.inj h
      obtain ⟨rfl, hr⟩ := ih hx.2 hy.2 ht
      exact ⟨rfl, hr⟩

/-- Attributes that stand in a tag are determined up to its end. -/
theorem Attributes.chars_inj [EntityCodec] {as bs : List Attr} {r r' : List Char}
    (ha : Attributes.Plain as) (hb : Attributes.Plain bs)
    (h : as.flatMap Attr.chars ++ '>' :: r = bs.flatMap Attr.chars ++ '>' :: r') :
    as = bs ∧ r = r' := by
  induction as generalizing bs with
  | nil =>
    cases bs with
    | nil => exact ⟨rfl, List.tail_eq_of_cons_eq h⟩
    | cons b bs => simp [Attr.chars] at h
  | cons a as ih =>
    cases bs with
    | nil => simp [Attr.chars] at h
    | cons b bs =>
      obtain ⟨name, value⟩ := a
      obtain ⟨name', value'⟩ := b
      obtain ⟨hn, has⟩ := List.forall_mem_cons.1 ha
      obtain ⟨hn', hbs⟩ := List.forall_mem_cons.1 hb
      simp only [List.flatMap_cons, Attr.chars, List.cons_append, List.append_assoc,
        List.nil_append, List.cons.injEq, true_and] at h
      obtain ⟨hname, h⟩ := append_cons_inj hn hn' h
      obtain ⟨hvalue, h⟩ := append_cons_inj (EntityCodec.not_mem_encodeAttribute _)
        (EntityCodec.not_mem_encodeAttribute _)
        (List.tail_eq_of_cons_eq h)
      obtain ⟨rfl, hr⟩ := ih has hbs h
      obtain rfl : name = name' := String.toList_injective hname
      obtain rfl : value = value' :=
        String.toList_injective (EntityCodec.encodeAttribute_inj hvalue)
      exact ⟨rfl, hr⟩

namespace Node

mutual

theorem chars_inj [EntityCodec] (raw : Bool) : {n n' : Node} → {r r' : List Char} → n.Plain →
    n'.Plain → n.bare = n'.bare →
    n.chars raw ++ r = n'.chars raw ++ r' → n = n' ∧ r = r'
  | text t, text t', r, r', _, _, hb, h => by
    rw [bare, bare] at hb
    cases hb
    exact ⟨rfl, List.append_cancel_left h⟩
  | text t, element tag as cs, r, r', _, _, hb, _ => by
    rw [bare, bare] at hb
    cases hb
  | element tag as cs, text t, r, r', _, _, hb, _ => by
    rw [bare, bare] at hb
    cases hb
  | element tag as cs, element tag' as' cs', r, r', hp, hp', hb, h => by
    rw [Plain] at hp hp'
    rw [bare, bare, Node.element.injEq] at hb
    obtain ⟨rfl, -, hb⟩ := hb
    rw [chars, chars] at h
    simp only [openTag, List.append_assoc, List.cons_append, List.nil_append,
      List.cons.injEq, true_and, List.append_cancel_left_eq] at h
    obtain ⟨rfl, hrest⟩ := Attributes.chars_inj hp.1 hp'.1 h
    split_ifs at hrest with hv
    · rw [hp.2.1 hv, hp'.2.1 hv]
      exact ⟨rfl, hrest⟩
    · rw [List.append_assoc, List.append_assoc] at hrest
      obtain ⟨rfl, hr⟩ := charsAll_inj (isRawText tag) hp.2.2 hp'.2.2 hb hrest
      exact ⟨rfl, List.append_cancel_left hr⟩

theorem charsAll_inj [EntityCodec] (raw : Bool) :
    {ns ns' : List Node} → {r r' : List Char} → AllPlain ns → AllPlain ns' →
    bareAll ns = bareAll ns' → charsAll raw ns ++ r = charsAll raw ns' ++ r' → ns = ns' ∧ r = r'
  | [], [], r, r', _, _, _, h => ⟨rfl, h⟩
  | [], n :: ns, r, r', _, _, hb, _ => by
    rw [bareAll, bareAll] at hb
    cases hb
  | n :: ns, [], r, r', _, _, hb, _ => by
    rw [bareAll, bareAll] at hb
    cases hb
  | n :: ns, n' :: ns', r, r', hp, hp', hb, h => by
    rw [AllPlain] at hp hp'
    rw [bareAll, bareAll, List.cons.injEq] at hb
    rw [charsAll, charsAll, List.append_assoc, List.append_assoc] at h
    obtain ⟨rfl, hrest⟩ := chars_inj raw hp.1 hp'.1 hb.1 h
    obtain ⟨rfl, hr⟩ := charsAll_inj raw hp.2 hp'.2 hb.2 hrest
    exact ⟨rfl, hr⟩

end

/-- Plain nodes of the same shape are determined by their markup. -/
theorem eq_of_htmlAll_eq [EntityCodec] {raw : Bool} {ns ns' : List Node} (hp : AllPlain ns)
    (hp' : AllPlain ns') (hb : bareAll ns = bareAll ns') (h : htmlAll raw ns = htmlAll raw ns') :
    ns = ns' := by
  rw [htmlAll_eq, htmlAll_eq] at h
  have hc := congrArg (· ++ []) (String.ofList_injective h)
  exact (charsAll_inj raw hp hp' hb hc).1

end Node

end LiveMarkup
