import LiveMarkup.Markup.Reference
import LiveMarkup.Proofs.Markup.Written

/-!
# The end of raw text

The content of a raw-text element ends where `</` and its name in small letters stand for the first
time.  The closing tag there may go on with its name or may be that of another element: its name is
not looked at once more.  A closing tag in capital letters is content.  So an element with one
closing tag behind its content is read just if the name in the closing tag starts with that of the
element, in small letters (`Markup.parse_rawText`).
-/

namespace LiveMarkup

/-- A fixed text does not stand where its first character does not. -/
theorem splitAt?_of_not_mem {c : Char} {q s : List Char} (h : c ∉ s) :
    splitAt? (c :: q) s = none := by
  induction s with
  | nil => rfl
  | cons d s ih =>
    rw [List.mem_cons, not_or] at h
    rw [splitAt?, show after? (c :: q) (d :: s) = none from if_neg h.1, ih h.2]
    rfl

/-- Behind a text that holds no closing tag, what starts like a closing tag is the first one. -/
theorem splitAt?_closing {p body rest : List Char} (hbody : ¬['<', '/'] <:+: body)
    (hrest : '<' ∉ rest) :
    splitAt? ('<' :: '/' :: p) (body ++ '<' :: '/' :: rest) = (after? p rest).map fun r =>
      (body, r) := by
  induction body with
  | nil =>
    rw [List.nil_append, splitAt?, show after? ('<' :: '/' :: p) ('<' :: '/' :: rest) =
      after? p rest from rfl]
    cases after? p rest with
    | some r => rfl
    | none =>
      rw [splitAt?_of_not_mem (by simpa using hrest)]
      rfl
  | cons d body ih =>
    rw [List.infix_cons_iff, not_or] at hbody
    have hafter : after? ('<' :: '/' :: p) (d :: (body ++ '<' :: '/' :: rest)) = none := by
      rw [Option.eq_none_iff_forall_not_mem]
      intro r hr
      have he : d :: (body ++ '<' :: '/' :: rest) = '<' :: '/' :: p ++ r := after?_eq_some_iff.1 hr
      obtain ⟨rfl, hbehind⟩ := List.cons.inj he
      cases body with
      | nil => exact absurd (List.cons.inj hbehind).1 (by decide)
      | cons e body =>
        obtain ⟨rfl, -⟩ := List.cons.inj hbehind
        exact hbody.1 ⟨body, rfl⟩
    rw [List.cons_append, splitAt?, hafter]
    dsimp only
    rw [ih hbody.2, Option.map_map]
    rfl

/-- A text without the characters that another one starts with goes on there just if it is over. -/
theorem prefix_append_of_stops {q : Char → Bool} {p s r : List Char} (hp : ∀ c ∈ p, q c = true)
    (hr : Stops q r) :
    p <+: s ++ r ↔ p <+: s := by
  refine ⟨?_, fun h => h.trans (List.prefix_append s r)⟩
  rintro ⟨k, hk⟩
  rcases List.append_eq_append_iff.1 hk with ⟨m, hs, -⟩ | ⟨m, hp', hr'⟩
  · exact ⟨m, hs.symm⟩
  · cases m with
    | nil => exact ⟨[], by rw [hp', List.append_nil, List.append_nil]⟩
    | cons c m =>
      have hc : q c = true := hp c (by rw [hp']; simp)
      rw [hr c (by rw [hr']; rfl)] at hc
      cases hc

namespace Token

open Rule

theorem forall_of_isTagName_lower {cs : List Char} (h : IsTagName (lower cs)) :
    ∀ d ∈ cs, (d.isAlphanum || d == '-') = true := by
  obtain ⟨c, ds, rfl, hc, hds⟩ := exists_of_isTagName_lower h
  rw [List.forall_mem_cons]
  exact ⟨by simp [Char.isAlphanum, hc], hds⟩

theorem isTagName_of_isRawText {name : String} (h : isRawText name = true) : IsTagName name := by
  have hm : name ∈ rawTextElements := List.elem_iff.1 h
  simp only [rawTextElements, List.mem_cons, List.not_mem_nil, or_false] at hm
  rcases hm with rfl | rfl <;> decide

/-- The content of a raw-text element ends at a closing tag whose name starts with the name of the
element. -/
theorem rawElement_closing {name : String} {body cs ws : List Char} (hname : IsTagName name)
    (hbody : ¬['<', '/'] <:+: body) (hcs : IsTagName (lower cs)) (hws : ∀ d ∈ ws, isSpace d = true)
    (as : List Attr) :
    rawElement name as (body ++ '<' :: '/' :: (cs ++ (ws ++ ['>']))) =
      if name.toList <+: cs then .ok (leaf (.element name as (textNodes body)), []) else
        .error (.unclosed name) := by
  have hp : ("</" ++ name).toList = '<' :: '/' :: name.toList := by simp
  have hrest : '<' ∉ cs ++ (ws ++ ['>']) := by
    simp only [List.mem_append, List.mem_singleton, not_or]
    refine ⟨fun h => ?_, fun h => ?_, by decide⟩
    · exact absurd (forall_of_isTagName_lower hcs _ h) (by decide)
    · exact absurd (hws _ h) (by decide)
  have hstarts : name.toList <+: cs ++ (ws ++ ['>']) ↔ name.toList <+: cs := by
    have hstops := stops_tagEnd hws false []
    rw [tagEnd, if_neg Bool.false_ne_true, List.append_nil] at hstops
    refine prefix_append_of_stops (forall_of_isTagName_lower ?_) hstops
    rwa [lower_of_isTagName hname]
  rw [rawElement, hp, splitAt?_closing hbody hrest]
  split_ifs with h
  · obtain ⟨r, hr⟩ := hstarts.2 h
    rw [after?_eq_some_iff.2 hr.symm]
    simp only [Option.map_some, List.drop_left, read_closingTag_spaced hcs hws []]
  · have hafter : after? name.toList (cs ++ (ws ++ ['>'])) = none := by
      rw [Option.eq_none_iff_forall_not_mem]
      exact fun r hr => h (hstarts.1 ⟨r, (after?_eq_some_iff.1 hr).symm⟩)
    rw [hafter]
    rfl

end Token

/-- A raw-text element with content and one closing tag behind it is read just if the name in the
closing tag starts with that of the element in small letters.  So the two names have to be the same,
in any case, just if the closing tag is in small letters or does not start like that. -/
theorem Markup.parse_rawText [EntityCodec] {t b c ws : String}
    (ht : isRawText (Token.lower t.toList) = true) (hb : ¬"</".toList <:+: b.toList)
    (hc : IsTagName (Token.lower c.toList)) (hws : ∀ d ∈ ws.toList, isSpace d = true) :
    let name := Token.lower t.toList
    let reply := Markup.parse ("<" ++ t ++ ">" ++ b ++ "</" ++ c ++ ws ++ ">")
    reply = (if name.toList <+: c.toList then .ok [.element name [] (Token.textNodes b.toList)]
      else .error (.unclosed name)) ∧
    (((∃ ns, reply = .ok ns) ↔ Token.lower c.toList = name) ↔
      c = name ∨ Token.lower c.toList ≠ name ∧ ¬name.toList <+: c.toList) := by
  intro name reply
  have hname : IsTagName name := Token.isTagName_of_isRawText ht
  have hlower : Token.lower name.toList = name := Token.lower_of_isTagName hname
  have hreply :
    reply = (if name.toList <+: c.toList then .ok [.element name [] (Token.textNodes b.toList)]
      else .error (.unclosed name)) := by
    have hs : ("<" ++ t ++ ">" ++ b ++ "</" ++ c ++ ws ++ ">").toList =
        '<' :: (t.toList ++ '>' ::
          (b.toList ++ '<' :: '/' :: (c.toList ++ (ws.toList ++ ['>'])))) := by simp
    have hopen (r : List Char) :
        Token.openingTag.read ('<' :: (t.toList ++ '>' :: r)) =
          .ok (Token.lower t.toList, [], false) r :=
      Token.read_tag hname .nil false r
    have hnext (total : Nat) := @Token.next_of_openingTag total _ _ _ _ _ _
      (hopen (b.toList ++ '<' :: '/' :: (c.toList ++ (ws.toList ++ ['>']))))
    simp only [Token.isVoid_of_isRawText ht, ht, Bool.or_false, Bool.false_eq_true, if_false,
      if_true] at hnext
    have hraw := Token.rawElement_closing hname hb hc hws []
    show Elements.run _ true Elements.start _ = _
    rw [hs]
    split_ifs with h
    · rw [if_pos h] at hraw
      rw [Elements.run_of_next ((hnext _).trans hraw)]
      show Elements.run _ true _ [] = _
      rw [Elements.run]
      rfl
    · rw [if_neg h] at hraw
      rw [Elements.run_cons, (hnext _).trans hraw]
  have hok : (∃ ns, reply = .ok ns) ↔ name.toList <+: c.toList := by
    rw [hreply]
    split_ifs with h <;> simp [h]
  refine ⟨hreply, ?_⟩
  rw [hok]
  constructor
  · intro hiff
    by_cases hp : name.toList <+: c.toList
    · left
      have hlen : name.toList.length = c.toList.length := by
        rw [← hiff.1 hp, Token.lower, String.toList_ofList, List.length_map]
      exact (String.toList_injective (hp.eq_of_length hlen)).symm
    · exact Or.inr ⟨fun he => hp (hiff.2 he), hp⟩
  · rintro (rfl | ⟨hne, hp⟩)
    · exact ⟨fun _ => hlower, fun _ => List.prefix_rfl⟩
    · exact ⟨fun h => absurd h hp, fun h => absurd h hne⟩

section

attribute [local instance] EntityCodec.common

/-- A closing tag in small letters, with a space in it, closes the element. -/
theorem Markup.parse_rawText_script :
    Markup.parse "<Script>if (a < b) c</script >" =
      .ok [.element "script" [] [.text "if (a < b) c"]] := by
  have h :=
    (@Markup.parse_rawText _ "Script" "if (a < b) c" "script" " " (by decide)
      (by decide +kernel) (by decide)
    (by decide)).1
  have hs : "<" ++ "Script" ++ ">" ++ "if (a < b) c" ++ "</" ++ "script" ++ " " ++ ">" =
    "<Script>if (a < b) c</script >" := by
    decide +kernel
  rw [hs, if_pos (by decide)] at h
  exact h.trans (by decide +kernel)

/-- A closing tag that only starts like the right one closes an element, and the right one in
capital letters does not. -/
theorem Markup.parse_rawText_other_name :
    Markup.parse "<style>x</stylex>" = .ok [.element "style" [] [.text "x"]] ∧
      Token.lower "stylex".toList ≠ Token.lower "style".toList ∧
      Markup.parse "<style>x</STYLE>" = .error (.unclosed "style") ∧
      Token.lower "STYLE".toList = Token.lower "style".toList := by
  decide +kernel

end

end LiveMarkup
