import LiveMarkup.Markup.Reference
import LiveMarkup.Proofs.Eval.Run
import LiveMarkup.Proofs.Markup.Written

/-!
# Markup round trip

The markup of nodes in normal form is a written form of them (`Node.writes_charsAll`), so reading it
gives these nodes back.  Since what is read from any markup is in normal form, writing and reading
again changes nothing (`Markup.parse_join_html`).
-/

namespace LiveMarkup

section RoundTrip

variable [EntityCodec]

theorem writesAttrs_chars {as : List Attr} (h : ∀ a ∈ as, IsAttrName a.name) :
    WritesAttrs as (as.flatMap Attr.chars) := by
  induction as with
  | nil => exact .nil
  | cons a as ih =>
    rw [List.forall_mem_cons] at h
    have hcons := WritesAttrs.cons h.1 (Spells.encodeAttribute a.value.toList) (ih h.2)
    simpa [Attr.chars] using hcons

namespace Node

theorem openTag_append (tag : String) (as : List Attr) (r : List Char) :
    openTag tag as ++ r = '<' :: (tag.toList ++ (as.flatMap Attr.chars ++ '>' :: r)) := by
  simp [openTag]

/-- The markup of nodes in normal form is a written form of them. -/
theorem writes_charsAll : (ns : List Node) → AllNormal ns → Writes ns (charsAll false ns)
  | [], _ => .nil
  | text t :: ns, h => by
    rw [AllNormal, Normal] at h
    have hns (m : Node) (hm : m ∈ ns.head?) : m.isText = false := by
      by_contra htext
      exact h.2.1 m hm ⟨rfl, by simpa using htext⟩
    rw [charsAll, chars, if_neg Bool.false_ne_true]
    exact .text h.1 (Spells.encodeText t.toList) hns (writes_charsAll ns h.2.2)
  | element tag as children :: ns, h => by
    rw [AllNormal, Normal] at h
    obtain ⟨⟨htag, has, hvoid, hraw, hchildren⟩, -, hns⟩ := h
    have ha := writesAttrs_chars has
    have hrest := writes_charsAll ns hns
    rw [charsAll, chars, List.append_assoc, openTag_append]
    by_cases hv : isVoid tag = true
    · rw [if_pos hv, hvoid hv, List.nil_append]
      exact .void htag ha hv hrest
    · rw [if_neg hv, List.append_assoc]
      by_cases hr : isRawText tag = true
      · rw [hr]
        exact .raw htag ha hr (hraw hr) hrest
      · rw [Bool.not_eq_true] at hv hr
        rw [hr]
        exact .element htag ha hv hr (writes_charsAll children (hchildren hr)) hrest

theorem toList_join_html (ns : List Node) :
    (String.join (ns.map html)).toList = charsAll false ns := by
  induction ns with
  | nil => rfl
  | cons n ns ih =>
    rw [List.map_cons, String.join_cons, String.toList_append, ih, charsAll, html_eq,
      String.toList_ofList]

end Node

/-- What is read from a text is in normal form, the markup of nodes in normal form is read as these
nodes, and so reading what has been read and written changes nothing. -/
theorem Markup.parse_join_html :
    (∀ (m : String) (ns : List Node), parse m = .ok ns → Node.AllNormal ns) ∧
      (∀ ns : List Node, Node.AllNormal ns → parse (String.join (ns.map Node.html)) = .ok ns) ∧
      ∀ (m : String) (ns : List Node), parse m = .ok ns →
        parse (String.join (ns.map Node.html)) = .ok ns := by
  have hback (ns : List Node) (h : Node.AllNormal ns) :
    parse (String.join (ns.map Node.html)) = .ok ns := by
    unfold parse
    rw [Node.toList_join_html]
    exact (Node.writes_charsAll ns h).parseChars
  exact ⟨fun m ns h => allNormal_of_parse h, hback, fun m ns h => hback ns (allNormal_of_parse h)⟩

end RoundTrip

/-- Markup that is not in the form in which it is written. -/
def Markup.loose : String :=
  "<P Title='a\"b' hidden>x < y<!-- z --> &amp; z<br/></P><style>p > b</style>"

section

attribute [local instance] EntityCodec.common

theorem Markup.parse_join_html_loose :
    (∃ ns, parse loose = .ok ns ∧ Node.AllNormal ns ∧
      String.join (ns.map Node.html) =
        "<p title=\"a&quot;b\" hidden=\"\">x &lt; y &amp; z<br></p><style>p > b</style>" ∧
      parse (String.join (ns.map Node.html)) = .ok ns) ∧
    parse (String.join ([Node.element "p" [⟨"title", "<"⟩] [.text "<br>"]].map Node.html)) =
      .ok [Node.element "p" [⟨"title", "<"⟩] [.text "<br>"]] := by
  have hloose : parse loose = .ok ((parse loose).toOption.getD []) :=
    eq_ok_of_isOk (by decide +kernel) []
  have hnormal : Node.AllNormal [Node.element "p" [⟨"title", "<"⟩] [.text "<br>"]] := by
    refine ⟨?_, by simp, trivial⟩
    rw [Node.Normal]
    have htext : Node.AllNormal [.text "<br>"] := by simp [Node.AllNormal, Node.Normal]
    refine ⟨by decide, ?_, by decide, fun h => absurd h (by decide), fun _ => htext⟩
    rw [List.forall_mem_singleton]
    decide
  refine ⟨⟨_, hloose, parse_join_html.1 _ _ hloose, by decide +kernel,
    parse_join_html.2.2 _ _ hloose⟩, ?_⟩
  exact parse_join_html.2.1 _ hnormal

end

end LiveMarkup
