import LiveMarkup.Markup.Reference
import LiveMarkup.Proofs.Document.Repatch
import LiveMarkup.Proofs.Markup.Tidy

/-!
# The markup of a displayed document

Patching by position leaves trees that no markup denotes: texts that were emptied and texts side by
side. It keeps nodes sound, though (`Node.AllSound.patchAll`), and so does reading markers.  Hence a
document that comes from an empty one by displaying markup and reading markers, in any order and
however often, is written as markup that is read back as its tree when tidied up
(`Document.Displayed.parse_html`).
-/

namespace LiveMarkup

namespace Node

theorem IsRawContent.patchAll {tag : String} {rule : List Attr → List Attr → AttrPatch}
    {os ns : List Node} (ho : IsRawContent tag os) (hn : IsRawContent tag ns) :
    IsRawContent tag (patchAll rule os ns).1 := by
  cases ho with
  | nil => rwa [Node.patchAll]
  | text =>
    cases hn with
    | nil =>
      rw [Node.patchAll]
      exact .nil
    | text hne hclose =>
      rw [Node.patchAll, Node.patchAll, Node.patch]
      exact .text hne hclose

mutual

theorem Sound.patch : {o n : Node} → o.Sound → n.Sound → (o.patch AttrPatch.byName n).1.Sound
  | text t, n, _, _ => by
    rw [Node.patch, Sound]
    trivial
  | element tag as cs, text t, ho, _ => by rwa [Node.patch]
  | element tag as cs, element tag' as' cs', ho, hn => by
    rw [Node.patch]
    split_ifs with h
    · subst h
      rw [Sound] at ho hn ⊢
      obtain ⟨htag, has, hvoid, hraw, hcs⟩ := ho
      obtain ⟨-, has', hvoid', hraw', hcs'⟩ := hn
      refine ⟨htag, fun a ha => ?_, fun hv => ?_, fun hr => (hraw hr).patchAll (hraw' hr),
        hcs.patchAll hcs'⟩
      · have hname := AttrPatch.names_byName_subset as as' (List.mem_map_of_mem ha)
        rcases List.mem_append.1 hname with hm | hm
        · obtain ⟨b, hb, he⟩ := List.mem_map.1 hm
          exact he ▸ has b hb
        · obtain ⟨b, hb, he⟩ := List.mem_map.1 hm
          exact he ▸ has' b hb
      · rw [hvoid hv, hvoid' hv, Node.patchAll]
    · exact hn

/-- Patching sound nodes with sound nodes gives sound nodes. -/
theorem AllSound.patchAll : {os ns : List Node} → AllSound os → AllSound ns →
    AllSound (patchAll AttrPatch.byName os ns).1
  | [], ns, _, hn => by rwa [Node.patchAll]
  | o :: os, [], _, _ => by
    rw [Node.patchAll, AllSound]
    trivial
  | o :: os, n :: ns, ho, hn => by
    rw [AllSound] at ho hn
    rw [Node.patchAll, AllSound]
    exact ⟨ho.1.patch hn.1, ho.2.patchAll hn.2⟩

end

mutual

theorem Sound.unmark : {n : Node} → n.Sound → n.unmark.Sound
  | text t, h => by rwa [Node.unmark]
  | element tag as cs, h => by
    rw [Sound] at h
    rw [Node.unmark, Sound]
    refine ⟨h.1, fun a ha => ?_, fun hv => ?_, fun hr => ?_, h.2.2.2.2.unmarkAll⟩
    · obtain ⟨b, hb, he⟩ :=
        List.mem_map.1 (Attributes.names_drop_subset _ _ (List.mem_map_of_mem ha))
      exact he ▸ h.2.1 b hb
    · rw [h.2.2.1 hv, Node.unmarkAll]
    · cases h.2.2.2.1 hr with
      | nil => exact .nil
      | text hne hclose => exact .text hne hclose

/-- Sound nodes stay sound when their first markers are taken off. -/
theorem AllSound.unmarkAll : {ns : List Node} → AllSound ns → AllSound (unmarkAll ns)
  | [], h => by rwa [Node.unmarkAll]
  | n :: ns, h => by
    rw [AllSound] at h
    rw [Node.unmarkAll, AllSound]
    exact ⟨h.1.unmark, h.2.unmarkAll⟩

end

end Node

namespace Live

variable {L : Type}

mutual

theorem sound_of_mem_subtree {m : Live L} :
    {l : Live L} → l.node.Sound → m ∈ l.subtree → m.node.Sound
  | text i ls t, h, hm => by
    rw [subtree_text, List.mem_singleton] at hm
    rwa [hm]
  | element i ls tag as cs, h, hm => by
    rw [subtree_element, List.mem_cons] at hm
    rcases hm with rfl | hm
    · exact h
    · rw [node, Node.Sound] at h
      exact sound_of_mem_subtrees h.2.2.2.2 hm

/-- What is below sound nodes is sound. -/
theorem sound_of_mem_subtrees {m : Live L} : {ls : List (Live L)} → Node.AllSound (nodes ls) →
    m ∈ subtrees ls →
    m.node.Sound
  | [], _, hm => absurd hm List.not_mem_nil
  | l :: ls, h, hm => by
    rw [nodes_cons, Node.AllSound] at h
    rw [subtrees_cons, List.mem_append] at hm
    exact hm.elim (sound_of_mem_subtree h.1) (sound_of_mem_subtrees h.2)

end

end Live

namespace Document

variable {L : Type}

/-- Documents that come from an empty one by displaying what markup denotes and by reading
markers. -/
inductive Displayed [EntityCodec] : Document L → Prop
  | empty : Displayed empty
  | reconcile {d : Document L} {source : String} {new : List Node} (hd : Displayed d)
    (hnew : Markup.parse source = .ok new) : Displayed (d.reconcile rootId new).2
  | bind {d : Document L} (hd : Displayed d) (r : Registry) (make : String → String → L) :
    Displayed (d.bind r make).2.1

theorem nodesOf_bind (d : Document L) (r : Registry) (make : String → String → L) :
    (d.bind r make).2.1.nodesOf rootId = Node.unmarkAll (d.nodesOf rootId) :=
  Live.nodes_bindAll make ⟨r, []⟩ d.children

theorem Displayed.allSound [EntityCodec] {d : Document L} (h : d.Displayed) :
    Node.AllSound (d.nodesOf rootId) := by
  induction h with
  | empty => trivial
  | @reconcile d source new _ hnew ih =>
    have hpatch := congrArg Prod.fst (d.reconcile_eq_byName rootId new (Or.inl rfl))
    dsimp only at hpatch
    rw [hpatch]
    exact ih.patchAll (Markup.allNormal_of_parse hnew).sound
  | @bind d _ r make ih =>
    rw [nodesOf_bind]
    exact ih.unmarkAll

/-- A document that displays markup is written as markup that is read back as its tree, with empty
texts dropped and neighbouring texts joined at every level.  No void element in it has children, no
raw-text element has content that closes it, and every name of an attribute is one that is read
back. -/
theorem Displayed.parse_html [EntityCodec] {d : Document L} (h : d.Displayed) :
    Markup.parse d.html = .ok (Node.tidyAll (d.nodesOf rootId)) ∧
      ∀ l ∈ Live.subtrees d.children, ∀ tag ∈ l.tag?,
        (isVoid tag = true → l.children = []) ∧
          (isRawText tag = true → Node.IsRawContent tag (Live.nodes l.children)) ∧
          ∀ a ∈ l.attrs, IsAttrName a.name := by
  refine ⟨Markup.parse_htmlAll h.allSound, fun l hl tag htag => ?_⟩
  have hsound := Live.sound_of_mem_subtrees h.allSound hl
  cases l with
  | text => cases htag
  | element i ls tag as cs =>
    cases htag
    rw [Live.node, Node.Sound] at hsound
    refine ⟨fun hv => ?_, hsound.2.2.2.1, hsound.2.1⟩
    have hnodes := congrArg List.length (hsound.2.2.1 hv)
    rw [Live.length_nodes] at hnodes
    exact List.eq_nil_of_length_eq_zero hnodes

section

attribute [local instance] EntityCodec.common

/-- A document that displayed one markup text after the other. -/
def displayed (sources : List String) : Document String :=
  sources.foldl (fun d source =>
    (d.reconcile rootId ((Markup.parse source).toOption.getD [])).2) empty

/-- A text that faced an element is empty, and the text behind it is the only one that is read
back. -/
theorem Displayed.parse_html_emptied :
    let d := displayed ["a<style>p</style>", "<b c=1></b><style>q > r</style>d"]
    d.Displayed ∧
    Live.nodes d.children = [.text "", .element "style" [] [.text "q > r"], .text "d"] ∧
      Markup.parse d.html = .ok [.element "style" [] [.text "q > r"], .text "d"] := by
  intro d
  have hok (source : String) (h : (Markup.parse source).isOk = true) :
      Markup.parse source = .ok ((Markup.parse source).toOption.getD []) := eq_ok_of_isOk h []
  have hd : d.Displayed :=
    (Displayed.empty.reconcile (hok _ (by decide +kernel))).reconcile (hok _ (by decide +kernel))
  have hnodes : Live.nodes d.children = [.text "", .element "style" [] [.text "q > r"],
    .text "d"] := by decide +kernel
  refine ⟨hd, hnodes, hd.parse_html.1.trans ?_⟩
  show Except.ok (Node.tidyAll (Live.nodes d.children)) = _
  rw [hnodes]
  decide

end

end Document

end LiveMarkup
