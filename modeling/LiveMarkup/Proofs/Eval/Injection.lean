import LiveMarkup.Markup.Reference
import LiveMarkup.Proofs.Markup.Sketch

/-!
# Strings stay where they are put

A template that is the markup of a sketch, rendered against strings with the usual escaping and read
as markup, gives the sketch with the strings in its holes (`Sketch.parse_render`).  So a string
decides on the text of its hole and on nothing else: the outline of the nodes is always the same.
-/

namespace LiveMarkup

namespace Node

mutual

/-- The elements of a tree with their tags and the names of their attributes, without texts and
values. -/
def outline : Node → List Node
  | element tag as cs => [element tag (as.map fun a => ⟨a.name, ""⟩) (outlineAll cs)]
  | text _ => []

def outlineAll : List Node → List Node
  | [] => []
  | n :: ns => n.outline ++ outlineAll ns

end

theorem outlineAll_textNodes (t : List Char) : outlineAll (Token.textNodes t) = [] := by
  unfold Token.textNodes
  split_ifs
  · rw [outlineAll]
  · rw [outlineAll, outline, outlineAll, List.append_nil]

theorem outlineAll_append (ns ms : List Node) :
    outlineAll (ns ++ ms) = outlineAll ns ++ outlineAll ms := by
  induction ns with
  | nil => rfl
  | cons n ns ih => rw [List.cons_append, outlineAll, ih, outlineAll, List.append_assoc]

end Node

namespace Sketch

open Piece

mutual

theorem outlineAll_fill (f g : String → String) : (s : Sketch) →
    Node.outlineAll (s.fill f) = Node.outlineAll (s.fill g)
  | text ps => by rw [fill, fill, Node.outlineAll_textNodes, Node.outlineAll_textNodes]
  | element tag as cs => by
    have hnames (h : String → String) : ((as.map (fillAttr h)).map fun a => (⟨a.name, ""⟩ : Attr)) =
        as.map fun a => ⟨a.1, ""⟩ := by
      rw [List.map_map]
      rfl
    simp only [fill, Node.outlineAll, Node.outline, hnames, outlineAll_fillAll f g cs]

/-- Whatever strings are put in holes, the outline of the nodes is the same. -/
theorem outlineAll_fillAll (f g : String → String) : (ss : List Sketch) →
    Node.outlineAll (fillAll f ss) = Node.outlineAll (fillAll g ss)
  | [] => rfl
  | s :: ss => by
    rw [fillAll, fillAll, Node.outlineAll_append, Node.outlineAll_append, outlineAll_fill f g s,
      outlineAll_fillAll f g ss]

end

variable {σ : Type}

/-- The markup of a sketch with interpolations in its holes is a template.  Rendered against strings
and read as markup it gives the sketch with these strings in its holes, and an outline that does not
depend on them. -/
theorem parse_render [EntityCodec] {ss : List Sketch} (hs : AllTame ss)
    (hn : Node.AllNormal (fillAll placeholder ss)) :
    ∃ t, Template.parse (source ss) = .ok t ∧
      ∀ (env : Env σ) (f : String → String) (w : World σ), env.options.escape = escapeHtml →
        (∀ name ∈ holesAll ss, Entries.get? name env.fields = some (.string (f name))) →
        ∃ out, t.render env w = (.ok out, w) ∧ Markup.parse out = .ok (fillAll f ss) ∧
          ∀ g, Node.outlineAll (fillAll f ss) = Node.outlineAll (fillAll g ss) := by
  have htame := tame_writtenAll false ss hs
  refine ⟨⟨(merge (writtenAll false ss)).map segment⟩, ?_, fun env f w hescape hfields => ?_⟩
  · rw [source_eq hs, Template.parse_charsAll htame]
  · have hholes (name : String) (hm : hole name ∈ writtenAll false ss) :
        Entries.get? name env.fields = some (.string (f name)) :=
      hfields name (mem_holesAll_of_mem_writtenAll false ss hm)
    refine ⟨String.ofList (charsAll (escaped f) (writtenAll false ss)), ?_, ?_,
      fun g => outlineAll_fillAll f g ss⟩
    · exact Template.render_charsAll hescape hholes w
    · unfold Markup.parse
      rw [String.toList_ofList]
      exact (writes_fillAll ss hs hn).parseChars

section

attribute [local instance] EntityCodec.common

/-- A label in a value and in a text, beside raw text. -/
def card : List Sketch :=
  [.element "p" [("title", [.lit "on ".toList, .hole "who"])]
    [.text [.hole "who", .lit "!".toList]],
    .element "style" [] [.text [.lit "p > b".toList]]]

/-- Fields with one string that would end a value and open an element. -/
def sharp : Env Unit :=
  ⟨⟨fun _ _ _ w => (.error .bound, w), 0⟩, defaultOptions, [("who", .string "\"><b>&lt;")]⟩

theorem parse_render_card : ∃ t, Template.parse (source card) = .ok t ∧
    ∃ out, t.render sharp ⟨Heap.empty, ()⟩ = (.ok out, ⟨Heap.empty, ()⟩) ∧
      Markup.parse out = .ok
        [.element "p" [⟨"title", "on \"><b>&lt;"⟩] [.text "\"><b>&lt;!"],
          .element "style" [] [.text "p > b"]] := by
  have hname : IsName "who" := by decide
  have hlit {t : List Char} (h : t.all (fun c => c != '{' && c != '@') = true) :
    (Piece.lit t).Tame :=
    tame_of_forall fun c hc => by simpa using List.all_eq_true.1 h c hc
  have htame : AllTame card := by
    simp only [card, AllTame, Tame, holesAll, holes, List.forall_mem_cons, and_true]
    refine ⟨⟨hlit (by decide),
      ⟨⟨hlit (by decide), hlit (by decide), hname, by simp⟩, by simp⟩,
        by decide, hname, hlit (by decide), by simp⟩,
      hlit (by decide), by simp, ?_, hlit (by decide), by simp⟩
    exact fun _ => by decide
  have hattr : IsAttrName "title" := by decide
  have hp : IsTagName "p" := by decide
  have hstyle : IsTagName "style" := by decide
  have hraw : Node.IsRawContent "style" [.text "p > b"] := .text (by decide) (by decide)
  have hnormal : Node.AllNormal (fillAll placeholder card) := by
    have hfill : fillAll placeholder card = [.element "p" [⟨"title", "on \x7b\x7bwho\x7d\x7d"⟩]
        [.text "\x7b\x7bwho\x7d\x7d!"], .element "style" [] [.text "p > b"]] := rfl
    rw [hfill]
    refine Node.AllNormal.cons_element ?_ (Node.AllNormal.cons_element ?_ trivial)
    · rw [Node.Normal, List.forall_mem_singleton]
      refine ⟨hp, hattr, by decide, fun h => absurd h (by decide), fun _ => ?_⟩
      simp [Node.AllNormal, Node.Normal]
    · rw [Node.Normal]
      exact ⟨hstyle, by simp, fun h => absurd h (by decide), fun _ => hraw,
        fun h => absurd h (by decide)⟩
  obtain ⟨t, ht, hrender⟩ := parse_render (σ := Unit) htame hnormal
  obtain ⟨out, hout, hparse, -⟩ :=
    hrender sharp (fun _ => "\"><b>&lt;") ⟨Heap.empty, ()⟩ rfl fun name hm => by
    have hwho : name = "who" := by
      simpa [card, holesAll, holes, Piece.holes, name?, eq_comm] using hm
    rw [hwho]
    rfl
  exact ⟨t, ht, out, hout, hparse⟩

end

end Sketch

end LiveMarkup
