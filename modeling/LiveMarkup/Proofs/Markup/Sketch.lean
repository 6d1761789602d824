import LiveMarkup.Proofs.Eval.Interpolate
import LiveMarkup.Proofs.Markup.RoundTrip
import LiveMarkup.Proofs.Template.Pieces

/-!
# Markup trees with named holes

A `Sketch` is a markup tree whose texts and values are made of pieces: fixed text and named holes.
`fillAll f` are the nodes with the string `f name` in the hole `name`.  `writtenAll` cuts the markup
of a sketch into pieces; with interpolations in the holes they are the markup of the sketch
(`charsAll_writtenAll`), and with escaped strings in the holes they are a written form of the filled
nodes (`writes_fillAll`).
-/

namespace LiveMarkup

namespace Piece

/-- A piece with its fixed text changed. -/
def mapLit (g : List Char → List Char) : Piece → Piece
  | lit t => lit (g t)
  | hole name => hole name

/-- The name of a hole. -/
def name? : Piece → Option String
  | lit _ => none
  | hole name => some name

/-- The names of the holes among pieces. -/
def holes (ps : List Piece) : List String := ps.filterMap name?

/-- The text of pieces with strings in the holes. -/
def filled (f : String → String) (ps : List Piece) : List Char :=
  charsAll (fun name => (f name).toList) ps

end Piece

/-- A markup tree with named holes in texts and in values of attributes. -/
inductive Sketch where
  | element (tag : String) (attrs : List (String × List Piece)) (children : List Sketch)
  | text (pieces : List Piece)

namespace Sketch

open Piece

/-- An attribute with strings in its holes. -/
def fillAttr (f : String → String) (a : String × List Piece) : Attr :=
  ⟨a.1, String.ofList (filled f a.2)⟩

mutual

/-- The nodes of a sketch with strings in its holes; an empty text is no node. -/
def fill (f : String → String) : Sketch → List Node
  | element tag as cs => [.element tag (as.map (fillAttr f)) (fillAll f cs)]
  | text ps => Token.textNodes (filled f ps)

def fillAll (f : String → String) : List Sketch → List Node
  | [] => []
  | s :: ss => s.fill f ++ fillAll f ss

end

mutual

/-- The names of the holes of a sketch. -/
def holes : Sketch → List String
  | element _ as cs => as.flatMap (fun a => Piece.holes a.2) ++ holesAll cs
  | text ps => Piece.holes ps

def holesAll : List Sketch → List String
  | [] => []
  | s :: ss => s.holes ++ holesAll ss

end

mutual

/-- Whether the fixed parts of a sketch have neither `{` nor `@` in them, holes have names that
expressions can refer to, and there are no holes in raw text. -/
def Tame : Sketch → Prop
  | element tag as cs =>
    (lit tag.toList).Tame ∧ (∀ a ∈ as, (lit a.1.toList).Tame ∧ ∀ p ∈ a.2, p.Tame) ∧
      (isRawText tag = true → holesAll cs = []) ∧ AllTame cs
  | text ps => ∀ p ∈ ps, p.Tame

def AllTame : List Sketch → Prop
  | [] => True
  | s :: ss => s.Tame ∧ AllTame ss

end

/-- What is put in a hole to mark its place in a template. -/
def placeholder (name : String) : String := String.ofList (interpolation name)

/-- The source of a template: the markup of sketches with interpolations in the holes. -/
def source [EntityCodec] (ss : List Sketch) : String :=
  String.join ((fillAll placeholder ss).map Node.html)

/-- An attribute as it stands in a tag, cut into pieces. -/
def writtenAttr [EntityCodec] (a : String × List Piece) : List Piece :=
  lit (' ' :: (a.1.toList ++ ['=', '"'])) ::
    (a.2.map (mapLit EntityCodec.encodeAttribute) ++ [lit ['"']])

mutual

/-- The markup of a sketch, inside a raw-text element or elsewhere, cut into pieces. -/
def written [EntityCodec] (raw : Bool) : Sketch → List Piece
  | element tag as cs =>
    lit ('<' :: tag.toList) :: (as.flatMap writtenAttr ++ lit ['>'] ::
      if isVoid tag then [] else writtenAll (isRawText tag) cs ++ [lit (closeTag tag)])
  | text ps => if raw then ps else ps.map (mapLit EntityCodec.encodeText)

def writtenAll [EntityCodec] (raw : Bool) : List Sketch → List Piece
  | [] => []
  | s :: ss => s.written raw ++ writtenAll raw ss

end

/-! ### Holes -/

theorem mem_holes_of_mem {name : String} {ps : List Piece} (h : hole name ∈ ps) :
    name ∈ Piece.holes ps :=
  List.mem_filterMap.2 ⟨hole name, h, rfl⟩

theorem mem_of_mem_map_mapLit {g : List Char → List Char} {name : String} {ps : List Piece}
    (h : hole name ∈ ps.map (mapLit g)) : hole name ∈ ps := by
  obtain ⟨p, hp, he⟩ := List.mem_map.1 h
  cases p with
  | lit t => cases he
  | hole n =>
    cases he
    exact hp

mutual

theorem mem_holes_of_mem_written [EntityCodec] {name : String} (raw : Bool) :
    (s : Sketch) → hole name ∈ s.written raw → name ∈ s.holes
  | element tag as cs, h => by
    rw [written, List.mem_cons, List.mem_append, List.mem_cons] at h
    rw [holes, List.mem_append, List.mem_flatMap]
    rcases h with h | h | h | h
    · cases h
    · obtain ⟨a, ha, hm⟩ := List.mem_flatMap.1 h
      simp only [writtenAttr, List.mem_cons, List.mem_append, List.not_mem_nil,
        reduceCtorEq, or_false, false_or] at hm
      exact Or.inl ⟨a, ha, mem_holes_of_mem (mem_of_mem_map_mapLit hm)⟩
    · cases h
    · split at h
      · exact absurd h List.not_mem_nil
      · simp only [List.mem_append, List.mem_cons, List.not_mem_nil, reduceCtorEq, or_false] at h
        exact Or.inr (mem_holesAll_of_mem_writtenAll (isRawText tag) cs h)
  | text ps, h => by
    rw [written] at h
    split at h
    · exact mem_holes_of_mem h
    · exact mem_holes_of_mem (mem_of_mem_map_mapLit h)

/-- The holes in the markup of sketches are holes of the sketches. -/
theorem mem_holesAll_of_mem_writtenAll [EntityCodec] {name : String} (raw : Bool) :
    (ss : List Sketch) → hole name ∈ writtenAll raw ss → name ∈ holesAll ss
  | [], h => absurd h List.not_mem_nil
  | s :: ss, h => by
    rw [writtenAll, List.mem_append] at h
    rw [holesAll, List.mem_append]
    exact h.imp (mem_holes_of_mem_written raw s) (mem_holesAll_of_mem_writtenAll raw ss)

end

theorem charsAll_congr {g g' : String → List Char} {ps : List Piece}
    (h : ∀ name ∈ Piece.holes ps, g name = g' name) :
    charsAll g ps = charsAll g' ps := by
  induction ps with
  | nil => rfl
  | cons p ps ih =>
    have hps : ∀ name ∈ Piece.holes ps, g name = g' name := by
      intro name hm
      obtain ⟨q, hq, he⟩ := List.mem_filterMap.1 hm
      exact h name (List.mem_filterMap.2 ⟨q, List.mem_cons_of_mem p hq, he⟩)
    rw [charsAll_cons, charsAll_cons, ih hps]
    cases p with
    | lit t => rfl
    | hole n => rw [chars, chars, h n (mem_holes_of_mem List.mem_cons_self)]

theorem filled_congr {f g : String → String} {ps : List Piece}
    (h : ∀ name ∈ Piece.holes ps, f name = g name) :
    filled f ps = filled g ps :=
  charsAll_congr fun name hm => congrArg String.toList (h name hm)

mutual

theorem fill_congr {f g : String → String} : (s : Sketch) → (∀ name ∈ s.holes, f name = g name) →
    s.fill f = s.fill g
  | element tag as cs, h => by
    rw [holes] at h
    have has : as.map (fillAttr f) = as.map (fillAttr g) := by
      refine List.map_congr_left fun a ha => ?_
      unfold fillAttr
      rw [filled_congr fun name hm =>
        h name (List.mem_append_left _ (List.mem_flatMap.2 ⟨a, ha, hm⟩))]
    rw [fill, fill, has, fillAll_congr cs fun name hm => h name (List.mem_append_right _ hm)]
  | text ps, h => by
    rw [holes] at h
    rw [fill, fill, filled_congr h]

/-- Only the strings in holes matter. -/
theorem fillAll_congr {f g : String → String} :
    (ss : List Sketch) → (∀ name ∈ holesAll ss, f name = g name) → fillAll f ss = fillAll g ss
  | [], _ => rfl
  | s :: ss, h => by
    rw [holesAll] at h
    rw [fillAll, fillAll, fill_congr s fun name hm => h name (List.mem_append_left _ hm),
      fillAll_congr ss fun name hm => h name (List.mem_append_right _ hm)]

end

/-! ### The source -/

/-- Encoding leaves interpolations alone. -/
theorem flatMap_interpolation {e : Char → List Char}
    (he : ∀ c, c ∉ ['&', '<', '>', '"'] → e c = [c]) {name : String} (h : IsName name) :
    (interpolation name).flatMap e = interpolation name := by
  have hself : ∀ c ∈ interpolation name, e c = [c] := by
    intro c hc
    refine he c fun hm => ?_
    have hpart : Grammar.isIdentPart c = false ∧ c ≠ '{' ∧ c ≠ '}' := by
      simp only [List.mem_cons, List.not_mem_nil, or_false] at hm
      rcases hm with rfl | rfl | rfl | rfl <;> decide
    simp only [interpolation, List.mem_cons, List.mem_append, List.not_mem_nil, or_false] at hc
    rcases hc with hc | hc | hc | hc | hc
    · exact hpart.2.1 hc
    · exact hpart.2.1 hc
    · exact h.not_mem hpart.1 hc
    · exact hpart.2.2 hc
    · exact hpart.2.2 hc
  rw [List.flatMap_congr hself]
  simp

theorem charsAll_map_mapLit {encode : List Char → List Char} (hnil : encode [] = [])
    (happend : ∀ s t, encode (s ++ t) = encode s ++ encode t)
    (hhole : ∀ name, IsName name → encode (interpolation name) = interpolation name)
    {ps : List Piece} (h : ∀ p ∈ ps, p.Tame) :
    charsAll interpolation (ps.map (mapLit encode)) = encode (filled placeholder ps) := by
  induction ps with
  | nil => exact hnil.symm
  | cons p ps ih =>
    rw [List.forall_mem_cons] at h
    unfold filled at ih ⊢
    rw [List.map_cons, charsAll_cons, charsAll_cons, happend, ih h.2]
    cases p with
    | lit t => rfl
    | hole name =>
      simp only [mapLit, chars, placeholder, String.toList_ofList]
      rw [hhole name h.1]

theorem charsAll_mapLit_encodeText [EntityCodec] {ps : List Piece} (h : ∀ p ∈ ps, p.Tame) :
    charsAll interpolation (ps.map (mapLit EntityCodec.encodeText)) = EntityCodec.encodeText
    (filled placeholder ps) :=
  charsAll_map_mapLit EntityCodec.encodeText_nil EntityCodec.encodeText_append (fun name hname => by
    rw [EntityCodec.encodeText_eq,
      flatMap_interpolation (fun _ => Entity.encodeTextChar_self) hname]) h

theorem charsAll_mapLit_encodeAttribute [EntityCodec] {ps : List Piece} (h : ∀ p ∈ ps, p.Tame) :
    charsAll interpolation (ps.map (mapLit EntityCodec.encodeAttribute)) =
      EntityCodec.encodeAttribute (filled placeholder ps) :=
  charsAll_map_mapLit EntityCodec.encodeAttribute_nil EntityCodec.encodeAttribute_append
    (fun name hname => by
    rw [EntityCodec.encodeAttribute_eq,
      flatMap_interpolation (fun _ => Entity.encodeAttributeChar_self) hname]) h

theorem charsAll_flatMap_writtenAttr [EntityCodec] {as : List (String × List Piece)}
    (h : ∀ a ∈ as, ∀ p ∈ a.2, p.Tame) :
    charsAll interpolation
    (as.flatMap writtenAttr) = (as.map (fillAttr placeholder)).flatMap Attr.chars := by
  induction as with
  | nil => rfl
  | cons a as ih =>
    rw [List.forall_mem_cons] at h
    rw [List.flatMap_cons, charsAll_append, ih h.2, List.map_cons, List.flatMap_cons, writtenAttr,
      charsAll_cons, charsAll_append, charsAll_mapLit_encodeAttribute h.1]
    simp [charsAll, chars, Attr.chars, fillAttr]

theorem charsAll_textNodes [EntityCodec] (raw : Bool) (t : List Char) :
    Node.charsAll raw (Token.textNodes t) = if raw then t else EntityCodec.encodeText t := by
  unfold Token.textNodes
  split_ifs with ht hr hr
  · rw [ht, Node.charsAll]
  · rw [ht, Node.charsAll, EntityCodec.encodeText_nil]
  · simp [Node.charsAll, Node.chars, hr]
  · simp [Node.charsAll, Node.chars, hr]

theorem charsAll_append_nodes [EntityCodec] (raw : Bool) (ns ms : List Node) :
    Node.charsAll raw (ns ++ ms) = Node.charsAll raw ns ++ Node.charsAll raw ms := by
  induction ns with
  | nil => rfl
  | cons n ns ih => rw [List.cons_append, Node.charsAll, ih, Node.charsAll, List.append_assoc]

mutual

theorem charsAll_written [EntityCodec] (raw : Bool) : (s : Sketch) → s.Tame →
    charsAll interpolation (s.written raw) = Node.charsAll raw (s.fill placeholder)
  | element tag as cs, h => by
    rw [Tame] at h
    have has := charsAll_flatMap_writtenAttr fun a ha => (h.2.1 a ha).2
    rw [written, fill, Node.charsAll, Node.charsAll, Node.chars, List.append_nil,
      Node.openTag_append, charsAll_cons, charsAll_append, charsAll_cons, has]
    split_ifs with hv
    · simp [charsAll, chars]
    · rw [charsAll_append, charsAll_writtenAll (isRawText tag) cs h.2.2.2]
      simp [charsAll, chars]
  | text ps, h => by
    rw [Tame] at h
    rw [written, fill, charsAll_textNodes]
    split_ifs
    · unfold filled
      refine charsAll_congr fun name _ => ?_
      rw [placeholder, String.toList_ofList]
    · exact charsAll_mapLit_encodeText h

/-- With interpolations in the holes, the pieces of sketches are their source. -/
theorem charsAll_writtenAll [EntityCodec] (raw : Bool) : (ss : List Sketch) → AllTame ss →
    charsAll interpolation (writtenAll raw ss) = Node.charsAll raw (fillAll placeholder ss)
  | [], _ => rfl
  | s :: ss, h => by
    rw [AllTame] at h
    rw [writtenAll, fillAll, charsAll_append, charsAll_append_nodes, charsAll_written raw s h.1,
      charsAll_writtenAll raw ss h.2]

end

theorem source_eq [EntityCodec] {ss : List Sketch} (h : AllTame ss) :
    source ss = String.ofList (charsAll interpolation (writtenAll false ss)) := by
  rw [charsAll_writtenAll false ss h, ← Node.toList_join_html, String.ofList_toList, source]

/-! ### Tame pieces -/

theorem tame_of_forall {t : List Char} (h : ∀ c ∈ t, c ≠ '{' ∧ c ≠ '@') : (lit t).Tame :=
  ⟨fun hm => (h _ hm).1 rfl, fun hm => (h _ hm).2 rfl⟩

theorem forall_of_tame {t : List Char} (h : (lit t).Tame) : ∀ c ∈ t, c ≠ '{' ∧ c ≠ '@' := by
  intro c hc
  constructor <;> rintro rfl
  · exact h.1 hc
  · exact h.2 hc

/-- Fixed text stays tame where characters are written one by one as tame texts. -/
theorem tame_mapLit {encode : List Char → List Char} {e : Char → List Char}
    (hencode : ∀ s, encode s = s.flatMap e) (he : ∀ c, c ≠ '{' ∧ c ≠ '@' → ∀ d ∈ e c, d ≠ '{' ∧
      d ≠ '@') {ps : List Piece} (h : ∀ p ∈ ps, p.Tame) :
    ∀ p ∈ ps.map (mapLit encode), p.Tame := by
  intro p hp
  obtain ⟨q, hq, rfl⟩ := List.mem_map.1 hp
  have hq := h q hq
  cases q with
  | lit t =>
    refine tame_of_forall fun c hc => ?_
    rw [hencode] at hc
    obtain ⟨d, hd, hc⟩ := List.mem_flatMap.1 hc
    exact he d (forall_of_tame hq d hd) c hc
  | hole name => exact hq

theorem encodeTextChar_tame (c : Char) (h : c ≠ '{' ∧ c ≠ '@') : ∀ d ∈ Entity.encodeTextChar c,
    d ≠ '{' ∧ d ≠ '@' := by
  unfold Entity.encodeTextChar
  split
  · simp
  · simp
  · simp
  · simpa using h

theorem encodeAttributeChar_tame (c : Char) (h : c ≠ '{' ∧ c ≠ '@') :
    ∀ d ∈ Entity.encodeAttributeChar c, d ≠ '{' ∧ d ≠ '@' := by
  unfold Entity.encodeAttributeChar
  split
  · simp
  · exact encodeTextChar_tame c h

mutual

theorem tame_written [EntityCodec] (raw : Bool) :
    (s : Sketch) → s.Tame → ∀ p ∈ s.written raw, p.Tame
  | element tag as cs, h => by
    rw [Tame] at h
    obtain ⟨htag, has, -, hcs⟩ := h
    have hattr : ∀ a ∈ as, ∀ p ∈ writtenAttr a, p.Tame := by
      intro a ha
      obtain ⟨hname, hvalue⟩ := has a ha
      have hv := tame_mapLit EntityCodec.encodeAttribute_eq encodeAttributeChar_tame hvalue
      rw [writtenAttr, List.forall_mem_cons, List.forall_mem_append, List.forall_mem_singleton]
      refine ⟨tame_of_forall fun c hc => ?_, hv, by decide, by decide⟩
      simp only [List.mem_cons, List.mem_append, List.not_mem_nil, or_false] at hc
      rcases hc with rfl | hc | rfl | rfl
      · decide
      · exact forall_of_tame hname c hc
      · decide
      · decide
    rw [written, List.forall_mem_cons, List.forall_mem_append, List.forall_mem_cons]
    refine ⟨tame_of_forall ?_, ?_, ⟨by decide, by decide⟩, ?_⟩
    · rw [List.forall_mem_cons]
      exact ⟨by decide, forall_of_tame htag⟩
    · intro p hp
      obtain ⟨a, ha, hp⟩ := List.mem_flatMap.1 hp
      exact hattr a ha p hp
    · split_ifs
      · exact fun _ hp => absurd hp List.not_mem_nil
      · rw [List.forall_mem_append, List.forall_mem_singleton]
        refine ⟨tame_writtenAll (isRawText tag) cs hcs, tame_of_forall fun c hc => ?_⟩
        simp only [closeTag, List.mem_cons, List.mem_append, List.not_mem_nil, or_false] at hc
        rcases hc with rfl | rfl | hc | rfl
        · decide
        · decide
        · exact forall_of_tame htag c hc
        · decide
  | text ps, h => by
    rw [Tame] at h
    rw [written]
    split_ifs
    · exact h
    · exact tame_mapLit EntityCodec.encodeText_eq encodeTextChar_tame h

/-- The pieces of tame sketches are tame. -/
theorem tame_writtenAll [EntityCodec] (raw : Bool) :
    (ss : List Sketch) → AllTame ss → ∀ p ∈ writtenAll raw ss, p.Tame
  | [], _ => fun _ hp => absurd hp List.not_mem_nil
  | s :: ss, h => by
    rw [AllTame] at h
    rw [writtenAll, List.forall_mem_append]
    exact ⟨tame_written raw s h.1, tame_writtenAll raw ss h.2⟩

end

/-! ### Filled sketches as markup -/

/-- What is written in a hole for a string. -/
def escaped (f : String → String) (name : String) : List Char := (escapeText (f name)).toList

variable {f : String → String}

theorem spells_escapeText [EntityCodec] {stop : Char} (hstop : stop = '<' ∨ stop = '"')
    (s : String) :
    Spells stop (escapeText s).toList s.toList := by
  have hinert := inert_escapeText s
  have hnil (hs : s.toList = []) : (escapeText s).toList = [] := by simp [escapeText, hs]
  rcases hstop with rfl | rfl
  · exact ⟨hinert.angle, denotes_escapeText s, hnil⟩
  · exact ⟨hinert.quote, denotes_escapeText s, hnil⟩

theorem spells_charsAll [EntityCodec] {stop : Char} (hstop : stop = '<' ∨ stop = '"')
    {encode : List Char → List Char} (hencode : ∀ t, Spells stop (encode t) t) (ps : List Piece) :
    Spells stop (charsAll (escaped f) (ps.map (mapLit encode))) (filled f ps) := by
  induction ps with
  | nil => exact Spells.nil stop
  | cons p ps ih =>
    unfold filled at ih ⊢
    rw [List.map_cons, charsAll_cons, charsAll_cons]
    refine Spells.append ?_ ih
    cases p with
    | lit t => exact hencode t
    | hole name => exact spells_escapeText hstop (f name)

theorem writesAttrs_fillAttr [EntityCodec] {as : List (String × List Piece)}
    (h : ∀ a ∈ as, IsAttrName a.1) :
    WritesAttrs (as.map (fillAttr f)) (charsAll (escaped f) (as.flatMap writtenAttr)) := by
  induction as with
  | nil => exact .nil
  | cons a as ih =>
    rw [List.forall_mem_cons] at h
    have hvalue := spells_charsAll (f := f) (Or.inr rfl) Spells.encodeAttribute a.2
    have hcons :=
      WritesAttrs.cons (a := fillAttr f a) h.1 (by rwa [fillAttr, String.toList_ofList]) (ih h.2)
    rw [List.map_cons, List.flatMap_cons, charsAll_append, writtenAttr, charsAll_cons,
      charsAll_append]
    simpa [charsAll, chars, fillAttr] using hcons

/-- An empty text stays empty whatever is put in holes, if there is nothing in it with
placeholders. -/
theorem filled_eq_nil {ps : List Piece} (h : filled placeholder ps = []) : filled f ps = [] := by
  unfold filled charsAll at *
  rw [List.flatMap_eq_nil_iff] at *
  intro p hp
  have hp := h p hp
  cases p with
  | lit t => exact hp
  | hole name => simp [chars, placeholder, interpolation] at hp

theorem textNodes_eq_nil_iff {t : List Char} : Token.textNodes t = [] ↔ t = [] := by
  unfold Token.textNodes
  split_ifs with ht <;> simp [ht]

theorem fillAll_eq_nil {ss : List Sketch} (h : fillAll placeholder ss = []) :
    fillAll f ss = [] := by
  induction ss with
  | nil => rfl
  | cons s ss ih =>
    rw [fillAll, List.append_eq_nil_iff] at h ⊢
    refine ⟨?_, ih h.2⟩
    cases s with
    | element tag as cs =>
      rw [fill] at h
      cases h.1
    | text ps =>
      rw [fill, textNodes_eq_nil_iff] at h ⊢
      exact filled_eq_nil h.1

/-- Strings in holes leave elements where they are: no text comes to the head. -/
theorem head?_fillAll {ss : List Sketch}
    (h : ∀ m ∈ (fillAll placeholder ss).head?, m.isText = false) :
    ∀ m ∈ (fillAll f ss).head?, m.isText = false := by
  induction ss with
  | nil => exact fun m hm => by cases hm
  | cons s ss ih =>
    cases s with
    | element tag as cs =>
      rw [fillAll, fill]
      intro m hm
      cases hm
      rfl
    | text ps =>
      rw [fillAll, fill] at h ⊢
      by_cases hps : filled placeholder ps = []
      · rw [hps] at h
        rw [filled_eq_nil hps]
        exact ih h
      · rw [Token.textNodes, if_neg hps] at h
        exact absurd (h _ rfl) (by simp [Node.isText])

theorem charsAll_of_holes_nil [EntityCodec] {ss : List Sketch} (hs : AllTame ss)
    (h : holesAll ss = []) (raw : Bool) (write : String → List Char) :
    charsAll write (writtenAll raw ss) = Node.charsAll raw (fillAll placeholder ss) := by
  rw [← charsAll_writtenAll raw ss hs]
  refine charsAll_congr fun name hm => ?_
  obtain ⟨p, hp, he⟩ := List.mem_filterMap.1 hm
  cases p with
  | lit t => cases he
  | hole n =>
    have := mem_holesAll_of_mem_writtenAll raw ss hp
    rw [h] at this
    exact absurd this List.not_mem_nil

/-- With escaped strings in the holes, the pieces of sketches are a written form of the filled
nodes. -/
theorem writes_fillAll [EntityCodec] :
    (ss : List Sketch) → AllTame ss → Node.AllNormal (fillAll placeholder ss) →
    Writes (fillAll f ss) (charsAll (escaped f) (writtenAll false ss))
  | [], _, _ => .nil
  | text ps :: ss, h, hn => by
    rw [AllTame] at h
    rw [fillAll, fill] at hn
    have hspells := spells_charsAll (f := f) (Or.inl rfl) Spells.encodeText ps
    rw [writtenAll, written, if_neg Bool.false_ne_true, charsAll_append, fillAll, fill]
    by_cases hps : filled placeholder ps = []
    · rw [hps] at hn
      rw [filled_eq_nil hps] at hspells ⊢
      rw [hspells.eq_nil rfl]
      exact writes_fillAll ss h.2 hn
    · rw [Token.textNodes, if_neg hps, List.singleton_append, Node.AllNormal] at hn
      have hrest := writes_fillAll ss h.2 hn.2.2
      by_cases hf : filled f ps = []
      · rw [hf] at hspells ⊢
        rw [hspells.eq_nil rfl]
        exact hrest
      · have hhead : ∀ m ∈ (fillAll placeholder ss).head?, m.isText = false := by
          intro m hm
          rw [Bool.eq_false_iff]
          exact fun htext => hn.2.1 m hm ⟨rfl, htext⟩
        rw [Token.textNodes, if_neg hf]
        refine .text (fun he => hf ?_) ?_ (head?_fillAll hhead) hrest
        · rw [← String.toList_ofList (l := filled f ps), he, String.toList_empty]
        · rwa [String.toList_ofList]
  | element tag as cs :: ss, h, hn => by
    rw [AllTame, Tame] at h
    obtain ⟨⟨-, -, hholes, hcs⟩, hss⟩ := h
    rw [fillAll, fill, List.singleton_append, Node.AllNormal, Node.Normal] at hn
    obtain ⟨⟨htag, hnames, hvoid, hraw, hchildren⟩, -, hnss⟩ := hn
    have hattrs := writesAttrs_fillAttr (f := f) fun a ha => hnames _ (List.mem_map_of_mem ha)
    have hrest := writes_fillAll ss hss hnss
    rw [fillAll, fill, List.singleton_append, writtenAll, written, charsAll_append, charsAll_cons,
      charsAll_append, charsAll_cons]
    simp only [chars, List.cons_append, List.append_assoc, List.nil_append]
    by_cases hv : isVoid tag = true
    · rw [if_pos hv, fillAll_eq_nil (hvoid hv)]
      exact .void htag hattrs hv hrest
    · rw [if_neg hv, charsAll_append]
      by_cases hr : isRawText tag = true
      · have hfill : fillAll f cs = fillAll placeholder cs := fillAll_congr cs fun name hm => by
          rw [hholes hr] at hm
          exact absurd hm List.not_mem_nil
        rw [charsAll_of_holes_nil hcs (hholes hr), hfill, hr]
        simpa [charsAll, chars] using Writes.raw htag hattrs hr (hraw hr) hrest
      · rw [Bool.not_eq_true] at hv hr
        have hinner := writes_fillAll cs hcs (hchildren hr)
        rw [hr]
        simpa [charsAll, chars] using Writes.element htag hattrs hv hr hinner hrest

end Sketch

end LiveMarkup
