import LiveMarkup.Proofs.Markup.RoundTrip

/-!
# Trees that can be written as markup

In the tree of a document texts may be empty and may stand side by side, which no text of markup
denotes. A node is `Sound` if it is in normal form apart from that.  `Node.tidyAll` drops empty
texts and joins neighbouring ones at every level.  This does not change the markup
(`Node.charsAll_tidyAll`) and brings sound nodes into normal form, so they are read back from their
markup as what they are when tidied up (`Markup.parse_htmlAll`).
-/

namespace LiveMarkup

namespace Node

mutual

/-- Whether a node is in normal form, were it not for empty texts and neighbouring ones. -/
def Sound : Node → Prop
  | text _ => True
  | element tag as cs =>
    IsTagName tag ∧ (∀ a ∈ as, IsAttrName a.name) ∧ (isVoid tag = true → cs = []) ∧
      (isRawText tag = true → IsRawContent tag cs) ∧ AllSound cs

/-- Whether several nodes are sound. -/
def AllSound : List Node → Prop
  | [] => True
  | n :: ns => n.Sound ∧ AllSound ns

end

/-- Puts a node in front of others: an empty text is left out, and a text in front of a text is one
with it. -/
def join : Node → List Node → List Node
  | text t, text u :: ns => if t = "" then text u :: ns else text (t ++ u) :: ns
  | text t, ns => if t = "" then ns else text t :: ns
  | n, ns => n :: ns

mutual

/-- A node without empty texts and with neighbouring texts as one below it. -/
def tidy : Node → Node
  | text t => text t
  | element tag as cs => element tag as (tidyAll cs)

/-- Nodes without empty texts and with neighbouring texts as one, at every level. -/
def tidyAll : List Node → List Node
  | [] => []
  | n :: ns => join n.tidy (tidyAll ns)

end

theorem IsRawContent.allSound {tag : String} {cs : List Node} (h : IsRawContent tag cs) :
    AllSound cs := by
  cases h <;> simp [AllSound, Sound]

mutual

theorem Normal.sound : {n : Node} → n.Normal → n.Sound
  | text t, _ => by rw [Sound]; trivial
  | element tag as cs, h => by
    rw [Normal] at h
    rw [Sound]
    refine ⟨h.1, h.2.1, h.2.2.1, h.2.2.2.1, ?_⟩
    cases hr : isRawText tag with
    | false => exact (h.2.2.2.2 hr).sound
    | true => exact (h.2.2.2.1 hr).allSound

theorem AllNormal.sound : {ns : List Node} → AllNormal ns → AllSound ns
  | [], _ => by rw [AllSound]; trivial
  | n :: ns, h => by
    rw [AllNormal] at h
    rw [AllSound]
    exact ⟨h.1.sound, h.2.2.sound⟩

end

/-! ### Tidying up -/

theorem IsRawContent.tidyAll_eq {tag : String} {cs : List Node} (h : IsRawContent tag cs) :
    tidyAll cs = cs := by
  cases h with
  | nil => rfl
  | text hne => simp [tidyAll, tidy, join, hne]

/-- A text in front of nodes that do not start with a text. -/
theorem join_text {t : String} {ns : List Node} (hns : ∀ m ∈ ns.head?, m.isText = false) :
    (text t).join ns = if t = "" then ns else text t :: ns := by
  cases ns with
  | nil => rfl
  | cons m ns =>
    cases m with
    | text u => exact absurd (hns _ rfl) (by simp [isText])
    | element => rfl

theorem AllNormal.join {n : Node} {ns : List Node} (hn : n.isText = false → n.Normal)
    (h : AllNormal ns) :
    AllNormal (n.join ns) := by
  cases n with
  | element tag as cs => exact h.cons_element (hn rfl)
  | text t =>
    by_cases htext : ∃ u ns', ns = text u :: ns'
    · obtain ⟨u, ns, rfl⟩ := htext
      rw [Node.join]
      split_ifs with ht
      · exact h
      · rw [AllNormal, Normal] at h ⊢
        refine ⟨fun he => ht ?_, h.2⟩
        have hboth : t = "" ∧ u = "" := by simpa using congrArg String.toList he
        exact hboth.1
    · have hns : ∀ m ∈ ns.head?, m.isText = false := by
        intro m hm
        obtain ⟨ns, rfl⟩ := List.head?_eq_some_iff.1 hm
        cases m with
        | text u => exact absurd ⟨u, ns, rfl⟩ htext
        | element => rfl
      rw [join_text hns]
      split_ifs with ht
      · exact h
      · rw [AllNormal, Normal]
        exact ⟨ht, fun m hm hboth => Bool.false_ne_true ((hns m hm).symm.trans hboth.2), h⟩

theorem isText_tidy (n : Node) : n.tidy.isText = n.isText := by
  cases n <;> simp [tidy, isText]

mutual

theorem Sound.tidy : {n : Node} → n.Sound → n.isText = false → n.tidy.Normal
  | text t, _, ht => absurd ht (by simp [isText])
  | element tag as cs, h, _ => by
    rw [Sound] at h
    rw [Node.tidy, Normal]
    refine ⟨h.1, h.2.1, fun hv => ?_, fun hr => ?_, fun _ => h.2.2.2.2.tidyAll⟩
    · rw [h.2.2.1 hv, Node.tidyAll]
    · rw [(h.2.2.2.1 hr).tidyAll_eq]
      exact h.2.2.2.1 hr

/-- Tidying up brings sound nodes into normal form. -/
theorem AllSound.tidyAll : {ns : List Node} → AllSound ns → AllNormal (tidyAll ns)
  | [], _ => by rw [Node.tidyAll, AllNormal]; trivial
  | n :: ns, h => by
    rw [AllSound] at h
    rw [Node.tidyAll]
    exact h.2.tidyAll.join fun ht => h.1.tidy (n.isText_tidy ▸ ht)

end

theorem charsAll_join [EntityCodec] (raw : Bool) (n : Node) (ns : List Node) :
    charsAll raw (n.join ns) = n.chars raw ++ charsAll raw ns := by
  have hempty : (text "").chars raw = [] := by
    cases raw
    · exact EntityCodec.encodeText_nil
    · rfl
  unfold Node.join
  split
  · split_ifs with ht
    · rw [ht, hempty, List.nil_append]
    · cases raw <;> simp [charsAll, chars, EntityCodec.encodeText_append]
  · split_ifs with ht
    · rw [ht, hempty, List.nil_append]
    · rw [charsAll]
  · rw [charsAll]

mutual

theorem chars_tidy [EntityCodec] (raw : Bool) : (n : Node) → n.tidy.chars raw = n.chars raw
  | text t => by rw [tidy]
  | element tag as cs => by rw [tidy, chars, chars, charsAll_tidyAll _ cs]

/-- Tidying up does not change the markup. -/
theorem charsAll_tidyAll [EntityCodec] (raw : Bool) :
    (ns : List Node) → charsAll raw (tidyAll ns) = charsAll raw ns
  | [] => by rw [tidyAll]
  | n :: ns => by rw [tidyAll, charsAll_join, chars_tidy raw n, charsAll_tidyAll raw ns, charsAll]

end

end Node

/-- Sound nodes are read back from their markup as what they are when tidied up. -/
theorem Markup.parse_htmlAll [EntityCodec] {ns : List Node} (h : Node.AllSound ns) :
    Markup.parse (Node.htmlAll false ns) = .ok (Node.tidyAll ns) := by
  have hwrites := Node.writes_charsAll _ h.tidyAll
  rw [Node.charsAll_tidyAll] at hwrites
  unfold parse
  rw [Node.htmlAll_eq, String.toList_ofList]
  exact hwrites.parseChars

end LiveMarkup
