import LiveMarkup.Markup.Reference
import LiveMarkup.Proofs.Markup.Tidy

/-!
# Balanced markup

Markup is put together from fragments: texts, comments, tags and closing tags.  It is read without
an error just if the tags that open an element and the closing tags are `Balanced`, and what is read
is the tree of their nesting when that is tidied up (`Fragment.parse_markup`).

Reading takes one token for each fragment, except that it takes texts that stand side by side at
once; this makes no difference (`Elements.run_fragment`).  So reading is a run over the fragments,
with a stack of open elements.  A nesting is run through with the stack as it was
(`Fragment.Nests.take_eq`).  The other way round, if the stack is empty in the end, the fragments
that are left at each point close one open element after the other, innermost first, and what stands
between is nested (`Fragment.Closes`).
-/

namespace LiveMarkup

/-- A piece of markup. -/
inductive Fragment where
  | text (value : String)
  | comment (value : String)
  /-- A tag that opens an element, or one that is an element of its own, with a slash or of a void
  element. -/
  | tag (name : String) (attrs : List Attr) (slash : Bool)
  | close (name : String)

/-- A tag that opens an element or a closing tag. -/
inductive Bracket where
  | opens (name : String)
  | closes (name : String)

/-- Brackets in pairs of the same name that are properly nested. -/
inductive Balanced : List Bracket → Prop
  | nil : Balanced []
  | pair {name : String} {inner rest : List Bracket} : Balanced inner → Balanced rest →
    Balanced (.opens name :: (inner ++ .closes name :: rest))

namespace Fragment

/-- Whether a tag is an element of its own. -/
def isLeaf (name : String) (slash : Bool) : Bool := slash || isVoid name

/-- A fragment as it stands in markup. -/
def chars [EntityCodec] : Fragment → List Char
  | text t => t.toList
  | comment c => "<!--".toList ++ (c.toList ++ Token.commentEnd)
  | tag name as slash => '<' :: (name.toList ++ (as.flatMap Attr.chars ++ Token.tagEnd [] slash))
  | close name => closeTag name

/-- The markup of fragments that follow one another. -/
def markup [EntityCodec] (fs : List Fragment) : String := String.ofList (fs.flatMap chars)

/-- Whether a fragment is a text without tags and references, a comment that does not end early, or
a tag with proper names that does not open a raw-text element. -/
def Valid : Fragment → Prop
  | text t => '<' ∉ t.toList ∧ '&' ∉ t.toList
  | comment c => ¬Token.commentEnd <:+: c.toList
  | tag name as slash =>
    IsTagName name ∧ (∀ a ∈ as, IsAttrName a.name) ∧
    (isLeaf name slash = false → isRawText name = false)
  | close name => IsTagName name

instance : DecidablePred Valid
  | text t => inferInstanceAs (Decidable ('<' ∉ t.toList ∧ '&' ∉ t.toList))
  | comment c => inferInstanceAs (Decidable ¬Token.commentEnd <:+: c.toList)
  | tag name as slash => inferInstanceAs (Decidable
      (IsTagName name ∧ (∀ a ∈ as, IsAttrName a.name) ∧
        (isLeaf name slash = false → isRawText name = false)))
  | close name => inferInstanceAs (Decidable (IsTagName name))

/-- The bracket that a fragment is, if it is one. -/
def bracket? : Fragment → Option Bracket
  | tag name _ slash => if isLeaf name slash then none else some (.opens name)
  | close name => some (.closes name)
  | _ => none

/-- The tree that fragments describe if the closing tags close the elements that are open, with a
node for each text. -/
inductive Nests : List Fragment → List Node → Prop
  | nil : Nests [] []
  | text {t : String} {fs : List Fragment} {ns : List Node} :
      Nests fs ns → Nests (text t :: fs) (.text t :: ns)
  | comment {c : String} {fs : List Fragment} {ns : List Node} :
      Nests fs ns → Nests (comment c :: fs) ns
  | leaf {name : String} {as : List Attr} {slash : Bool} {fs : List Fragment} {ns : List Node} :
    isLeaf name slash = true → Nests fs ns →
    Nests (tag name as slash :: fs) (.element name as [] :: ns)
  | element {name : String} {as : List Attr} {slash : Bool} {inner fs : List Fragment}
    {children ns : List Node} :
    isLeaf name slash = false → Nests inner children → Nests fs ns →
      Nests (tag name as slash :: (inner ++ close name :: fs)) (.element name as children :: ns)

/-- What reading makes of a fragment. -/
def token : Fragment → Token
  | text t => .text t.toList
  | comment _ => .skipped
  | tag name as slash => if isLeaf name slash then .leaf (.element name as []) else .opening name as
  | close name => .closing name

end Fragment

/-! ### Taking fragments as tokens -/

/-- Where a fixed text is put behind a text in which it does not occur, it occurs there first, if
its last character is not in the rest of it. -/
theorem afterFirst?_append {c : Char} {q body : List Char} (hc : c ∉ q) (h : ¬(q ++ [c]) <:+: body)
    (r : List Char) :
    afterFirst? (q ++ [c]) (body ++ (q ++ [c] ++ r)) = some r := by
  induction body with
  | nil =>
    have hafter : after? (q ++ [c]) (q ++ [c] ++ r) = some r := after?_eq_some_iff.2 rfl
    obtain ⟨d, s, hs⟩ : ∃ d s, q ++ [c] ++ r = d :: s := List.exists_cons_of_ne_nil (by simp)
    rw [List.nil_append]
    rw [hs] at hafter ⊢
    rw [afterFirst?, hafter]
  | cons d body ih =>
    rw [List.infix_cons_iff, not_or] at h
    have hafter : after? (q ++ [c]) (d :: (body ++ (q ++ [c] ++ r))) = none := by
      rw [Option.eq_none_iff_forall_not_mem]
      intro r' hr'
      have he : d :: body ++ (q ++ [c] ++ r) = q ++ [c] ++ r' := after?_eq_some_iff.1 hr'
      rcases List.append_eq_append_iff.1 he with ⟨m, hm, hr⟩ | ⟨m, hm, -⟩
      · rcases List.eq_nil_or_concat m with rfl | ⟨m, e, rfl⟩
        · rw [List.append_nil] at hm
          exact h.1 ⟨[], by rw [List.append_nil, hm]⟩
        · -- the fixed text would end once more inside itself
          rw [List.concat_eq_append] at hm hr
          rw [← List.append_assoc] at hm
          obtain ⟨hq, hce⟩ := List.append_inj' hm rfl
          cases hce
          have hlt : m.length < q.length := by
            rw [hq, List.length_append, List.length_cons]
            omega
          have hat := congrArg (·[m.length]?) hr
          simp only [List.append_assoc, List.getElem?_append_left hlt,
            List.getElem?_append_right (Nat.le_refl _), Nat.sub_self, List.cons_append,
            List.getElem?_cons_zero] at hat
          exact hc (List.mem_of_getElem? hat)
      · exact h.1 ⟨m, hm.symm⟩
    rw [List.cons_append, afterFirst?, hafter, ih h.2]

theorem pushText_append (s t : List Char) (ns : List Node) :
    pushText (s ++ t) ns = pushText t (pushText s ns) := by
  by_cases hs : s = []
  · rw [hs, pushText_nil, List.nil_append]
  · by_cases ht : t = []
    · rw [ht, pushText_nil, List.append_nil]
    · have hst : s ++ t ≠ [] := fun h => hs (List.append_eq_nil_iff.1 h).1
      rcases ns with _ | ⟨⟨tag, as, cs⟩ | u, ns⟩ <;> simp [pushText, hs, ht, String.append_assoc]

namespace Token

theorem next_comment [EntityCodec] {c : List Char} (hc : ¬commentEnd <:+: c) (total : Nat)
    (r : List Char) :
    next total true ("<!--".toList ++ (c ++ commentEnd) ++ r) = .ok (skipped, r) := by
  have hafter :
    after? "<!--".toList ("<!--".toList ++ (c ++ commentEnd) ++ r) =
      some (c ++ (commentEnd ++ r)) :=
    after?_eq_some_iff.2 (by simp)
  have hend : afterFirst? commentEnd (c ++ (commentEnd ++ r)) = some r :=
    afterFirst?_append (c := '>') (q := ['-', '-']) (by decide) hc r
  have hlone : startsLoneAngle ("<!--".toList ++ (c ++ commentEnd) ++ r) = false := rfl
  unfold next skip?
  rw [hlone, if_neg Bool.false_ne_true, hafter]
  simp only [if_true, hend]

end Token

namespace Elements

variable {total : Nat} {e : Elements} {s r : List Char}

/-- A text without references may be taken before the text that stands behind it. -/
theorem run_plain [EntityCodec] (hs : '<' ∉ s) (hamp : '&' ∉ s) (r : List Char) :
    e.run total true (s ++ r) = Elements.run total true ⟨pushText s e.current, e.opened⟩ r := by
  have hhead : r.dropWhile (· != '<') = [] ∨ (r.dropWhile (· != '<')).head? = some '<' := by
    cases h : r.dropWhile (· != '<') with
    | nil => exact Or.inl rfl
    | cons c r' =>
      have hc := List.head_dropWhile_not (· != '<') (l := r) (by simp [h])
      simp [h] at hc
      exact Or.inr (congrArg some hc)
  have hfree : '<' ∉ r.takeWhile (· != '<') := fun h => by
    have hne := List.all_eq_true.1 (List.all_takeWhile (l := r) (p := (· != '<'))) '<' h
    exact absurd hne (by decide)
  rw [← List.takeWhile_append_dropWhile (p := (· != '<')) (l := r), run_text hfree hhead,
    ← List.append_assoc, run_text (by simp [hs, hfree]) hhead, EntityCodec.denotes_self hamp,
    pushText_append]

/-- A fragment is taken as one token. -/
theorem run_fragment [EntityCodec] {f : Fragment} (hf : f.Valid) (total : Nat) (e : Elements)
    (r : List Char) :
    e.run total true (f.chars ++ r) = e.step f.token >>= fun e' => e'.run total true r := by
  cases f with
  | text t => exact run_plain hf.1 hf.2 r
  | comment c => exact run_of_next (Token.next_comment hf total r)
  | tag name as slash =>
    obtain ⟨hname, has, hraw⟩ := hf
    have hread := Token.read_namedTag hname (writesAttrs_chars has) slash r
    have hnext := @Token.next_of_openingTag total _ _ _ _ _ _ hread
    have hs : (Fragment.tag name as slash).chars ++ r =
        '<' :: (name.toList ++ (as.flatMap Attr.chars ++ (Token.tagEnd [] slash ++ r))) := by
          simp [Fragment.chars]
    rw [hs]
    refine run_of_next (hnext.trans ?_)
    rw [Fragment.token, ← Fragment.isLeaf]
    split_ifs with hleaf hr
    · rfl
    · rw [hraw (Bool.eq_false_iff.2 hleaf)] at hr
      cases hr
    · rfl
  | close name => exact run_of_next (Token.next_closeTag hf total r)

/-- The nodes after some more fragments. -/
def take (e : Elements) (fs : List Fragment) : Except MarkupError Elements :=
  fs.foldlM (fun e f => e.step f.token) e

theorem take_cons (e : Elements) (f : Fragment) (fs : List Fragment) :
    e.take (f :: fs) = e.step f.token >>= fun e' => e'.take fs :=
  List.foldlM_cons

theorem take_append (e : Elements) (fs fs' : List Fragment) :
    e.take (fs ++ fs') = e.take fs >>= fun e' => e'.take fs' :=
  List.foldlM_append

/-- Reading fragments is a run over them. -/
theorem run_fragments [EntityCodec] {fs : List Fragment} (hfs : ∀ f ∈ fs, f.Valid) (total : Nat)
    (e : Elements) :
    e.run total true (fs.flatMap Fragment.chars) = e.take fs >>= finish := by
  induction fs generalizing e with
  | nil =>
    rw [List.flatMap_nil, run]
    rfl
  | cons f fs ih =>
    rw [List.forall_mem_cons] at hfs
    rw [List.flatMap_cons, run_fragment hfs.1, take_cons, bind_assoc]
    exact congrArg _ (funext fun e' => ih hfs.2 e')

end Elements

/-! ### What is read of a nesting -/

namespace Node

/-- Nodes in reverse with a node put behind them. -/
def push (before : List Node) : Node → List Node
  | text t => pushText t.toList before
  | element tag as cs => element tag as cs :: before

/-- Putting nodes behind others joins them like putting others in front of them. -/
theorem foldl_push_join (n : Node) (ns before : List Node) :
    (n.join ns).foldl push before = ns.foldl push (push before n) := by
  cases n with
  | element tag as cs => rfl
  | text t =>
    rcases ns with _ | ⟨⟨tag, as, cs⟩ | u, ns⟩
    · rw [join]
      · split_ifs with ht
        · simp [ht, push, pushText_nil]
        · rfl
      · simp
    · rw [join]
      · split_ifs with ht
        · simp [ht, push, pushText_nil]
        · rfl
      · simp
    · rw [join]
      split_ifs with ht
      · simp [ht, push, pushText_nil]
      · simp [push, pushText_append]

theorem foldl_push_of_allNormal {ns before : List Node} (h : AllNormal ns)
    (hapart : ∀ m ∈ ns.head?, ∀ n ∈ before.head?, n.Apart m) :
    ns.foldl push before = ns.reverse ++ before := by
  induction ns generalizing before with
  | nil => rfl
  | cons n ns ih =>
    rw [AllNormal] at h
    have hpush : push before n = n :: before := by
      cases n with
      | element tag as cs => rfl
      | text t =>
        rw [Normal] at h
        exact pushText_toList h.1 fun n hn => hapart _ rfl n hn
    rw [List.foldl_cons, hpush, ih h.2.2, List.reverse_cons, List.append_assoc]
    · rfl
    · intro m hm n' hn'
      cases hn'
      exact h.2.1 m hm

end Node

namespace Fragment

variable {fs : List Fragment} {ns : List Node}

/-- What valid fragments describe is in normal form, but for its texts. -/
theorem Nests.allSound (h : Nests fs ns) (hfs : ∀ f ∈ fs, f.Valid) : Node.AllSound ns := by
  induction h with
  | nil => trivial
  | text _ ih =>
    rw [List.forall_mem_cons] at hfs
    exact ⟨trivial, ih hfs.2⟩
  | comment _ ih =>
    rw [List.forall_mem_cons] at hfs
    exact ih hfs.2
  | leaf hleaf _ ih =>
    rw [List.forall_mem_cons] at hfs
    obtain ⟨⟨hname, has, hraw⟩, hfs⟩ := hfs
    refine ⟨?_, ih hfs⟩
    rw [Node.Sound]
    exact ⟨hname, has, fun _ => rfl, fun _ => .nil, trivial⟩
  | @element name as slash inner fs cs ns hleaf _ _ ihinner ih =>
    rw [List.forall_mem_cons, List.forall_mem_append, List.forall_mem_cons] at hfs
    obtain ⟨⟨hname, has, hraw⟩, hinner, -, hfs⟩ := hfs
    refine ⟨?_, ih hfs⟩
    rw [Node.Sound]
    rw [isLeaf, Bool.or_eq_false_iff] at hleaf
    refine ⟨hname, has, fun hv => ?_, fun hr => ?_, ihinner hinner⟩
    · rw [hleaf.2] at hv
      cases hv
    · rw [hraw (by simp [isLeaf, hleaf])] at hr
      cases hr

/-- A nesting is run through with the stack of open elements as it was. -/
theorem Nests.take_eq (h : Nests fs ns) (hfs : ∀ f ∈ fs, f.Valid) (e : Elements) :
    e.take fs = .ok ⟨(Node.tidyAll ns).foldl Node.push e.current, e.opened⟩ := by
  induction h generalizing e with
  | nil => rfl
  | text _ ih =>
    rw [List.forall_mem_cons] at hfs
    rw [Node.tidyAll, Node.tidy, Node.foldl_push_join]
    exact ih hfs.2 _
  | comment _ ih =>
    rw [List.forall_mem_cons] at hfs
    exact ih hfs.2 e
  | leaf hleaf _ ih =>
    rw [List.forall_mem_cons] at hfs
    rw [Node.tidyAll, Node.tidy, Node.foldl_push_join, Node.tidyAll, Elements.take_cons,
      token, if_pos hleaf]
    exact ih hfs.2 _
  | @element name as slash inner fs cs ns hleaf hcs _ ihinner ih =>
    rw [List.forall_mem_cons, List.forall_mem_append, List.forall_mem_cons] at hfs
    obtain ⟨-, hinner, -, hfs⟩ := hfs
    have hchildren : (Node.tidyAll cs).foldl Node.push [] = (Node.tidyAll cs).reverse := by
      rw [Node.foldl_push_of_allNormal (hcs.allSound hinner).tidyAll (by simp), List.append_nil]
    have hopened := ihinner hinner ⟨[], (⟨name, as⟩, e.current) :: e.opened⟩
    rw [hchildren] at hopened
    have hclosed :
      Elements.step ⟨(Node.tidyAll cs).reverse, (⟨name, as⟩, e.current) :: e.opened⟩
        (.closing name) =
        .ok ⟨.element name as (Node.tidyAll cs) :: e.current, e.opened⟩ := by simp [Elements.step]
    calc e.take (tag name as slash :: (inner ++ close name :: fs))
        = Elements.take ⟨[], (⟨name, as⟩, e.current) :: e.opened⟩ (inner ++ close name :: fs) := by
          rw [Elements.take_cons, token, if_neg (Bool.eq_false_iff.1 hleaf)]
          rfl
      _ = Elements.take ⟨(Node.tidyAll cs).reverse, (⟨name, as⟩, e.current) :: e.opened⟩
        (close name :: fs) := by
          rw [Elements.take_append, hopened]
          rfl
      _ = Elements.take ⟨.element name as (Node.tidyAll cs) :: e.current, e.opened⟩ fs := by
          rw [Elements.take_cons, token, hclosed]
          rfl
      _ = _ := by
          rw [ih hfs, Node.tidyAll, Node.tidy, Node.foldl_push_join]
          rfl

/-! ### What closes open elements -/

/-- Fragments that close some open elements, innermost first, with properly nested ones before,
between and behind the closing tags. -/
inductive Closes : List String → List Fragment → Prop
  | nil {fs : List Fragment} {ns : List Node} : Nests fs ns → Closes [] fs
  | cons {name : String} {names : List String} {inner fs : List Fragment} {ns : List Node} :
      Nests inner ns →
    Closes names fs → Closes (name :: names) (inner ++ close name :: fs)

/-- What is properly nested with any fragments behind it may be put in front of fragments that close
elements. -/
theorem Closes.extend {names : List String} (h : Closes names fs) (before : List Fragment)
    (hbefore : ∀ fs ns, Nests fs ns → ∃ ns', Nests (before ++ fs) ns') :
    Closes names (before ++ fs) := by
  cases h with
  | nil hns =>
    obtain ⟨ns', hns'⟩ := hbefore _ _ hns
    exact .nil hns'
  | cons hns hfs =>
    obtain ⟨ns', hns'⟩ := hbefore _ _ hns
    rw [← List.append_assoc]
    exact .cons hns' hfs

theorem Closes.opens {name : String} {names : List String} {as : List Attr} {slash : Bool}
    (hleaf : isLeaf name slash = false) (h : Closes (name :: names) fs) :
    Closes names (tag name as slash :: fs) := by
  cases h with
  | @cons _ _ inner fs cs hinner hfs =>
    have hext := hfs.extend (tag name as slash :: (inner ++ [close name])) fun fs ns hns =>
      ⟨_, by simpa using Nests.element hleaf hinner hns⟩
    simpa using hext

/-- Fragments after which no element is open close those that were open before. -/
theorem closes_of_take {e e' : Elements} (h : e.take fs = .ok e') (hend : e'.opened = []) :
    Closes (e.opened.map fun o => o.1.tag) fs := by
  induction fs generalizing e with
  | nil =>
    cases h
    rw [hend]
    exact .nil .nil
  | cons f fs ih =>
    rw [Elements.take_cons] at h
    cases f with
    | text t => exact (ih h).extend [text t] fun fs ns hns => ⟨_, .text hns⟩
    | comment c => exact (ih h).extend [comment c] fun fs ns hns => ⟨_, .comment hns⟩
    | tag name as slash =>
      rw [token] at h
      split_ifs at h with hleaf
      · exact (ih h).extend [tag name as slash] fun fs ns hns => ⟨_, .leaf hleaf hns⟩
      · exact (ih h).opens (Bool.eq_false_iff.2 hleaf)
    | close name =>
      rw [token, Elements.step] at h
      split at h
      · cases h
      · next o outer opened ho =>
        split_ifs at h with hname
        · rw [ho, List.map_cons, hname]
          have hnil : Nests [] [] := .nil
          exact .cons hnil (ih h)
        · cases h

/-! ### Brackets -/

theorem Nests.balanced (h : Nests fs ns) : Balanced (fs.filterMap bracket?) := by
  induction h with
  | nil => exact .nil
  | text _ ih => exact ih
  | comment _ ih => exact ih
  | leaf hleaf _ ih => simpa [bracket?, hleaf] using ih
  | element hleaf _ _ ihinner ih => simpa [bracket?, hleaf] using Balanced.pair ihinner ih

theorem exists_nests_append {before : List Fragment} (hbefore : ∀ f ∈ before, f.bracket? = none)
    (h : Nests fs ns) :
    ∃ ns', Nests (before ++ fs) ns' := by
  induction before with
  | nil => exact ⟨ns, h⟩
  | cons f before ih =>
    rw [List.forall_mem_cons] at hbefore
    obtain ⟨ns', hns'⟩ := ih hbefore.2
    cases f with
    | text t => exact ⟨_, .text hns'⟩
    | comment c => exact ⟨_, .comment hns'⟩
    | tag name as slash =>
      have hleaf : isLeaf name slash = true := by
        by_contra hleaf
        simp [bracket?, hleaf] at hbefore
      exact ⟨_, .leaf hleaf hns'⟩
    | close name => cases hbefore.1

theorem exists_of_opens {f : Fragment} {name : String} (h : f.bracket? = some (.opens name)) :
    ∃ as slash, f = tag name as slash ∧ isLeaf name slash = false := by
  cases f with
  | tag name' as slash =>
    rw [bracket?] at h
    split_ifs at h with hleaf
    cases h
    exact ⟨as, slash, rfl, Bool.eq_false_iff.2 hleaf⟩
  | text t => cases h
  | comment c => cases h
  | close name' => cases h

theorem eq_of_closes {f : Fragment} {name : String} (h : f.bracket? = some (.closes name)) :
    f = close name := by
  cases f with
  | close name' =>
    cases h
    rfl
  | tag name' as slash =>
    rw [bracket?] at h
    split_ifs at h
    cases h
  | text t => cases h
  | comment c => cases h

/-- Fragments between balanced brackets describe a tree. -/
theorem exists_nests {bs : List Bracket} (h : Balanced bs) (hfs : fs.filterMap bracket? = bs) :
    ∃ ns, Nests fs ns := by
  induction h generalizing fs with
  | nil =>
    rw [List.filterMap_eq_nil_iff] at hfs
    simpa using exists_nests_append hfs .nil
  | @pair name inner rest _ _ ihinner ih =>
    obtain ⟨before, f, fs', rfl, hbefore, hf, hfs⟩ := List.filterMap_eq_cons_iff.1 hfs
    obtain ⟨finner, fs'', rfl, hinner, hfs⟩ := List.filterMap_eq_append_iff.1 hfs
    obtain ⟨between, f', fs, rfl, hbetween, hf', hfs⟩ := List.filterMap_eq_cons_iff.1 hfs
    have hwith : (finner ++ between).filterMap bracket? = inner := by
      rw [List.filterMap_append, hinner, List.filterMap_eq_nil_iff.2 hbetween, List.append_nil]
    obtain ⟨cs, hcs⟩ := ihinner hwith
    obtain ⟨ns, hns⟩ := ih hfs
    obtain ⟨as, slash, rfl, hleaf⟩ := exists_of_opens hf
    cases eq_of_closes hf'
    rw [← List.append_assoc finner]
    exact exists_nests_append hbefore (.element hleaf hcs hns)

/-- Markup is read without an error just if its tags are balanced.  Then the nodes are those of the
nesting, tidied up. -/
theorem parse_markup [EntityCodec] (hfs : ∀ f ∈ fs, f.Valid) :
    ((∃ ns, Markup.parse (markup fs) = .ok ns) ↔ Balanced (fs.filterMap bracket?)) ∧
      ((∃ err, Markup.parse (markup fs) = .error err) ↔ ¬Balanced (fs.filterMap bracket?)) ∧
        ∀ ns, Markup.parse (markup fs) = .ok ns ↔ ∃ raw, Nests fs raw ∧ ns = Node.tidyAll raw := by
  have hparse : Markup.parse (markup fs) = Elements.start.take fs >>= Elements.finish := by
    rw [Markup.parse, markup, String.toList_ofList]
    exact Elements.run_fragments hfs _ Elements.start
  have hnests {raw : List Node} (h : Nests fs raw) :
    Markup.parse (markup fs) = .ok (Node.tidyAll raw) := by
    have hpush : (Node.tidyAll raw).foldl Node.push [] = (Node.tidyAll raw).reverse ++ [] :=
      Node.foldl_push_of_allNormal (h.allSound hfs).tidyAll (by simp)
    rw [List.append_nil] at hpush
    rw [hparse, h.take_eq hfs, Elements.start, hpush]
    show Except.ok (Node.tidyAll raw).reverse.reverse = _
    rw [List.reverse_reverse]
  have hexists {ns : List Node} (h : Markup.parse (markup fs) = .ok ns) : ∃ raw, Nests fs raw := by
    rw [hparse] at h
    cases htake : Elements.start.take fs with
    | error err =>
      rw [htake] at h
      cases h
    | ok e =>
      rw [htake] at h
      change e.finish = .ok ns at h
      rw [Elements.finish] at h
      split at h
      · cases closes_of_take htake ‹_› with
        | nil hraw => exact ⟨_, hraw⟩
      · cases h
  have hiff : (∃ ns, Markup.parse (markup fs) = .ok ns) ↔ Balanced (fs.filterMap bracket?) := by
    constructor
    · rintro ⟨ns, hns⟩
      obtain ⟨raw, hraw⟩ := hexists hns
      exact hraw.balanced
    · intro h
      obtain ⟨raw, hraw⟩ := exists_nests h rfl
      exact ⟨_, hnests hraw⟩
  refine ⟨hiff, ?_, fun ns => ⟨fun h => ?_, ?_⟩⟩
  · rw [← hiff]
    cases Markup.parse (markup fs) <;> simp
  · obtain ⟨raw, hraw⟩ := hexists h
    rw [hnests hraw] at h
    cases h
    exact ⟨raw, hraw, rfl⟩
  · rintro ⟨raw, hraw, rfl⟩
    exact hnests hraw

section

attribute [local instance] EntityCodec.common

/-- Texts around a comment are one node, and an empty text is none. -/
theorem parse_markup_paragraph :
    let fs := [text "a", comment "<i>-", text "b", tag "p" [] false, tag "br" [] false,
      tag "p" [] true, text "", close "p"]
    markup fs = "a<!--<i>--->b<p><br><p/></p>" ∧
      Markup.parse (markup fs) =
        .ok [.text "ab", .element "p" [] [.element "br" [] [], .element "p" [] []]] := by
  intro fs
  have hfs : ∀ f ∈ fs, f.Valid := by decide +kernel
  have hnests :
    Nests fs [.text "a", .text "b",
      .element "p" [] [.element "br" [] [], .element "p" [] [], .text ""]] := by
    have hinner : Nests [tag "br" [] false, tag "p" [] true, text ""] [.element "br" [] [],
      .element "p" [] [], .text ""] :=
      .leaf (by decide) (.leaf (by decide) (.text .nil))
    exact .text (.comment (.text (.element (by decide) hinner .nil)))
  exact ⟨by decide +kernel, ((parse_markup hfs).2.2 _).2 ⟨_, hnests, by decide +kernel⟩⟩

end

end Fragment

end LiveMarkup
