import LiveMarkup.Proofs.Eval.Scope
import LiveMarkup.Proofs.Expr.Word
import LiveMarkup.Proofs.Template.Blocks
import LiveMarkup.Proofs.Template.Header

/-!
# Names that templates bind

Two rules say which names a template may bind: one for the names of each-blocks, one for the names
that loop headers declare.  A block of a template that has been read binds only names that the wider
of them allows (`Template.isBindable_of_bound`).  Expressions have a rule of their own, and so such
a name, written as an interpolation, may also be a literal or no expression at all
(`Nesting.interpolation_of_isBindable`).
-/

namespace LiveMarkup

/-! ### Names of loop headers -/

namespace Rule

variable {α β : Type} {p q : Rule α} {f : α → Rule β} {P : α → Prop} {Q : β → Prop}

/-- Whether all values that a rule reads have a property. -/
def Yields (p : Rule α) (P : α → Prop) : Prop := ∀ s a r, p.read s = .ok a r → P a

theorem Yields.bind (h : p.Yields P) (hf : ∀ a, P a → (f a).Yields Q) : (p >>= f).Yields Q := by
  intro s b r hb
  obtain ⟨a, t, ha, hr⟩ := read_bind_eq_ok_iff.1 hb
  exact hf a (h s a t ha) t b r hr

theorem Yields.bind_right (hf : ∀ a, (f a).Yields Q) : (p >>= f).Yields Q :=
  Yields.bind (P := fun _ => True) (fun _ _ _ _ => trivial) fun a _ => hf a

theorem yields_pure {a : α} (h : P a) : (pure a : Rule α).Yields P := by
  intro s b r hb
  cases hb
  exact h

theorem Yields.orElse (hp : p.Yields P) (hq : q.Yields P) : (orElse p q).Yields P := by
  intro s a r h
  simp only [Rule.orElse] at h
  split at h
  · exact hq s a r h
  · exact hp s a r h

theorem Yields.optional (h : p.Yields P) : (optional p).Yields fun o => ∀ a ∈ o, P a := by
  intro s o r ho
  simp only [Rule.optional] at ho
  split at ho <;> cases ho
  · rename_i a ht
    rintro _ ⟨⟩
    exact h s a _ ht
  · exact fun _ h => absurd h (Option.not_mem_none _)

end Rule

namespace Grammar

open Rule

theorem yields_identifier : identifier.Yields IsIdentifier := by
  intro s x r h
  obtain ⟨c, t, hc, h⟩ := read_bind_eq_ok_iff.1 h
  obtain ⟨cs, u, hcs, h⟩ := read_bind_eq_ok_iff.1 h
  cases h
  cases hcs
  exact ⟨_, _, String.toList_ofList, (read_one_eq_ok_iff.1 hc).1, fun d hd =>
    List.mem_takeWhile_imp hd⟩

theorem yields_statement (expr : Rule Expr) : (statement expr).Yields fun st => ∀ x ∈ st.declared,
    IsIdentifier x := by
  have hnone {p : Rule Stmt} (h : p.Yields fun st => st.declared = []) :
      p.Yields fun st => ∀ x ∈ st.declared, IsIdentifier x := by
    intro s st r hst
    rw [h s st r hst]
    exact List.forall_mem_nil _
  refine Yields.orElse ?_ (Yields.orElse (hnone ?_) (Yields.orElse (hnone ?_) (hnone ?_)))
  · refine .bind_right fun _ => yields_identifier.bind fun x hx => .bind_right fun _ =>
      .bind_right fun e => ?_
    exact yields_pure (List.forall_mem_singleton.2 hx)
  · exact .orElse (.bind_right fun _ => .bind_right fun _ => yields_pure rfl)
      (.bind_right fun _ => .bind_right fun _ => yields_pure rfl)
  · exact .bind_right fun _ => .bind_right fun _ => .bind_right fun _ => yields_pure rfl
  · exact .bind_right fun _ => yields_pure rfl

end Grammar

/-- The names that a loop binds after its first round. -/
def LoopHeader.declaredAfter (h : LoopHeader) : List String := (h.step.map Stmt.declared).getD []

theorem Grammar.yields_loopHeader (expr : Rule Expr) :
    (loopHeader expr).Yields fun h => ∀ x ∈ h.declared ++ h.declaredAfter, IsIdentifier x := by
  have hoptional := (yields_statement expr).optional
  have hdeclared {st : Option Stmt} (h : ∀ a ∈ st, ∀ x ∈ a.declared, IsIdentifier x) :
      ∀ x ∈ (st.map Stmt.declared).getD [], IsIdentifier x := by
    cases st with
    | none => exact List.forall_mem_nil _
    | some st => exact h st rfl
  refine hoptional.bind fun init hinit => .bind_right fun _ => .bind_right fun _ =>
    .bind_right fun _ => ?_
  refine hoptional.bind fun step hstep => .bind_right fun _ => Rule.yields_pure ?_
  exact List.forall_mem_append.2 ⟨hdeclared hinit, hdeclared hstep⟩

/-- The names that loop headers declare are identifiers. -/
theorem LoopHeader.isIdentifier_of_parse {source : String} {h : LoopHeader}
    (hh : LoopHeader.parse source = .ok h) :
    ∀ x ∈ h.declared ++ h.declaredAfter, IsIdentifier x := by
  unfold LoopHeader.parse Grammar.readAll Rule.whole at hh
  dsimp only at hh
  rcases hread :
    (Grammar.loopHeader (Grammar.expression (source.length + 1))).read source.toList with
    ⟨a, _ | ⟨c, r⟩⟩ | r | r <;> rw [hread] at hh <;> cases hh
  exact Grammar.yields_loopHeader _ _ _ _ hread

/-! ### Names of each-blocks -/

namespace EachHeader

theorem isBindable_of_parse {s : List Char} {collection : Expr} {ns : List String}
    (h : EachHeader.parse s = .ok (collection, ns)) :
    ns.length ≤ maxNames ∧ ∀ x ∈ ns, isBindable x.toList = true := by
  unfold EachHeader.parse at h
  split at h
  · cases h
  · split at h
    · cases h
    · dsimp only at h
      split at h
      · rename_i hns
        cases h
        refine ⟨by rw [List.length_map]; exact hns.1, fun x hx => ?_⟩
        obtain ⟨cs, hcs, rfl⟩ := List.mem_map.1 hx
        rw [String.toList_ofList]
        exact List.all_eq_true.1 hns.2 cs hcs
      · cases h

/-- A name that can be bound is an identifier, or it is one up to a word character beyond ASCII. -/
theorem isIdentifier_or_of_isBindable {x : String} (h : isBindable x.toList = true) :
    IsIdentifier x ∨ ∃ y c r, IsIdentifier y ∧ x = y ++ String.ofList (c :: r) ∧ isWord c = true ∧
    128 ≤ c.toNat := by
  cases hx : x.toList with
  | nil =>
    rw [hx] at h
    cases h
  | cons c cs =>
    rw [hx, isBindable, Bool.and_eq_true, List.all_eq_true] at h
    have hhead : ∀ d ∈ cs.takeWhile Grammar.isIdentPart, Grammar.isIdentPart d = true :=
      fun d hd => List.mem_takeWhile_imp hd
    have happend := List.takeWhile_append_dropWhile (p := Grammar.isIdentPart) (l := cs)
    cases hrest : cs.dropWhile Grammar.isIdentPart with
    | nil =>
      rw [hrest, List.append_nil] at happend
      exact Or.inl ⟨c, cs, hx, h.1, happend ▸ hhead⟩
    | cons d r =>
      have hd : Grammar.isIdentPart d = false := by
        have := List.head?_dropWhile_not Grammar.isIdentPart cs
        rw [hrest] at this
        simpa using this
      rw [hrest] at happend
      have hmem : d ∈ cs := happend ▸ List.mem_append_right _ List.mem_cons_self
      have hword : isWord d = true := by
        refine (Bool.or_eq_true _ _).mp (h.2 d hmem) |>.resolve_right fun hdollar => ?_
        rw [beq_iff_eq.1 hdollar] at hd
        cases hd
      refine Or.inr ⟨String.ofList (c :: cs.takeWhile Grammar.isIdentPart), d, r,
        ⟨c, _, String.toList_ofList, h.1, hhead⟩, ?_, hword, ?_⟩
      · rw [← String.toList_inj, String.toList_append, String.toList_ofList, String.toList_ofList,
          hx, List.cons_append, happend]
      · by_contra hlt
        rw [isWord_of_lt (Nat.lt_of_not_le hlt), isAsciiWord] at hword
        rw [Grammar.isIdentPart, hword] at hd
        cases hd

end EachHeader

/-! ### Names as interpolations -/

theorem isBlank_of_isWord {c : Char} (h : isWord c = true) : isBlank c = false := by
  have hblanks : ∀ n ∈ [0x20, 0x09, 0x0A, 0x0B, 0x0C, 0x0D, 0x85, 0xA0, 0x1680, 0x2000, 0x2001,
      0x2002, 0x2003, 0x2004, 0x2005, 0x2006, 0x2007, 0x2008, 0x2009, 0x200A, 0x2028, 0x2029,
      0x202F, 0x205F, 0x3000],
      isWord (Char.ofNat n) = false := by
    decide +kernel
  rw [Bool.eq_false_iff]
  intro hblank
  have hmem : isWord (Char.ofNat c.toNat) = false := by
    refine hblanks c.toNat ?_
    simp only [isBlank, Bool.or_eq_true, Bool.and_eq_true, beq_iff_eq, decide_eq_true_eq] at hblank
    simp only [List.mem_cons, List.not_mem_nil, or_false]
    omega
  rw [Char.ofNat_toNat, h] at hmem
  cases hmem

namespace Grammar

theorem toNat_lt_of_opLevel? {c : Char} (h : opLevel? c ≠ none) : c.toNat < 128 := by
  by_contra hlt
  have hne {d : Char} (hd : d.toNat < 128) : c ≠ d := by
    rintro rfl
    exact hlt hd
  refine h ?_
  unfold opLevel?
  rw [if_neg (hne (by decide)), if_neg (hne (by decide)), if_neg (hne (by decide)),
    if_neg (not_or.2 ⟨hne (by decide), hne (by decide)⟩),
    if_neg (not_or.2 ⟨hne (by decide), hne (by decide)⟩),
    if_neg (not_or.2 ⟨hne (by decide), hne (by decide)⟩),
    if_neg (not_or.2 ⟨hne (by decide), not_or.2 ⟨hne (by decide), hne (by decide)⟩⟩),
    if_neg (not_or.2 ⟨hne (by decide), not_or.2 ⟨hne (by decide), hne (by decide)⟩⟩)]

/-- A word character beyond ASCII goes on neither with a name nor with an expression. -/
theorem cut_cons {c : Char} (hword : isWord c = true) (hc : 128 ≤ c.toNat) (r : List Char) :
    Cut (c :: r) := by
  refine .cons ?_ r
  rw [Bool.or_eq_false_iff, Bool.or_eq_false_iff]
  refine ⟨⟨isSpace_of_isBlank (isBlank_of_isWord hword), ?_⟩, ?_⟩
  · rw [Bool.eq_false_iff]
    intro h
    exact absurd (toNat_of_isIdentPart h).2 (by omega)
  · rw [bne_eq_false_iff_eq]
    by_contra h
    exact absurd (toNat_lt_of_opLevel? h) (by omega)

end Grammar

namespace Nesting

/-- A name that can be bound is read as a word if it is all ASCII, and else it is no expression. -/
theorem interpolation_of_isBindable {x : String} (h : EachHeader.isBindable x.toList = true) :
    IsIdentifier x ∧ interpolation x.toList = .ok (Grammar.word x) ∨
      (∃ c ∈ x.toList, 128 ≤ c.toNat) ∧ ∃ near,
        interpolation x.toList = .error (.unexpectedToken near x) := by
  have hparse : interpolation x.toList = Expr.parse x := by
    unfold interpolation
    rw [if_neg, String.ofList_toList]
    intro hall
    rw [EachHeader.isBindable.eq_def] at h
    split at h
    · cases h
    · rename_i c cs hx
      rw [Bool.and_eq_true] at h
      rw [hx, List.all_cons, Grammar.isBlank_of_isIdentStart h.1] at hall
      cases hall
  rw [hparse]
  rcases EachHeader.isIdentifier_or_of_isBindable h with hx | ⟨y, c, r, hy, rfl, hword, hc⟩
  · exact Or.inl ⟨hx, Expr.parse_identifier hx⟩
  · refine Or.inr ⟨⟨c, ?_, hc⟩, _,
      Expr.parse_word_cons hy (Grammar.cut_cons hword hc r) (isBlank_of_isWord hword)⟩
    rw [String.toList_append, String.toList_ofList]
    exact List.mem_append_right _ List.mem_cons_self

end Nesting

/-! ### Blocks of a template -/

/-- The inner lists of segments in what follows the first branch of a conditional. -/
def Alternatives.bodies : Alternatives → List (List Segment)
  | .done => []
  | .otherwise body => [body]
  | .elseIf _ body more => body :: more.bodies

/-- Whether a segment stands somewhere among others or in a block among them. -/
inductive Segment.Occurs (x : Segment) : List Segment → Prop
  | here {ss : List Segment} : Occurs x (x :: ss)
  | next {s : Segment} {ss : List Segment} (h : Occurs x ss) : Occurs x (s :: ss)
  | branch {test : Expr} {body : List Segment} {more : Alternatives} {ss : List Segment}
    (h : Occurs x body) :
      Occurs x (.conditional test body more :: ss)
  | alternative {test : Expr} {body b : List Segment} {more : Alternatives} {ss : List Segment}
    (hb : b ∈ more.bodies) (h : Occurs x b) : Occurs x (.conditional test body more :: ss)
  | loop {header : LoopHeader} {body ss : List Segment} (h : Occurs x body) :
      Occurs x (.loop header body :: ss)
  | each {collection : Expr} {names : List String} {body ss : List Segment} (h : Occurs x body) :
      Occurs x (.each collection names body :: ss)

/-- The names that a block binds. -/
def Segment.bound : Segment → List String
  | .loop header _ => header.declared ++ header.declaredAfter
  | .each _ names _ => names
  | .text _ | .escaped _ | .raw _ | .conditional .. => []

theorem Alternatives.marks_subset {b : List Segment} : {more : Alternatives} → b ∈ more.bodies →
    Segment.marksAll b ⊆ more.marks
  | .otherwise body, hb => by
    rw [Alternatives.bodies, List.mem_singleton] at hb
    rw [hb, Alternatives.marks]
    exact List.subset_cons_of_subset _ (List.subset_append_left _ _)
  | .elseIf test body more, hb => by
    rw [Alternatives.marks]
    refine List.subset_cons_of_subset _ ?_
    rcases List.mem_cons.1 hb with rfl | hb
    · exact List.subset_append_left _ _
    · exact List.subset_append_of_subset_right _ (marks_subset hb)

theorem Segment.Occurs.marks_subset {x : Segment} {ss : List Segment} (h : x.Occurs ss) :
    x.marks ⊆ marksAll ss := by
  induction h with
  | here => exact List.subset_append_left _ _
  | next _ ih => exact List.subset_append_of_subset_right _ ih
  | branch _ ih | loop _ ih | each _ ih =>
    exact List.subset_append_of_subset_left
      _ (List.subset_cons_of_subset _ (List.subset_append_of_subset_left _ ih))
  | alternative hb _ ih =>
    refine List.subset_append_of_subset_left
      _ (List.subset_cons_of_subset _ (List.subset_append_of_subset_right _ ?_))
    exact List.Subset.trans ih (Alternatives.marks_subset hb)

/-- What leads a nesting on is read as a mark. -/
theorem Nesting.exists_means_of_step {n n' : Nesting} {d : Directive} (h : n.step d = .ok n') :
    ∃ m, Mark.Means m d := by
  have hok {ε α β : Type} {x : Except ε α} {f : α → β} {b : β} (hx : x.map f = .ok b) :
    ∃ a, x = .ok a := by
    cases x with
    | ok a => exact ⟨a, rfl⟩
    | error e => cases hx
  cases d with
  | text t => exact ⟨_, .text t⟩
  | escaped s => exact ⟨_, .escaped (hok h).choose_spec⟩
  | raw s => exact ⟨_, .raw (hok h).choose_spec⟩
  | ifOpen s => exact ⟨_, .ifOpen (hok h).choose_spec⟩
  | forOpen s => exact ⟨_, .forOpen (hok h).choose_spec⟩
  | eachOpen s =>
    obtain ⟨⟨collection, names⟩, hparse⟩ := hok h
    exact ⟨_, .eachOpen hparse⟩
  | elseIf s =>
    unfold step at h
    dsimp only at h
    split at h
    · exact ⟨_, .elseIf (hok h).choose_spec⟩
    · cases h
  | elseMark => exact ⟨_, .elseMark⟩
  | endIf => exact ⟨_, .endIf⟩
  | endFor => exact ⟨_, .endFor⟩
  | endEach => exact ⟨_, .endEach⟩

theorem Nesting.exists_means_of_foldlM {ds : List Directive} {n n' : Nesting}
    (h : ds.foldlM step n = .ok n') :
    ∃ ms, List.Forall₂ Mark.Means ms ds := by
  induction ds generalizing n with
  | nil => exact ⟨[], .nil⟩
  | cons d ds ih =>
    rw [List.foldlM_cons] at h
    cases hstep : n.step d with
    | error e =>
      rw [hstep] at h
      cases h
    | ok n₁ =>
      rw [hstep] at h
      obtain ⟨m, hm⟩ := exists_means_of_step hstep
      obtain ⟨ms, hms⟩ := ih h
      exact ⟨m :: ms, .cons hm hms⟩

namespace Template

/-- The marks of a template that has been read are read off its directives. -/
theorem means_of_parse {source : String} {t : Template} (ht : Template.parse source = .ok t) :
    List.Forall₂ Mark.Means (Segment.marksAll t.segments)
    (Directive.scan (Shorthand.expand source.toList)) := by
  unfold Template.parse at ht
  rcases hss : Segment.ofDirectives (Directive.scan (Shorthand.expand source.toList)) with
    e | ss <;>
    rw [hss] at ht <;> cases ht
  have hfold := hss
  unfold Segment.ofDirectives at hfold
  split at hfold
  · obtain ⟨ms, hms⟩ := Nesting.exists_means_of_foldlM ‹_›
    rwa [(Segment.ofDirectives_eq_ok_iff hms).1 hss]
  · cases hfold

/-- Each mark of a segment of a template that has been read was read off a directive. -/
theorem exists_means {source : String} {t : Template}
    (ht : Template.parse source = .ok t) {x : Segment} (hx : x.Occurs t.segments) {m : Mark}
    (hm : m ∈ x.marks) : ∃ d, Mark.Means m d := by
  have hall :=
    (List.forall₂_and_left _ _).1 ((means_of_parse ht).imp fun m d h => ⟨Exists.intro d h, h⟩)
  exact hall.1 m (hx.marks_subset hm)

/-- A template that has been read binds only names that may be bound, and no more in an each-block
than it has values for. -/
theorem isBindable_of_bound {source : String} {t : Template}
    (ht : Template.parse source = .ok t) {x : Segment} (hx : x.Occurs t.segments) :
    (∀ name ∈ x.bound, EachHeader.isBindable name.toList = true) ∧
      ∀ collection names body, x = .each collection names body →
        names.length ≤ EachHeader.maxNames := by
  have hmeans (m : Mark) (hm : m ∈ x.marks) : ∃ d, Mark.Means m d := exists_means ht hx hm
  cases x with
  | loop header body =>
    obtain ⟨_, ⟨_⟩⟩ := hmeans (.forOpen header) List.mem_cons_self
    rename_i hparse
    refine ⟨fun name hname => ?_, nofun⟩
    exact EachHeader.isBindable_toList (LoopHeader.isIdentifier_of_parse hparse name hname)
  | each collection names body =>
    obtain ⟨_, ⟨_⟩⟩ := hmeans (.eachOpen collection names) List.mem_cons_self
    rename_i hparse
    obtain ⟨hlength, hnames⟩ := EachHeader.isBindable_of_parse hparse
    refine ⟨hnames, ?_⟩
    rintro _ _ _ ⟨⟩
    exact hlength
  | text _ | escaped _ | raw _ | conditional _ _ _ => exact ⟨List.forall_mem_nil _, nofun⟩

end Template

end LiveMarkup
