import LiveMarkup.Template.Segment
import Mathlib.Data.List.Forall2

/-!
# Blocks and their marks

A tree of segments stands for a sequence of marks, with a mark at each end of every block
(`Segment.marks`).  The nesting that is reached after some directives stands for the marks that
these directives are read as (`Nesting.marks`): one step adds one mark (`Nesting.marks_of_step`),
and so the segments that are put together have just the marks of the template.  Conversely, over the
marks of a segment the nesting comes to hold this segment (`Nesting.foldlM_segment`).  Both ways
together say that directives make up a list of segments exactly if they are read as its marks
(`Segment.ofDirectives_eq_ok_iff`).
-/

namespace LiveMarkup

/-- A directive with what its source stands for. -/
inductive Mark where
  | text (t : String)
  | escaped (e : Expr)
  | raw (e : Expr)
  | ifOpen (test : Expr)
  | elseIf (test : Expr)
  | elseMark
  | endIf
  | forOpen (header : LoopHeader)
  | endFor
  | eachOpen (collection : Expr) (names : List String)
  | endEach

/-! ### The marks of a tree -/

mutual

/-- The marks of a segment. -/
def Segment.marks : Segment → List Mark
  | .text t => [.text t]
  | .escaped e => [.escaped e]
  | .raw e => [.raw e]
  | .conditional test body more => .ifOpen test :: (Segment.marksAll body ++ more.marks)
  | .loop header body => .forOpen header :: (Segment.marksAll body ++ [.endFor])
  | .each collection names body =>
    .eachOpen collection names :: (Segment.marksAll body ++ [.endEach])

/-- The marks of what follows the first branch of a conditional, up to the end of the
conditional. -/
def Alternatives.marks : Alternatives → List Mark
  | .done => [.endIf]
  | .otherwise body => .elseMark :: (Segment.marksAll body ++ [.endIf])
  | .elseIf test body more => .elseIf test :: (Segment.marksAll body ++ more.marks)

/-- The marks of several segments. -/
def Segment.marksAll : List Segment → List Mark
  | [] => []
  | s :: ss => s.marks ++ Segment.marksAll ss

end

theorem Segment.marksAll_append (ss ts : List Segment) :
    marksAll (ss ++ ts) = marksAll ss ++ marksAll ts := by
  induction ss with
  | nil => rfl
  | cons s ss ih => rw [List.cons_append, marksAll, ih, marksAll, List.append_assoc]

theorem Segment.marksAll_reverse_cons (s : Segment) (ss : List Segment) :
    marksAll (s :: ss).reverse = marksAll ss.reverse ++ s.marks := by
  rw [List.reverse_cons, marksAll_append, marksAll, marksAll, List.append_nil]

/-! ### Reading directives as marks -/

/-- Whether a directive is read as a mark. -/
inductive Mark.Means : Mark → Directive → Prop
  | text (t : List Char) : Means (.text (String.ofList t)) (.text t)
  | escaped {e : Expr} {s : List Char} (h : Nesting.interpolation s = .ok e) :
      Means (.escaped e) (.escaped s)
  | raw {e : Expr} {s : List Char} (h : Nesting.interpolation s = .ok e) : Means (.raw e) (.raw s)
  | ifOpen {e : Expr} {s : List Char} (h : Nesting.branchTest s = .ok e) :
      Means (.ifOpen e) (.ifOpen s)
  | elseIf {e : Expr} {s : List Char} (h : Nesting.branchTest s = .ok e) :
      Means (.elseIf e) (.elseIf s)
  | elseMark : Means .elseMark .elseMark
  | endIf : Means .endIf .endIf
  | forOpen {header : LoopHeader} {s : List Char}
    (h : LoopHeader.parse (wordsToOperators (String.ofList s)) = .ok header) :
      Means (.forOpen header) (.forOpen s)
  | endFor : Means .endFor .endFor
  | eachOpen {collection : Expr} {names : List String} {s : List Char}
    (h : EachHeader.parse s = .ok (collection, names)) :
      Means (.eachOpen collection names) (.eachOpen s)
  | endEach : Means .endEach .endEach

/-! ### What a nesting stands for -/

/-- The marks of complete branches and the mark of the test behind them. -/
def OpenBlock.branchMarks (test : Expr) : List (Expr × List Segment) → List Mark
  | [] => [.ifOpen test]
  | (test', body) :: complete =>
    branchMarks test' complete ++ (Segment.marksAll body ++ [.elseIf test])

/-- The marks of an open block up to its innermost part. -/
def OpenBlock.marks : OpenBlock → List Mark
  | branch complete test => branchMarks test complete
  | otherwise complete test body =>
    branchMarks test complete ++ (Segment.marksAll body ++ [.elseMark])
  | loop header => [.forOpen header]
  | each collection names => [.eachOpen collection names]

/-- A conditional is its branches, the last one of those that have been read and what follows. -/
theorem Segment.marks_ofBranches (test : Expr) (body : List Segment) (more : Alternatives)
    (complete : List (Expr × List Segment)) :
    (ofBranches test body more complete).marks =
      OpenBlock.branchMarks test complete ++ (marksAll body ++ more.marks) := by
  induction complete generalizing test body more with
  | nil => rfl
  | cons c complete ih =>
    rw [ofBranches, ih, Alternatives.marks, OpenBlock.branchMarks, List.append_assoc,
      List.append_assoc]
    rfl

namespace Nesting

/-- The marks up to the innermost open block. -/
def openMarks : List (OpenBlock × List Segment) → List Mark
  | [] => []
  | (b, outer) :: opened => openMarks opened ++ (Segment.marksAll outer.reverse ++ b.marks)

/-- The marks that have been read. -/
def marks (n : Nesting) : List Mark := openMarks n.opened ++ Segment.marksAll n.current.reverse

variable {n n' : Nesting} {m : Mark} {d : Directive}

theorem marks_push (n : Nesting) (s : Segment) : (n.push s).marks = n.marks ++ s.marks := by
  rw [marks, push, Segment.marksAll_reverse_cons, ← List.append_assoc]
  rfl

theorem marks_enter (n : Nesting) (b : OpenBlock) : (n.enter b).marks = n.marks ++ b.marks := by
  show openMarks n.opened ++ (Segment.marksAll n.current.reverse ++ b.marks) ++ [] = _
  rw [List.append_nil, ← List.append_assoc]
  rfl

/-- The marks of a nesting with a block that goes on with another part or ends. -/
theorem marks_cons (current outer : List Segment) (b : OpenBlock)
    (opened : List (OpenBlock × List Segment)) :
    marks ⟨current, (b, outer) :: opened⟩ =
      openMarks opened ++
        (Segment.marksAll outer.reverse ++ (b.marks ++ Segment.marksAll current.reverse)) := by
  rw [marks, openMarks, List.append_assoc, List.append_assoc]

/-- A closed block is the last segment of the part around it. -/
theorem marks_close (outer : List Segment) (s : Segment)
    (opened : List (OpenBlock × List Segment)) :
    marks ⟨s :: outer, opened⟩ = openMarks opened ++
      (Segment.marksAll outer.reverse ++ s.marks) := by
  rw [marks, Segment.marksAll_reverse_cons]

/-- A step reads one mark more. -/
theorem marks_of_step (hm : m.Means d) (h : n.step d = .ok n') : n'.marks = n.marks ++ [m] := by
  obtain ⟨current, opened⟩ := n
  cases hm with
  | text t =>
    cases h
    exact marks_push _ _
  | escaped hs | raw hs =>
    simp only [step, hs, Except.map, Except.ok.injEq] at h
    rw [← h]
    exact marks_push _ _
  | ifOpen hs | forOpen hs | eachOpen hs =>
    simp only [step, hs, Except.map, Except.ok.injEq] at h
    rw [← h]
    exact marks_enter _ _
  | elseIf hs =>
    simp only [step] at h
    split at h
    · rename_i complete test outer opened
      simp only [hs, Except.map, Except.ok.injEq] at h
      rw [← h, marks_cons, marks_cons]
      simp [OpenBlock.marks, OpenBlock.branchMarks, Segment.marksAll]
    · cases h
  | elseMark =>
    simp only [step] at h
    split at h
    · cases h
      rw [marks_cons, marks_cons]
      simp [OpenBlock.marks, Segment.marksAll]
    · cases h
  | endIf =>
    simp only [step] at h
    split at h
    · cases h
      rw [marks_close, marks_cons, Segment.marks_ofBranches]
      simp [OpenBlock.marks, Alternatives.marks]
    · cases h
      rw [marks_close, marks_cons, Segment.marks_ofBranches]
      simp [OpenBlock.marks, Alternatives.marks]
    · cases h
  | endFor =>
    simp only [step] at h
    split at h
    · cases h
      rw [marks_close, marks_cons]
      simp [OpenBlock.marks, Segment.marks]
    · cases h
  | endEach =>
    simp only [step] at h
    split at h
    · cases h
      rw [marks_close, marks_cons]
      simp [OpenBlock.marks, Segment.marks]
    · cases h

/-- What is reached over several directives stands for their marks. -/
theorem marks_of_foldlM {ms : List Mark} {ds : List Directive} (hms : List.Forall₂ Mark.Means ms ds)
    (h : ds.foldlM step n = .ok n') : n'.marks = n.marks ++ ms := by
  induction hms generalizing n with
  | nil =>
    cases h
    rw [List.append_nil]
  | @cons m d ms ds hm hms ih =>
    rw [List.foldlM_cons] at h
    cases hstep : n.step d with
    | error e =>
      rw [hstep] at h
      cases h
    | ok n₁ =>
      rw [hstep] at h
      rw [ih h, marks_of_step hm hstep, List.append_assoc, List.singleton_append]

theorem marks_of_finish {ss : List Segment} (h : n.finish = .ok ss) :
    Segment.marksAll ss = n.marks := by
  unfold finish at h
  split at h
  · rename_i hopened
    cases h
    rw [marks, hopened]
    rfl
  · cases h

end Nesting

/-! ### Putting the segments together -/

/-- The directives for several lists of marks are several lists of directives. -/
theorem Mark.exists_append {ms ms' : List Mark} {ds : List Directive}
    (h : List.Forall₂ Means (ms ++ ms') ds) :
    ∃ ds₁ ds₂, ds = ds₁ ++ ds₂ ∧ List.Forall₂ Means ms ds₁ ∧ List.Forall₂ Means ms' ds₂ := by
  induction ms generalizing ds with
  | nil => exact ⟨[], ds, rfl, .nil, h⟩
  | cons m ms ih =>
    cases h with
    | @cons _ d _ ds hd hds =>
      obtain ⟨ds₁, ds₂, rfl, h₁, h₂⟩ := ih hds
      exact ⟨d :: ds₁, ds₂, rfl, .cons hd h₁, h₂⟩

namespace Nesting

theorem foldlM_append {ds ds' : List Directive} {n n' : Nesting} (h : ds.foldlM step n = .ok n') :
    (ds ++ ds').foldlM step n = ds'.foldlM step n' := by
  rw [List.foldlM_append, h]
  rfl

theorem foldlM_cons {d : Directive} {ds : List Directive} {n : Nesting} (n' : Nesting)
    (h : n.step d = .ok n') :
    (d :: ds).foldlM step n = ds.foldlM step n' := by
  rw [List.foldlM_cons, h]
  rfl

mutual

/-- Over its marks a segment is put to the segments that there are already. -/
theorem foldlM_segment :
    (s : Segment) → {ds : List Directive} → List.Forall₂ Mark.Means s.marks ds →
    (n : Nesting) → ds.foldlM step n = .ok (n.push s)
  | .text _, _, .cons hm .nil, n => by
    cases hm
    rfl
  | .escaped e, _, .cons (.escaped h) .nil, n => by
    rw [foldlM_cons (n.push (.escaped e)) (by simp only [step, h, Except.map])]
    rfl
  | .raw e, _, .cons (.raw h) .nil, n => by
    rw [foldlM_cons (n.push (.raw e)) (by simp only [step, h, Except.map])]
    rfl
  | .conditional test body more, _, .cons (.ifOpen h) hds, n => by
    obtain ⟨ds₁, ds₂, rfl, h₁, h₂⟩ := Mark.exists_append hds
    rw [foldlM_cons (n.enter (.branch [] test)) (by simp only [step, h, Except.map]),
      foldlM_append (foldlM_segments body h₁ _)]
    simp only [enter, List.append_nil]
    rw [foldlM_alternatives more h₂, List.reverse_reverse]
    rfl
  | .loop header body, _, .cons (.forOpen h) hds, n => by
    obtain ⟨ds₁, ds₂, rfl, h₁, _ | ⟨⟨⟩, ⟨⟩⟩⟩ := Mark.exists_append hds
    rw [foldlM_cons (n.enter (.loop header)) (by simp only [step, h, Except.map]),
      foldlM_append (foldlM_segments body h₁ _)]
    simp [enter, push, step]
  | .each collection names body, _, .cons (.eachOpen h) hds, n => by
    obtain ⟨ds₁, ds₂, rfl, h₁, _ | ⟨⟨⟩, ⟨⟩⟩⟩ := Mark.exists_append hds
    rw [foldlM_cons (n.enter (.each collection names)) (by simp only [step, h, Except.map]),
      foldlM_append (foldlM_segments body h₁ _)]
    simp [enter, push, step]

/-- Over the rest of its marks a conditional is closed. -/
theorem foldlM_alternatives : (more : Alternatives) → {ds : List Directive} →
    List.Forall₂ Mark.Means more.marks ds →
    {current outer : List Segment} → {complete : List (Expr × List Segment)} → {test : Expr} →
    {opened : List (OpenBlock × List Segment)} →
    ds.foldlM step ⟨current, (.branch complete test, outer) :: opened⟩ =
      .ok ⟨Segment.ofBranches test current.reverse more complete :: outer, opened⟩
  | .done, _, .cons .endIf .nil, _, _, _, _, _ => rfl
  | .otherwise body, _, .cons .elseMark hds, current, outer, complete, test, opened => by
    obtain ⟨ds₁, ds₂, rfl, h₁, _ | ⟨⟨⟩, ⟨⟩⟩⟩ := Mark.exists_append hds
    rw [foldlM_cons (⟨[], (.otherwise complete test current.reverse, outer) :: opened⟩) rfl,
      foldlM_append (foldlM_segments body h₁ _)]
    simp [step]
  | .elseIf test' body more, _, .cons (.elseIf h) hds, current, outer, complete, test, opened => by
    obtain ⟨ds₁, ds₂, rfl, h₁, h₂⟩ := Mark.exists_append hds
    rw [foldlM_cons (⟨[], (.branch ((test, current.reverse) :: complete) test', outer) :: opened⟩)
        (by simp only [step, h, Except.map]),
      foldlM_append (foldlM_segments body h₁ _), foldlM_alternatives more h₂]
    simp [Segment.ofBranches]

/-- Over their marks segments are put to the segments that there are already. -/
theorem foldlM_segments : (ss : List Segment) → {ds : List Directive} →
    List.Forall₂ Mark.Means (Segment.marksAll ss) ds → (n : Nesting) →
    ds.foldlM step n = .ok ⟨ss.reverse ++ n.current, n.opened⟩
  | [], _, .nil, n => rfl
  | s :: ss, _, hds, n => by
    obtain ⟨ds₁, ds₂, rfl, h₁, h₂⟩ := Mark.exists_append hds
    rw [foldlM_append (foldlM_segment s h₁ n), foldlM_segments ss h₂]
    simp [push]

end

end Nesting

/-- Directives make up a list of segments exactly if they are read as its marks. -/
theorem Segment.ofDirectives_eq_ok_iff {ms : List Mark} {ds : List Directive}
    (h : List.Forall₂ Mark.Means ms ds) {ss : List Segment} :
    Segment.ofDirectives ds = .ok ss ↔ marksAll ss = ms := by
  constructor
  · intro hss
    unfold Segment.ofDirectives at hss
    split at hss
    · rename_i n hn
      rw [Nesting.marks_of_finish hss, Nesting.marks_of_foldlM h hn]
      rfl
    · cases hss
  · rintro rfl
    unfold Segment.ofDirectives
    rw [Nesting.foldlM_segments ss h]
    simp [Nesting.finish, Nesting.start]

end LiveMarkup
