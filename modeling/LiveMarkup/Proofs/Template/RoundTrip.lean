import LiveMarkup.Proofs.Template.Blocks
import LiveMarkup.Proofs.Template.Header
import LiveMarkup.Proofs.Template.Scan

/-!
# Reading printed templates

A sequence of marks is printed as the texts of directives that are written for them (`Mark.Prints`).
Reading such a text gives a list of segments exactly if the sequence is that of its marks, and it
fails if the marks of no list of segments are this sequence (`Template.parse_marks`).  Hence the
blocks of a template have to be balanced: each marker that closes a block or goes on with another
branch belongs to the innermost open block.
-/

namespace LiveMarkup

open Lexeme (Lays)

/-! ### Printing -/

/-- Whether a text does not end a directive, starts no shorthand and is a single line. -/
structure IsInline (s : List Char) : Prop where
  noBrace : '}' ∉ s
  noShorthand : '@' ∉ s
  noBreak : '\n' ∉ s

/-- Whether a text inside a directive is one of the texts of an expression. -/
structure Expr.PrintsInline (e : Expr) (s : List Char) : Prop extends IsInline s where
  printable : e.Printable
  lays : Lays e.lexemes s

/-- Whether a text inside a directive is one of the texts of a loop header. -/
structure LoopHeader.PrintsInline (h : LoopHeader) (s : List Char) : Prop extends IsInline s where
  printable : h.Printable
  lays : ∃ ls, h.Writes ls ∧ Lays ls s

/-- The directives with which a mark can be written. -/
inductive Mark.Writes : Mark → Directive → Prop
  | text {t : List Char} (hne : t ≠ []) (hbrace : '{' ∉ t) (hat : '@' ∉ t) :
      Writes (.text (String.ofList t)) (.text t)
  | escaped {e : Expr} {s : List Char} (h : e.PrintsInline s) : Writes (.escaped e) (.escaped s)
  | raw {e : Expr} {s : List Char} (h : e.PrintsInline s) : Writes (.raw e) (.raw s)
  | ifOpen {e : Expr} {s : List Char} (h : e.PrintsInline s) (hwords : Keyword.Absent s) :
    Writes (.ifOpen e) (.ifOpen s)
  | elseIf {e : Expr} {s : List Char} (h : e.PrintsInline s) (hwords : Keyword.Absent s) :
    Writes (.elseIf e) (.elseIf s)
  | elseMark : Writes .elseMark .elseMark
  | endIf : Writes .endIf .endIf
  | forOpen {header : LoopHeader} {s : List Char} (h : header.PrintsInline s)
    (hwords : Keyword.Absent s) :
    Writes (.forOpen header) (.forOpen s)
  | endFor : Writes .endFor .endFor
  | eachOpen {collection : Expr} {names : List String} {s t : List Char}
    (h : collection.PrintsInline s)
    (ht : EachHeader.Binds names t) (hlen : names.length ≤ EachHeader.maxNames) :
    Writes (.eachOpen collection names) (.eachOpen (EachHeader.chars s t))
  | endEach : Writes .endEach .endEach

/-- The texts of marks, of which no two neighbours are texts themselves. -/
def Mark.Prints (ms : List Mark) (text : String) : Prop :=
  ∃ ds, List.Forall₂ Mark.Writes ms ds ∧ ds.IsChain Directive.Apart ∧
    text.toList = ds.flatMap Directive.chars

/-! ### What is written is read -/

namespace Expr.PrintsInline

variable {e : Expr} {s : List Char}

theorem parse_eq (h : e.PrintsInline s) : Expr.parse (String.ofList s) = .ok e :=
  Expr.parse_of_prints h.printable (by rw [Expr.Prints, String.toList_ofList]; exact h.lays)

/-- A text of an expression is not blank, and so it is read. -/
theorem interpolation_eq (h : e.PrintsInline s) : Nesting.interpolation s = .ok e := by
  have hled := Grammar.led_lexemes e
  obtain ⟨c, cs, rfl⟩ := List.exists_cons_of_ne_nil (hled.ne_nil h.lays)
  have hc : isBlank c = false := hled.stops_isBlank h.lays c rfl
  rw [Nesting.interpolation, if_neg (by simp [hc]), h.parse_eq]

theorem branchTest_eq (h : e.PrintsInline s) (hwords : Keyword.Absent s) :
    Nesting.branchTest s = .ok e := by
  rw [Nesting.branchTest, wordsToOperators_eq_self (by rwa [String.toList_ofList]), h.parse_eq]

theorem isSource (h : e.PrintsInline s) : Directive.IsSource s := ⟨h.noBrace, h.lays.stops_isSpace⟩

end Expr.PrintsInline

namespace LoopHeader.PrintsInline

variable {header : LoopHeader} {s : List Char}

theorem parse_eq (h : header.PrintsInline s) (hwords : Keyword.Absent s) :
    LoopHeader.parse (wordsToOperators (String.ofList s)) = .ok header := by
  rw [wordsToOperators_eq_self (by rwa [String.toList_ofList])]
  refine LoopHeader.parse_of_prints h.printable ?_
  rw [LoopHeader.Prints, String.toList_ofList]
  exact h.lays

theorem isSource (h : header.PrintsInline s) : Directive.IsSource s := by
  obtain ⟨ls, -, hs⟩ := h.lays
  exact ⟨h.noBrace, hs.stops_isSpace⟩

end LoopHeader.PrintsInline

namespace EachHeader

variable {collection : Expr} {names : List String} {s t : List Char}

theorem Binds.not_mem (h : Binds names t) {c : Char} (hspace : c ≠ ' ') (hcomma : c ≠ ',')
    (hpart : Grammar.isIdentPart c = false) : c ∉ t := by
  intro hc
  rcases h.isPrintable c hc with h | h | h
  · exact hspace h
  · exact hcomma h
  · rw [hpart] at h
    cases h

theorem not_mem_chars {c : Char} (hs : c ∉ s) (hword : c ∉ " as ".toList) (ht : c ∉ t) :
    c ∉ chars s t := by
  rw [chars, List.mem_append, List.mem_append, not_or, not_or]
  exact ⟨hs, hword, ht⟩

theorem isSource_chars (h : collection.PrintsInline s) (ht : Binds names t) :
    Directive.IsSource (chars s t) where
  noBrace := not_mem_chars h.noBrace (by decide) (ht.not_mem (by decide) (by decide) (by decide))
  start := by
    obtain ⟨c, cs, rfl⟩ :=
      List.exists_cons_of_ne_nil ((Grammar.led_lexemes collection).ne_nil h.lays)
    exact .cons (h.lays.stops_isSpace c rfl) _

end EachHeader

namespace Mark.Writes

variable {m : Mark} {d : Directive}

/-- A directive is read as the mark for which it is written. -/
theorem means (h : m.Writes d) : m.Means d := by
  cases h with
  | text => exact .text _
  | escaped h => exact .escaped h.interpolation_eq
  | raw h => exact .raw h.interpolation_eq
  | ifOpen h hwords => exact .ifOpen (h.branchTest_eq hwords)
  | elseIf h hwords => exact .elseIf (h.branchTest_eq hwords)
  | elseMark => exact .elseMark
  | endIf => exact .endIf
  | forOpen h hwords => exact .forOpen (h.parse_eq hwords)
  | endFor => exact .endFor
  | eachOpen h ht hlen =>
    exact .eachOpen (EachHeader.parse_chars h.printable h.lays h.noBreak ht hlen)
  | endEach => exact .endEach

theorem clean (h : m.Writes d) : d.Clean := by
  cases h with
  | text hne hbrace => exact ⟨hne, hbrace⟩
  | escaped h => exact h.isSource
  | raw h => exact h.isSource
  | ifOpen h => exact h.isSource
  | elseIf h => exact h.isSource
  | forOpen h => exact h.isSource
  | eachOpen h ht => exact ⟨by simp [EachHeader.chars], EachHeader.isSource_chars h ht⟩
  | elseMark | endIf | endFor | endEach => trivial

theorem noShorthand (h : m.Writes d) : '@' ∉ d.chars := by
  have hbetween {left right : String} {s : List Char} (hl : '@' ∉ left.toList)
    (hr : '@' ∉ right.toList)
      (hs : '@' ∉ s) : '@' ∉ Directive.between left right s := by
    rw [Directive.between, List.mem_append, List.mem_append, not_or, not_or]
    exact ⟨hl, hs, hr⟩
  cases h with
  | text _ _ hat => exact hat
  | escaped h => exact hbetween (by decide) (by decide) h.noShorthand
  | raw h => exact hbetween (by decide) (by decide) h.noShorthand
  | ifOpen h => exact hbetween (by decide) (by decide) h.noShorthand
  | elseIf h => exact hbetween (by decide) (by decide) h.noShorthand
  | forOpen h => exact hbetween (by decide) (by decide) h.noShorthand
  | eachOpen h ht =>
    refine hbetween (by decide) (by decide) (EachHeader.not_mem_chars h.noShorthand (by decide) ?_)
    exact ht.not_mem (by decide) (by decide) (by decide)
  | elseMark | endIf | endFor | endEach => exact hbetween (by decide) (by decide) (by simp)

theorem forall_clean {ms : List Mark} {ds : List Directive} (h : List.Forall₂ Mark.Writes ms ds) :
    ∀ d ∈ ds, d.Clean ∧ '@' ∉ d.chars := by
  induction h with
  | nil => exact List.forall_mem_nil _
  | cons hd _ ih => exact List.forall_mem_cons.2 ⟨⟨hd.clean, hd.noShorthand⟩, ih⟩

end Mark.Writes

/-! ### Templates -/

namespace Template

variable {ms : List Mark} {text : String}

theorem parse_eq_ok_iff (h : Mark.Prints ms text) {t : Template} :
    Template.parse text = .ok t ↔ Segment.marksAll t.segments = ms := by
  obtain ⟨ds, hds, hapart, htext⟩ := h
  have hmeans : List.Forall₂ Mark.Means ms ds := hds.imp fun _ _ => Mark.Writes.means
  have hclean := Mark.Writes.forall_clean hds
  have hat : '@' ∉ text.toList := by
    rw [htext, List.mem_flatMap]
    rintro ⟨d, hd, hm⟩
    exact (hclean d hd).2 hm
  rw [← Segment.ofDirectives_eq_ok_iff hmeans]
  unfold Template.parse
  rw [Shorthand.expand_eq_self hat, htext,
    Directive.scan_flatMap_chars (fun d hd => (hclean d hd).1) hapart]
  cases Segment.ofDirectives ds with
  | ok ss =>
    obtain ⟨ts⟩ := t
    simp [Except.map]
  | error e => simp [Except.map]

/-- The text of a list of segments is read as these segments, and the text of marks is read at all
only if they are the marks of some segments. -/
theorem parse_marks (h : Mark.Prints ms text) :
    (∀ ss, Segment.marksAll ss = ms → Template.parse text = .ok ⟨ss⟩) ∧
      ((∃ t, Template.parse text = .ok t) ↔ ∃ ss, Segment.marksAll ss = ms) := by
  refine ⟨fun ss hss => (parse_eq_ok_iff h).2 hss, ?_, ?_⟩
  · rintro ⟨t, ht⟩
    exact ⟨t.segments, (parse_eq_ok_iff h).1 ht⟩
  · rintro ⟨ss, hss⟩
    exact ⟨⟨ss⟩, (parse_eq_ok_iff h).2 hss⟩

/-- A loop over names with a conditional in it, and an endless loop behind it. -/
theorem parse_marks_rows :
    ∃ ss text,
      ss = [.each (.ident "xs") ["x", "i"] [.text "a",
          .conditional (.ident "x") [.escaped (.ident "i")] (.otherwise [.text "b"])],
        .loop ⟨none, none, none⟩ []] ∧
      text = "\x7b#each xs as x , i\x7da\x7b#if x\x7d\x7b\x7bi\x7d\x7d\x7b#else\x7db\x7b/if\x7d" ++
        "\x7b/each\x7d\x7b#for ; ;\x7d\x7b/for\x7d" ∧
      Mark.Prints (Segment.marksAll ss) text ∧ Template.parse text = .ok ⟨ss⟩ := by
  have hname {x : String} (hx : IsName x) (hinline : '}' ∉ x.toList ∧ '@' ∉ x.toList ∧
    '\n' ∉ x.toList) :
      (Expr.ident x).PrintsInline x.toList :=
    ⟨⟨hinline.1, hinline.2.1, hinline.2.2⟩, hx, .last (.name hx.parts)⟩
  have hlays : Lays [.sign ";", .sign ";"] [';', ' ', ';'] :=
    .cons (w := [';']) (.sign (w := ";") (by decide) (by decide))
      (.last (.sign (w := ";") (by decide) (by decide)))
  have hheader : LoopHeader.PrintsInline ⟨none, none, none⟩ [';', ' ', ';'] :=
    ⟨⟨by decide, by decide, by decide⟩, ⟨by simp, by simp, by simp⟩, _,
      .mk .none .none .none, hlays⟩
  have hbinds : EachHeader.Binds ["x", "i"] ['x', ' ', ',', ' ', 'i'] :=
    .cons (x := "x") (u := [' ']) (v := [' ']) (by decide) (by decide) (by simp) (by simp)
      (.last (x := "i") (by decide) (by decide))
  refine ⟨_, _, rfl, rfl, ?_⟩
  suffices hprints : Mark.Prints _ _ from ⟨hprints, (parse_marks hprints).1 _ rfl⟩
  refine ⟨[.eachOpen (EachHeader.chars ['x', 's'] ['x', ' ', ',', ' ', 'i']), .text ['a'],
    .ifOpen ['x'], .escaped ['i'], .elseMark, .text ['b'], .endIf, .endEach,
    .forOpen [';', ' ', ';'], .endFor], ?_,
    by simp [Directive.Apart, Directive.isText], by rfl⟩
  refine .cons (.eachOpen (hname (x := "xs") (by decide) (by decide)) hbinds (by decide)) ?_
  refine .cons (.text (by decide) (by decide) (by decide)) ?_
  refine .cons (.ifOpen (hname (x := "x") (by decide) (by decide))
    (Keyword.absent_of_not_infix (by decide))) ?_
  refine .cons (.escaped (hname (x := "i") (by decide) (by decide))) (.cons .elseMark ?_)
  refine .cons (.text (by decide) (by decide) (by decide)) (.cons .endIf (.cons .endEach ?_))
  exact .cons (.forOpen hheader (Keyword.absent_of_not_infix (by decide))) (.cons .endFor .nil)

end Template

end LiveMarkup
