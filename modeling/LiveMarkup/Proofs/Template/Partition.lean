import LiveMarkup.Proofs.Template.Bound
import LiveMarkup.Proofs.Template.Scan
import Mathlib.Data.List.Infix

/-!
# A template as the spans of its directives

Each piece of a template that is cut off by `Directive.scan` covers a `Span` of the text.  The spans
make up the whole text (`Span.Partition`): a directive stands on what is read as this directive
there, text stands where no directive is recognised at any character, and no two texts are
neighbours.  A text has one partition only, and its pieces are what the scan gives
(`Directive.scan_partition`).  So a template in which no directive is recognised is written out as
it stands.
-/

namespace LiveMarkup

/-! ### Where a rule can read -/

namespace Rule

variable {α β : Type} {p q : Rule α} {c : Char}

/-- Whether a rule reads nothing off a text that begins with another character. -/
def Needs (p : Rule α) (c : Char) : Prop := ∀ s a r, p.read s = .ok a r → s.head? = some c

theorem needs_token {w : String} (hw : w.toList.head? = some c) : (token w).Needs c := by
  intro s _ r h
  rw [read_token_eq_ok_iff.1 h, List.head?_append, hw, Option.some_or]

theorem Needs.bind {f : α → Rule β} (h : p.Needs c) : (p >>= f).Needs c := by
  intro s b r hb
  obtain ⟨a, t, ha, -⟩ := read_bind_eq_ok_iff.1 hb
  exact h s a t ha

theorem Needs.orElse (hp : p.Needs c) (hq : q.Needs c) : (orElse p q).Needs c := by
  intro s a r h
  simp only [Rule.orElse] at h
  split at h
  · exact hq s a r h
  · exact hp s a r h

end Rule

namespace Directive

open Rule

variable {s r t : List Char} {d : Directive} {c : Char}

/-- Whether a directive is recognised where a text begins. -/
def Starts (s : List Char) : Prop := ∃ d r, directive.read s = .ok d r

instance : DecidablePred Starts := fun s =>
  match h : directive.read s with
  | .ok d r => .isTrue ⟨d, r, h⟩
  | .error _ => .isFalse fun ⟨_, _, h'⟩ => by
    rw [h] at h'
    cases h'
  | .failure _ => .isFalse fun ⟨_, _, h'⟩ => by
    rw [h] at h'
    cases h'

theorem needs_directive : directive.Needs '{' := by
  have token {w : String} (hw : w.toList.head? = some '{') : (token w).Needs '{' := needs_token hw
  refine .orElse (token rfl).bind
    (.orElse (token rfl).bind.bind (.orElse (token rfl).bind.bind.bind ?_))
  refine .orElse (token rfl).bind (.orElse (token rfl).bind (.orElse (token rfl).bind.bind ?_))
  refine .orElse (token rfl).bind (.orElse (token rfl).bind.bind (.orElse (token rfl).bind ?_))
  exact (token rfl).bind.bind

/-- What is recognised is not text. -/
theorem yields_directive : directive.Yields fun d => d.isText = false := by
  have marker {p : Rule (List Char)} {f : List Char → Directive} (hf : ∀ s, (f s).isText = false) :
      (p >>= fun s => pure (f s)).Yields fun d => d.isText = false := .bind_right fun s =>
      yields_pure (hf s)
  have mark {w : String} {d : Directive} (hd : d.isText = false) : (tokenAs w d).Yields fun d =>
    d.isText = false :=
    .bind_right fun _ => yields_pure hd
  refine .orElse (.bind_right fun _ => marker fun _ => rfl) (.orElse (marker fun _ => rfl) ?_)
  refine .orElse (marker fun _ => rfl) ?_
  refine .orElse (mark rfl)
    (.orElse (mark rfl) (.orElse (marker fun _ => rfl) (.orElse (mark rfl) ?_)))
  exact .orElse (marker fun _ => rfl) (.orElse (mark rfl) (marker fun _ => rfl))

/-! ### The scan, character by character -/

/-- A directive that is recognised is a piece. -/
theorem scan_of_read_eq_ok (h : directive.read s = .ok d r) : scan s = d :: scan r := by
  obtain ⟨cs, rfl⟩ := List.head?_eq_some_iff.1 (needs_directive s d r h)
  exact scan_of_read h

/-- A character where no directive is recognised is text. -/
theorem scan_cons_of_not_starts (h : ¬Starts (c :: s)) : scan (c :: s) = consText [c] (scan s) := by
  by_cases hc : c = '{'
  · rw [scan, if_pos hc]
    split
    · rename_i d r hread
      exact absurd ⟨d, r, hread⟩ h
    · rfl
  · exact scan_append (List.cons_ne_nil c []) (by simpa using Ne.symm hc) s

/-- Whether no directive is recognised in a text, given the text behind it. -/
def Unrecognised (t rest : List Char) : Prop := ∀ u v, t = u ++ v → v ≠ [] → ¬Starts (v ++ rest)

theorem unrecognised_cons_iff : Unrecognised (c :: t) r ↔ ¬Starts (c :: (t ++ r)) ∧
    Unrecognised t r := by
  constructor
  · intro h
    refine ⟨h [] (c :: t) rfl (List.cons_ne_nil c t), fun u v ht => h (c :: u) v ?_⟩
    rw [ht, List.cons_append]
  · rintro ⟨hc, ht⟩ u v huv hv
    cases u with
    | nil =>
      rw [List.nil_append] at huv
      rw [← huv]
      exact hc
    | cons d u => exact ht u v (List.cons.inj huv).2 hv

theorem scan_append_of_unrecognised (hne : t ≠ []) (h : Unrecognised t r) :
    scan (t ++ r) = consText t (scan r) := by
  induction t with
  | nil => exact absurd rfl hne
  | cons c t ih =>
    obtain ⟨hc, ht⟩ := unrecognised_cons_iff.1 h
    rw [List.cons_append, scan_cons_of_not_starts hc]
    cases t with
    | nil => rfl
    | cons d t => rw [ih (List.cons_ne_nil d t) ht, consText_consText, List.singleton_append]

end Directive

/-! ### Spans -/

/-- A stretch of a template and the directive that it is taken for. -/
structure Span where
  chars : List Char
  token : Directive

namespace Span

open Directive

variable {s r r' : List Char} {p q : Span} {ps qs : List Span} {d : Directive} {c : Char}

/-- Whether a span stands in front of a text: it is text in which no directive is recognised, or it
is a directive that is recognised where it begins and that ends where the span ends. -/
inductive IsAt : Span → List Char → Prop
  | text {t rest : List Char} (hne : t ≠ []) (ht : Unrecognised t rest) : IsAt ⟨t, .text t⟩ rest
  | mark {s rest : List Char} {d : Directive} (h : directive.read (s ++ rest) = .ok d rest) :
      IsAt ⟨s, d⟩ rest

/-- Whether spans stand one behind the other up to the end of a text. -/
def AllAt : List Span → Prop
  | [] => True
  | p :: ps => p.IsAt (ps.flatMap chars) ∧ AllAt ps

/-- Whether spans make up a text. -/
structure Partition (s : List Char) (ps : List Span) : Prop where
  join : ps.flatMap chars = s
  spans : AllAt ps
  apart : (ps.map token).IsChain Apart

/-- The pieces of a text are the tokens of its spans. -/
theorem Partition.map_token (h : Partition s ps) : ps.map token = scan s := by
  obtain ⟨rfl, hspans, hapart⟩ := h
  induction ps with
  | nil => rw [List.map_nil, List.flatMap_nil, scan]
  | cons p ps ih =>
    obtain ⟨hp, hps⟩ := hspans
    rw [List.map_cons] at hapart ⊢
    rw [List.flatMap_cons]
    cases hp with
    | text hne ht =>
      rw [scan_append_of_unrecognised hne ht, ← ih hps hapart.tail, consText_of_isChain hapart]
    | mark hread => rw [scan_of_read_eq_ok hread, ih hps hapart.tail]

/-- The token of a span tells the span from others at the same place. -/
theorem IsAt.unique (hp : p.IsAt r) (hq : q.IsAt r') (hs : p.chars ++ r = q.chars ++ r')
    (htoken : p.token = q.token) :
    p = q ∧ r = r' := by
  cases hp with
  | text =>
    cases hq with
    | text =>
      cases htoken
      exact ⟨rfl, List.append_cancel_left hs⟩
    | mark hread =>
      cases htoken
      cases yields_directive _ _ _ hread
  | mark hread =>
    cases hq with
    | text =>
      cases htoken
      cases yields_directive _ _ _ hread
    | mark hread' =>
      cases htoken
      dsimp only at hs
      rw [hs, hread'] at hread
      cases hread
      rw [List.append_cancel_right hs]
      exact ⟨rfl, rfl⟩

theorem Partition.unique (h : Partition s ps) (h' : Partition s qs) : ps = qs := by
  have htokens : ps.map token = qs.map token := h.map_token.trans h'.map_token.symm
  induction ps generalizing s qs with
  | nil => exact (List.map_eq_nil_iff.1 htokens.symm).symm
  | cons p ps ih =>
    cases qs with
    | nil => cases htokens
    | cons q qs =>
      rw [List.map_cons, List.map_cons, List.cons.injEq] at htokens
      have hjoin : p.chars ++ ps.flatMap chars = q.chars ++ qs.flatMap chars :=
        h.join.trans h'.join.symm
      obtain ⟨rfl, hrest⟩ := h.spans.1.unique h'.spans.1 hjoin htokens.1
      rw [ih ⟨hrest, h.spans.2, h.apart.tail⟩ ⟨rfl, h'.spans.2, h'.apart.tail⟩ htokens.2]

/-- Spans with one more character of text in front. -/
def consChar (c : Char) : List Span → List Span
  | ⟨s, .text t⟩ :: ps => ⟨c :: s, .text (c :: t)⟩ :: ps
  | ps => ⟨[c], .text [c]⟩ :: ps

theorem consChar_of_isText_eq_false (hd : d.isText = false) (s : List Char) :
    consChar c (⟨s, d⟩ :: ps) = ⟨[c], .text [c]⟩ :: ⟨s, d⟩ :: ps := by
  cases d with
  | text t => cases hd
  | _ => rfl

theorem Partition.consChar (h : Partition s ps) (hc : ¬Starts (c :: s)) :
    Partition (c :: s) (consChar c ps) := by
  obtain ⟨rfl, hspans, hapart⟩ := h
  have hchar : IsAt ⟨[c], .text [c]⟩ (ps.flatMap chars) :=
    .text (List.cons_ne_nil c []) (unrecognised_cons_iff.2 ⟨hc, fun u v huv hv =>
      absurd huv (by simp [hv])⟩)
  cases ps with
  | nil => exact ⟨rfl, ⟨hchar, trivial⟩, .singleton _⟩
  | cons p ps =>
    obtain ⟨hp, hps⟩ := hspans
    cases hp with
    | text hne ht =>
      refine ⟨rfl, ⟨.text (List.cons_ne_nil _ _) (unrecognised_cons_iff.2 ⟨hc, ht⟩), hps⟩, ?_⟩
      exact List.isChain_cons.2 ⟨(List.isChain_cons.1 hapart).1, hapart.tail⟩
    | mark hread =>
      have hd := yields_directive _ _ _ hread
      rw [consChar_of_isText_eq_false hd]
      refine ⟨rfl, ⟨hchar, .mark hread, hps⟩, List.isChain_cons_cons.2 ⟨fun ⟨_, h⟩ => ?_, hapart⟩⟩
      rw [hd] at h
      cases h

/-- A directive stands in front of the spans of the text behind it. -/
theorem Partition.cons_read (h : Partition r ps) (hread : directive.read s = .ok d r) :
    ∃ u, Partition s (⟨u, d⟩ :: ps) := by
  obtain ⟨u, rfl⟩ := directive.rest_suffix hread
  obtain ⟨rfl, hspans, hapart⟩ := h
  refine ⟨u, rfl, ⟨.mark hread, hspans⟩, List.isChain_cons.2 ⟨fun e _ ⟨h, _⟩ => ?_, hapart⟩⟩
  rw [yields_directive _ _ _ hread] at h
  cases h

theorem exists_partition (s : List Char) : ∃ ps, Partition s ps :=
  match s with
  | [] => ⟨[], rfl, trivial, .nil⟩
  | c :: cs => by
    by_cases hc : Starts (c :: cs)
    · obtain ⟨d, r, hread⟩ := hc
      obtain ⟨ps, hps⟩ := exists_partition r
      obtain ⟨u, hu⟩ := hps.cons_read hread
      exact ⟨_, hu⟩
    · obtain ⟨ps, hps⟩ := exists_partition cs
      exact ⟨_, hps.consChar hc⟩
termination_by s.length
decreasing_by
  · exact advances_directive hread
  · exact Nat.lt_succ_self cs.length

end Span

/-! ### Templates without directives -/

namespace Template

/-- Whether a template is just a text: it has at most one segment, and whatever it is rendered
against, it gives the text. -/
structure Literal (t : Template) (s : String) : Prop where
  segments : t.segments = [] ∨ t.segments = [.text s]
  render : ∀ (σ : Type) (env : Env σ) (w : World σ), t.render env w = (.ok s, w)

theorem literal_nil : Literal ⟨[]⟩ "" := by
  refine ⟨.inl rfl, fun σ env w => ?_⟩
  unfold render
  simp only [renderAll]
  rfl

theorem literal_text (s : String) : Literal ⟨[.text s]⟩ s := by
  refine ⟨.inr rfl, fun σ env w => ?_⟩
  have hall : renderAll env [.text s] "" ⟨w, .empty⟩ = (.ok ("" ++ s), ⟨w, .empty⟩) := by
    rw [renderAll]
    refine (Run.bind_eq_of_ok (a := s) (t := (⟨w, .empty⟩ : Rendering σ)) rfl).trans ?_
    rw [renderAll]
    rfl
  unfold render
  simp only [hall, String.empty_append]

/-- A template in which no directive is recognised is just its text. -/
theorem parse_of_not_starts {source : String}
    (h : ∀ v, v <:+ (expandShorthand source).toList → ¬Directive.Starts v) :
    ∃ t, Template.parse source = .ok t ∧ t.Literal (expandShorthand source) := by
  rw [expandShorthand, String.toList_ofList] at h
  unfold Template.parse expandShorthand
  cases he : Shorthand.expand source.toList with
  | nil =>
    rw [Directive.scan]
    exact ⟨⟨[]⟩, rfl, literal_nil⟩
  | cons c cs =>
    rw [he] at h
    have hall : Directive.Unrecognised (c :: cs) [] := by
      intro u v huv _
      rw [List.append_nil]
      exact h v ⟨u, huv.symm⟩
    have hscan : Directive.scan (c :: cs) = [.text (c :: cs)] := by
      have happend := Directive.scan_append_of_unrecognised (List.cons_ne_nil c cs) hall
      rwa [List.append_nil, Directive.scan] at happend
    rw [hscan]
    exact ⟨⟨[.text _]⟩, rfl, literal_text _⟩

end Template

/-- A text is made up of the spans of its pieces in one way only: a span of text is not empty, has
no other text beside it and no place at which a directive is recognised, and any other span is what
is recognised where it begins.  So a template in which no directive is recognised has at most one
segment, and is rendered as it stands. -/
theorem Directive.scan_partition :
    (∀ s, ∃ ps, Span.Partition s ps ∧ ps.map Span.token = scan s ∧
      ∀ qs, Span.Partition s qs → qs = ps) ∧
      ∀ source, (∀ v, v <:+ (expandShorthand source).toList → ¬Starts v) →
        ∃ t, Template.parse source = .ok t ∧ t.Literal (expandShorthand source) := by
  refine ⟨fun s => ?_, fun source => Template.parse_of_not_starts⟩
  obtain ⟨ps, hps⟩ := Span.exists_partition s
  exact ⟨ps, hps, hps.map_token, fun qs hqs => hqs.unique hps⟩

theorem Directive.scan_partition_stray_braces :
    (∀ v, v <:+ (expandShorthand "a \x7b b \x7d \x7b#iffy\x7d @on=\"go\"").toList → ¬Starts v) ∧
      ∃ t, Template.parse "a \x7b b \x7d \x7b#iffy\x7d @on=\"go\"" = .ok t ∧
        t.Literal "a \x7b b \x7d \x7b#iffy\x7d data-event=\"on,go\"" := by
  have hexpand : expandShorthand "a \x7b b \x7d \x7b#iffy\x7d @on=\"go\"" =
      "a \x7b b \x7d \x7b#iffy\x7d data-event=\"on,go\"" := by
    decide +kernel
  have hnot : ∀ v ∈ "a \x7b b \x7d \x7b#iffy\x7d data-event=\"on,go\"".toList.tails, ¬Starts v := by
    decide +kernel
  have h : ∀ v, v <:+ (expandShorthand "a \x7b b \x7d \x7b#iffy\x7d @on=\"go\"").toList →
    ¬Starts v := by
    rw [hexpand]
    exact fun v hv => hnot v ((List.mem_tails _ _).2 hv)
  obtain ⟨t, ht, hliteral⟩ := scan_partition.2 _ h
  exact ⟨h, t, ht, hexpand ▸ hliteral⟩

end LiveMarkup
