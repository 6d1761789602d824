import LiveMarkup.Proofs.Template.Pieces
import Mathlib.Data.List.Chain

/-!
# Cutting a template at its directives

`Directive.chars` is the text of a directive.  A template that consists of clean directives, with no
two runs of text next to each other, is cut at just these directives
(`Directive.scan_flatMap_chars`): a rule before the one for a directive fails on the opening of that
directive, and the rule for it stops at the first closing brace.
-/

namespace LiveMarkup

namespace Directive

open Rule

/-- A text between two others. -/
def between (left right : String) (s : List Char) : List Char := left.toList ++ (s ++ right.toList)

/-- The text of a directive. -/
def chars : Directive → List Char
  | text t => t
  | escaped s => between "\x7b\x7b" "\x7d\x7d" s
  | raw s => between "\x7b#html " "\x7d" s
  | ifOpen s => between "\x7b#if " "\x7d" s
  | elseIf s => between "\x7b#else if " "\x7d" s
  | elseMark => between "\x7b#else" "\x7d" []
  | endIf => between "\x7b/if" "\x7d" []
  | forOpen s => between "\x7b#for " "\x7d" s
  | endFor => between "\x7b/for" "\x7d" []
  | eachOpen s => between "\x7b#each " "\x7d" s
  | endEach => between "\x7b/each" "\x7d" []

def isText : Directive → Bool
  | text _ => true
  | _ => false

/-- Whether a text can stand inside a directive: it holds no closing brace and does not start with a
space. -/
structure IsSource (s : List Char) : Prop where
  noBrace : '}' ∉ s
  start : Stops isSpace s

/-- Whether the text of a directive stands for this directive alone. -/
def Clean : Directive → Prop
  | text t => t ≠ [] ∧ '{' ∉ t
  | escaped s | raw s | ifOpen s | elseIf s | forOpen s => IsSource s
  | eachOpen s => s ≠ [] ∧ IsSource s
  | _ => True

variable {s r : List Char} {d : Directive}

theorem between_append (left right : String) (s r : List Char) :
    between left right s ++ r = left.toList ++ (s ++ (right.toList ++ r)) := by
  rw [between, List.append_assoc, List.append_assoc]

/-- The text inside a directive ends at the closing brace. -/
theorem read_inner (close : String) {cs : List Char} (hclose : close.toList = '}' :: cs)
    (hs : '}' ∉ s) :
    (inner close).read (s ++ (close.toList ++ r)) = .ok s r := by
  have hstops : Stops isInner (close.toList ++ r) := by
    rw [hclose]
    exact .cons (by decide) _
  have hall : ∀ c ∈ s, isInner c = true := by
    intro c hc
    rw [isInner, bne_iff_ne]
    rintro rfl
    exact hs hc
  simp only [inner, hstops.takeWhile_append hall, hstops.dropWhile_append hall,
    after?_eq_some_iff.2 rfl]

/-- A single space in front of the text is skipped. -/
theorem IsSource.read_spaces1 (hs : IsSource s) :
    spaces1.read (' ' :: (s ++ '}' :: r)) = .ok () (s ++ '}' :: r) := by
  have hstops : Stops isSpace (s ++ '}' :: r) := by
    cases s with
    | nil => exact .cons (by decide) r
    | cons c s => exact .cons (hs.start c rfl) _
  exact Rule.read_spaces1 (s := [' ']) hstops (by simp) (by decide)

theorem IsSource.read_worded (hs : IsSource s) (w : String) :
    (worded w).read (w.toList ++ ' ' :: (s ++ '}' :: r)) = .ok s r := by
  refine (read_bind_of_ok (read_token rfl)).trans ((read_bind_of_ok hs.read_spaces1).trans ?_)
  exact read_inner "\x7d" rfl hs.noBrace

theorem IsSource.read_wordedSome (hs : IsSource s) (hne : s ≠ []) (w : String) :
    (wordedSome w).read (w.toList ++ ' ' :: (s ++ '}' :: r)) = .ok s r := by
  obtain ⟨c, s, rfl⟩ := List.exists_cons_of_ne_nil hne
  have hc : '}' ≠ c := by
    rintro rfl
    exact hs.noBrace List.mem_cons_self
  have hnot :
    (notAhead (token "\x7d")).read (c :: s ++ '}' :: r) = .ok () (c :: s ++ '}' :: r) := by
    simp only [notAhead, List.cons_append, read_token_of_ne (w := "\x7d") (d := '}') rfl hc]
  refine (read_bind_of_ok (read_token rfl)).trans ((read_bind_of_ok hs.read_spaces1).trans ?_)
  exact (read_bind_of_ok hnot).trans (read_inner "\x7d" rfl hs.noBrace)

section Skip

variable {α : Type} {f : List Char → Rule α} {g : Unit → Rule α} {q : Rule α} {w : String}

theorem skip_token (h : after? w.toList s = none) :
    (Rule.orElse (token w >>= g) q).read s = q.read s :=
  read_orElse_of_error (read_bind_of_error (read_token_of_none h))

theorem skip_worded (h : after? w.toList s = none) :
    (Rule.orElse (worded w >>= f) q).read s = q.read s :=
  read_orElse_of_error (read_bind_of_error (read_bind_of_error (read_token_of_none h)))

theorem skip_wordedSome (h : after? w.toList s = none) :
    (Rule.orElse (wordedSome w >>= f) q).read s = q.read s :=
  read_orElse_of_error (read_bind_of_error (read_bind_of_error (read_token_of_none h)))

theorem skip_twoWords {p : Rule (List Char)} (h : after? w.toList s = none) :
    (Rule.orElse (after (before (token w) spaces1) p >>= f) q).read s = q.read s :=
  read_orElse_of_error
    (read_bind_of_error (read_bind_of_error (read_bind_of_error (read_token_of_none h))))

/-- A word with no space behind it is not the first of two. -/
theorem skip_twoWords_of_stops {p : Rule (List Char)} {t : List Char} (hs : s = w.toList ++ t)
    (ht : Stops isSpace t) :
    (Rule.orElse (after (before (token w) spaces1) p >>= f) q).read s = q.read s := by
  refine read_orElse_of_error (read_bind_of_error (read_bind_of_error (r := t) ?_))
  exact (read_bind_of_ok (read_token hs)).trans
    (read_bind_of_error (read_bind_of_error (read_one_of_stops ht)))

end Skip

theorem IsSource.read_elseIf (hs : IsSource s) :
    (after (before (token "\x7b#else") spaces1) (worded "if")).read
    ("\x7b#else if ".toList ++ (s ++ '}' :: r)) =
      .ok s r := by
  have hspaces : spaces1.read (' ' :: ("if".toList ++ ' ' :: (s ++ '}' :: r))) =
      .ok () ("if".toList ++ ' ' :: (s ++ '}' :: r)) :=
    Rule.read_spaces1 (s := [' ']) (.cons (by decide) _) (by simp) (by decide)
  refine (read_bind_of_ok (a := ()) ?_).trans (hs.read_worded "if")
  exact (read_bind_of_ok (read_token rfl)).trans ((read_bind_of_ok hspaces).trans rfl)

/-- A directive is read off its text, on which the rules before its own one fail. -/
theorem read_directive (hd : d.Clean) (ht : d.isText = false) (r : List Char) :
    directive.read (d.chars ++ r) = .ok d r := by
  cases d with
  | text t => cases ht
  | escaped s =>
    rw [chars, between_append]
    refine read_orElse_of_ok ((read_bind_of_ok (read_token rfl)).trans ?_)
    exact (read_bind_of_ok (read_inner "\x7d\x7d" rfl hd.noBrace)).trans rfl
  | ifOpen s =>
    rw [chars, between_append]
    refine (skip_token rfl).trans (read_orElse_of_ok ?_)
    exact (read_bind_of_ok (hd.read_worded "\x7b#if")).trans rfl
  | elseIf s =>
    rw [chars, between_append]
    refine (skip_token rfl).trans ((skip_worded rfl).trans (read_orElse_of_ok ?_))
    exact (read_bind_of_ok hd.read_elseIf).trans rfl
  | elseMark =>
    refine (skip_token rfl).trans ((skip_worded rfl).trans ?_)
    refine (skip_twoWords_of_stops (t := '}' :: r) rfl (.cons (by decide) r)).trans
      (read_orElse_of_ok ?_)
    exact (read_bind_of_ok (read_token rfl)).trans rfl
  | endIf =>
    refine (skip_token rfl).trans ((skip_worded rfl).trans ((skip_twoWords rfl).trans ?_))
    refine (skip_token rfl).trans (read_orElse_of_ok ?_)
    exact (read_bind_of_ok (read_token rfl)).trans rfl
  | forOpen s =>
    rw [chars, between_append]
    refine (skip_token rfl).trans ((skip_worded rfl).trans ((skip_twoWords rfl).trans ?_))
    refine (skip_token rfl).trans ((skip_token rfl).trans (read_orElse_of_ok ?_))
    exact (read_bind_of_ok (hd.read_worded "\x7b#for")).trans rfl
  | endFor =>
    refine (skip_token rfl).trans ((skip_worded rfl).trans ((skip_twoWords rfl).trans ?_))
    refine (skip_token rfl).trans
      ((skip_token rfl).trans ((skip_worded rfl).trans (read_orElse_of_ok ?_)))
    exact (read_bind_of_ok (read_token rfl)).trans rfl
  | eachOpen s =>
    rw [chars, between_append]
    refine (skip_token rfl).trans ((skip_worded rfl).trans ((skip_twoWords rfl).trans ?_))
    refine (skip_token rfl).trans ((skip_token rfl).trans ((skip_worded rfl).trans ?_))
    refine (skip_token rfl).trans (read_orElse_of_ok ?_)
    exact (read_bind_of_ok (hd.2.read_wordedSome hd.1 "\x7b#each")).trans rfl
  | endEach =>
    refine (skip_token rfl).trans ((skip_worded rfl).trans ((skip_twoWords rfl).trans ?_))
    refine (skip_token rfl).trans ((skip_token rfl).trans ((skip_worded rfl).trans ?_))
    refine (skip_token rfl).trans ((skip_wordedSome rfl).trans (read_orElse_of_ok ?_))
    exact (read_bind_of_ok (read_token rfl)).trans rfl
  | raw s =>
    rw [chars, between_append]
    refine (skip_token rfl).trans ((skip_worded rfl).trans ((skip_twoWords rfl).trans ?_))
    refine (skip_token rfl).trans ((skip_token rfl).trans ((skip_worded rfl).trans ?_))
    refine (skip_token rfl).trans ((skip_wordedSome rfl).trans ((skip_token rfl).trans ?_))
    exact (read_bind_of_ok (hd.read_worded "\x7b#html")).trans rfl

/-! ### The cut -/

theorem exists_chars_eq_cons (ht : d.isText = false) : ∃ cs, d.chars = '{' :: cs := by
  cases d with
  | text t => cases ht
  | _ => exact ⟨_, rfl⟩

/-- Whether at most one of two directives is text. -/
def Apart (d e : Directive) : Prop := ¬(d.isText = true ∧ e.isText = true)

/-- Text stays a piece of its own in front of another piece. -/
theorem consText_of_isChain {t : List Char} {ds : List Directive}
    (h : (text t :: ds).IsChain Apart) :
    consText t ds = text t :: ds := by
  cases ds with
  | nil => rfl
  | cons d ds =>
    have hd : ¬d.isText = true := fun hd => (List.isChain_cons_cons.1 h).1 ⟨rfl, hd⟩
    cases d with
    | text u => exact absurd rfl hd
    | _ => rfl

/-- The text of clean directives is cut at these directives. -/
theorem scan_flatMap_chars {ds : List Directive} (hclean : ∀ d ∈ ds, d.Clean)
    (hapart : ds.IsChain Apart) :
    scan (ds.flatMap chars) = ds := by
  induction ds with
  | nil =>
    rw [List.flatMap_nil, scan]
  | cons d ds ih =>
    rw [List.forall_mem_cons] at hclean
    have hrest := ih hclean.2 hapart.tail
    rw [List.flatMap_cons]
    by_cases ht : d.isText = false
    · obtain ⟨cs, hcs⟩ := exists_chars_eq_cons ht
      have hread := read_directive hclean.1 ht (ds.flatMap chars)
      rw [hcs, List.cons_append] at hread ⊢
      rw [scan_of_read hread, hrest]
    · cases d with
      | text t =>
        show scan (t ++ _) = _
        rw [scan_append hclean.1.1 hclean.1.2, hrest, consText_of_isChain hapart]
      | _ => exact absurd rfl ht

end Directive

end LiveMarkup
