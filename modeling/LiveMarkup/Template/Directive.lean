import LiveMarkup.Grammar.Rule

/-!
# Directives

A template is literal text with directives in it: `{{ e }}`, `{#html e}`, and the markers of the
blocks `{#if}`, `{#for}` and `{#each}`.  `Directive.scan` cuts a template into literal runs and
directives.  A brace that starts no directive is literal text, and neighbouring literal text is one
run.
-/

namespace LiveMarkup

/-- A piece of a template: literal text or a directive with the text inside it. -/
inductive Directive where
  | text (t : List Char)
  | escaped (source : List Char)
  | raw (source : List Char)
  | ifOpen (test : List Char)
  | elseIf (test : List Char)
  | elseMark
  | endIf
  | forOpen (header : List Char)
  | endFor
  | eachOpen (header : List Char)
  | endEach
  deriving Repr, DecidableEq

namespace Directive

open Rule

/-- How error messages name a piece. -/
def marker : Directive → String
  | text _ => "text"
  | escaped _ => "\x7b\x7b \x7d\x7d"
  | raw _ => "\x7b#html\x7d"
  | ifOpen _ => "\x7b#if\x7d"
  | elseIf _ => "\x7b#else if\x7d"
  | elseMark => "\x7b#else\x7d"
  | endIf => "\x7b/if\x7d"
  | forOpen _ => "\x7b#for\x7d"
  | endFor => "\x7b/for\x7d"
  | eachOpen _ => "\x7b#each\x7d"
  | endEach => "\x7b/each\x7d"

/-- Characters that may stand inside a directive. -/
def isInner (c : Char) : Bool := c != '}'

/-- The text inside a directive, up to the closing braces `close`, which are read too. -/
def inner (close : String) : Rule (List Char) where
  read s :=
    match after? close.toList (s.dropWhile isInner) with
    | some r => .ok (s.takeWhile isInner) r
    | none => .error s
  rest_suffix h := by
    split at h <;> cases h
    exact (suffix_of_after? ‹_›).trans (List.dropWhile_suffix _)

/-- A directive that opens with a word and spaces and ends with a brace. -/
def worded (word : String) : Rule (List Char) := do
  token word
  spaces1
  inner "\x7d"

/-- A directive that opens with a word and spaces, ends with a brace and has some text inside. -/
def wordedSome (word : String) : Rule (List Char) := do
  token word
  spaces1
  notAhead (token "\x7d")
  inner "\x7d"

/-- The directive at the head of a text. -/
def directive : Rule Directive :=
  firstOf (do token "\x7b\x7b"; let t ← inner "\x7d\x7d"; pure (escaped t))
    [do let t ← worded "\x7b#if"; pure (ifOpen t),
     do let t ← after (before (token "\x7b#else") spaces1) (worded "if"); pure (elseIf t),
     tokenAs "\x7b#else\x7d" elseMark,
     tokenAs "\x7b/if\x7d" endIf,
     do let t ← worded "\x7b#for"; pure (forOpen t),
     tokenAs "\x7b/for\x7d" endFor,
     do let t ← wordedSome "\x7b#each"; pure (eachOpen t),
     tokenAs "\x7b/each\x7d" endEach,
     do let t ← worded "\x7b#html"; pure (raw t)]

theorem advances_directive : directive.Advances := by
  have worded {w : String} (hw : w ≠ "") : (worded w).Advances := (advances_token hw).bind
  have wordedSome {w : String} (hw : w ≠ "") : (wordedSome w).Advances := (advances_token hw).bind
  refine Advances.firstOf (Advances.bind (advances_token (by decide))) ?_
  simp only [List.forall_mem_cons]
  exact ⟨(worded (by decide)).bind,
    Advances.bind (Advances.bind (Advances.bind (advances_token (by decide)))),
    advances_tokenAs (by decide), advances_tokenAs (by decide), (worded (by decide)).bind,
    advances_tokenAs (by decide), (wordedSome (by decide)).bind, advances_tokenAs (by decide),
    (worded (by decide)).bind, fun _ h => absurd h List.not_mem_nil⟩

/-- The pieces with literal text put in front. -/
def consText (t : List Char) : List Directive → List Directive
  | text u :: ds => text (t ++ u) :: ds
  | ds => text t :: ds

/-- The literal runs and directives of a template, in order. -/
def scan (s : List Char) : List Directive :=
  match s with
  | [] => []
  | c :: cs =>
    if c = '{' then
      match _h : directive.read (c :: cs) with
      | .ok d r => d :: scan r
      | _ => consText [c] (scan cs)
    else consText (c :: cs.takeWhile (· != '{')) (scan (cs.dropWhile (· != '{')))
termination_by s.length
decreasing_by
  · exact advances_directive _h
  · simp
  · have := (List.dropWhile_suffix (l := cs) (· != '{')).length_le
    simp only [List.length_cons]
    omega

end Directive

end LiveMarkup
