import LiveMarkup.Template.Directive
import LiveMarkup.Template.EachHeader
import LiveMarkup.Template.Keyword
import LiveMarkup.Template.Shorthand

/-!
# Templates

A template is a list of segments: literal text, interpolations and blocks.  `Template.parse` writes
out the event shorthands, cuts the source into directives and puts the blocks together.
`Nesting.step` takes one directive; it keeps the segments of the innermost open block and, for every
open block, the segments that came before it.  The first thing that is wrong, from left to right, is
reported.
-/

namespace LiveMarkup

mutual

inductive Segment where
  | text (t : String)
  /-- An interpolation with escaping. -/
  | escaped (e : Expr)
  /-- An interpolation without escaping. -/
  | raw (e : Expr)
  | conditional (test : Expr) (body : List Segment) (more : Alternatives)
  | loop (header : LoopHeader) (body : List Segment)
  | each (collection : Expr) (names : List String) (body : List Segment)

/-- What follows the first branch of a conditional. -/
inductive Alternatives where
  | done
  | otherwise (body : List Segment)
  | elseIf (test : Expr) (body : List Segment) (more : Alternatives)

end

instance : Inhabited Segment := ⟨.text ""⟩

/-! ### Putting blocks together -/

/-- A block that is still open. -/
inductive OpenBlock where
  /-- A conditional in the branch of `test`, after complete branches, the last one first. -/
  | branch (complete : List (Expr × List Segment)) (test : Expr)
  /-- A conditional in its last branch, after the last tested one and complete branches before
  that. -/
  | otherwise (complete : List (Expr × List Segment)) (test : Expr) (body : List Segment)
  | loop (header : LoopHeader)
  | each (collection : Expr) (names : List String)

/-- How error messages name an open block. -/
def OpenBlock.marker : OpenBlock → String
  | branch .. | otherwise .. => "\x7b#if\x7d"
  | loop _ => "\x7b#for\x7d"
  | each .. => "\x7b#each\x7d"

/-- The conditional whose last tested branch is given, with complete branches before it. -/
def Segment.ofBranches (test : Expr) (body : List Segment) (more : Alternatives) :
    List (Expr × List Segment) → Segment
  | [] => .conditional test body more
  | (test', body') :: complete => ofBranches test' body' (.elseIf test body more) complete

/-- The segments read so far: those of the innermost open block, and for each open block, innermost
first, the segments before it.  Segments stand in reverse. -/
structure Nesting where
  current : List Segment
  opened : List (OpenBlock × List Segment)

namespace Nesting

def start : Nesting := ⟨[], []⟩

/-- One more segment in the innermost block. -/
def push (n : Nesting) (s : Segment) : Nesting := { n with current := s :: n.current }

/-- A new innermost block. -/
def enter (n : Nesting) (b : OpenBlock) : Nesting := ⟨[], (b, n.current) :: n.opened⟩

/-- What is wrong with a closing or branch marker that does not fit the innermost block. -/
def misfit (n : Nesting) (d : Directive) : TemplateError :=
  match n.opened with
  | [] => .strayMarker d.marker
  | (b, _) :: _ => .misplacedMarker d.marker b.marker

/-- The expression of an interpolation; nothing stands for `undefined`. -/
def interpolation (source : List Char) : Except TemplateError Expr :=
  if source.all isBlank then .ok (.literal .undefined) else Expr.parse (String.ofList source)

/-- The test of a branch, in which comparisons may be words. -/
def branchTest (source : List Char) : Except TemplateError Expr :=
  Expr.parse (wordsToOperators (String.ofList source))

/-- The nesting after one more directive. -/
def step (n : Nesting) (d : Directive) : Except TemplateError Nesting :=
  match d with
  | .text t => .ok (n.push (.text (String.ofList t)))
  | .escaped source => (interpolation source).map fun e => n.push (.escaped e)
  | .raw source => (interpolation source).map fun e => n.push (.raw e)
  | .ifOpen source => (branchTest source).map fun e => n.enter (.branch [] e)
  | .forOpen source =>
    (LoopHeader.parse (wordsToOperators (String.ofList source))).map fun h => n.enter (.loop h)
  | .eachOpen source => (EachHeader.parse source).map fun cn => n.enter (.each cn.1 cn.2)
  | .elseIf source =>
    match n.opened with
    | (.branch complete test, outer) :: opened =>
      (branchTest source).map fun e =>
        ⟨[], (.branch ((test, n.current.reverse) :: complete) e, outer) :: opened⟩
    | _ => .error (n.misfit d)
  | .elseMark =>
    match n.opened with
    | (.branch complete test, outer) :: opened =>
      .ok ⟨[], (.otherwise complete test n.current.reverse, outer) :: opened⟩
    | _ => .error (n.misfit d)
  | .endIf =>
    match n.opened with
    | (.branch complete test, outer) :: opened =>
      .ok ⟨Segment.ofBranches test n.current.reverse .done complete :: outer, opened⟩
    | (.otherwise complete test body, outer) :: opened =>
      .ok ⟨Segment.ofBranches test body (.otherwise n.current.reverse) complete :: outer, opened⟩
    | _ => .error (n.misfit d)
  | .endFor =>
    match n.opened with
    | (.loop header, outer) :: opened => .ok ⟨.loop header n.current.reverse :: outer, opened⟩
    | _ => .error (n.misfit d)
  | .endEach =>
    match n.opened with
    | (.each collection names, outer) :: opened =>
      .ok ⟨.each collection names n.current.reverse :: outer, opened⟩
    | _ => .error (n.misfit d)

/-- The segments, once every block is closed. -/
def finish (n : Nesting) : Except TemplateError (List Segment) :=
  match n.opened with
  | [] => .ok n.current.reverse
  | (b, _) :: _ => .error (.unclosedBlock b.marker)

end Nesting

/-- The segments that directives make up. -/
def Segment.ofDirectives (ds : List Directive) : Except TemplateError (List Segment) :=
  match ds.foldlM Nesting.step Nesting.start with
  | .ok n => n.finish
  | .error e => .error e

/-- A template that has been read. -/
structure Template where
  segments : List Segment

/-- The template that a source denotes. -/
def Template.parse (source : String) : Except TemplateError Template :=
  (Segment.ofDirectives (Directive.scan (Shorthand.expand source.toList))).map Template.mk

end LiveMarkup
