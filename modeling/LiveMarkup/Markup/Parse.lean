import LiveMarkup.Markup.Token

/-!
# Reading markup

`Markup.parse` reads a text as a list of nodes.  The tokens are taken one by one; `Elements` keeps
the nodes of the innermost open element and, for every open element, the nodes before it.
Neighbouring texts are one node and empty texts are none.  A closing tag has to name the innermost
open element, and at the end no element may be open.  `Elements.run_cons` says how a text is read,
token by token.
-/

namespace LiveMarkup

variable [EntityCodec]

/-- An element that is still open. -/
structure OpenElement where
  tag : String
  attrs : List Attr

/-- The nodes read so far: those of the innermost open element, and for each open element, innermost
first, the nodes before it.  Nodes stand in reverse. -/
structure Elements where
  current : List Node
  opened : List (OpenElement × List Node)

/-- Nodes in reverse with a text put behind them. -/
def pushText (t : List Char) : List Node → List Node
  | .text u :: ns => if t = [] then .text u :: ns else .text (u ++ String.ofList t) :: ns
  | ns => if t = [] then ns else .text (String.ofList t) :: ns

namespace Elements

def start : Elements := ⟨[], []⟩

/-- The nodes after one more token. -/
def step (e : Elements) : Token → Except MarkupError Elements
  | .skipped | .endless => .ok e
  | .text t => .ok { e with current := pushText t e.current }
  | .leaf n => .ok { e with current := n :: e.current }
  | .opening tag attrs => .ok ⟨[], (⟨tag, attrs⟩, e.current) :: e.opened⟩
  | .closing tag =>
    match e.opened with
    | [] => .error (.strayClose tag)
    | (o, outer) :: opened =>
      if o.tag = tag then .ok ⟨.element o.tag o.attrs e.current.reverse :: outer, opened⟩
      else .error (.mismatchedClose tag o.tag)

/-- The nodes, once every element is closed. -/
def finish (e : Elements) : Except MarkupError (List Node) :=
  match e.opened with
  | [] => .ok e.current.reverse
  | (o, _) :: _ => .error (.unclosed o.tag)

/-- Takes the tokens of a text one after the other; `ends` is false where it is known that no
comment has an end. -/
def run (total : Nat) (ends : Bool) (e : Elements) (s : List Char) :
    Except MarkupError (List Node) :=
  match s with
  | [] => e.finish
  | c :: cs =>
    match _h : Token.next total ends (c :: cs) with
    | .error err => .error err
    | .ok (t, r) =>
      match e.step t with
      | .error err => .error err
      | .ok e' => run total (ends && !t.isEndless) e' r
termination_by s.length
decreasing_by exact Token.length_lt_of_next _h

theorem run_of_none {s : List Char} (h : afterFirst? Token.commentEnd s = none) (total : Nat)
    (ends : Bool) (e : Elements) : run total ends e s = run total false e s := by
  induction hn : s.length using Nat.strongRecOn generalizing s ends e with
  | _ n ih =>
    cases s with
    | nil => simp only [run]
    | cons c cs =>
      rw [run, run, Token.next_of_none h total ends, Token.next_of_none h total false]
      split
      · rfl
      · rename_i t r hr
        split
        · rfl
        · rename_i e' _
          have hlt := Token.length_lt_of_next hr
          exact ih r.length (hn ▸ hlt) (afterFirst?_eq_none_of_suffix h
            (Token.suffix_of_next hr)) _ e' rfl

/-- The first token of a text and what the others make of it. -/
theorem run_cons (total : Nat) (e : Elements) (c : Char) (cs : List Char) :
    run total true e (c :: cs) =
      match Token.next total true (c :: cs) with
      | .error err => .error err
      | .ok (t, r) =>
        match e.step t with
        | .error err => .error err
        | .ok e' => run total true e' r := by
  rw [run]
  split
  · rename_i err h
    rw [h]
  · rename_i t r h
    rw [h]
    dsimp only
    split
    · rfl
    · rename_i e' _
      cases t with
      | endless => exact (run_of_none (Token.none_of_next_endless h) total true e').symm
      | _ => rfl

end Elements

namespace Markup

/-- The nodes that a markup text denotes. -/
def parseChars (s : List Char) : Except MarkupError (List Node) :=
  Elements.start.run (Token.byteLength s) true s

/-- The nodes that a markup text denotes. -/
def parse (s : String) : Except MarkupError (List Node) := parseChars s.toList

end Markup

end LiveMarkup
