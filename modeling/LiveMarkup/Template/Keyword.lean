import LiveMarkup.Text.Scan
import LiveMarkup.Text.WordChar

/-!
# Comparison words

In the headers of conditions and loops a comparison may be written as a word.  `wordsToOperators`
puts the operator in the place of every whole word that is a comparison word, and leaves all other
text alone. A word stands whole if no word character stands right before or right after it.
-/

namespace LiveMarkup

namespace Keyword

/-- The comparison words and their operators, longer words first. -/
def table : List (List Char × List Char) :=
  [("nheq".toList, "!==".toList), ("neq".toList, "!=".toList), ("egt".toList, ">=".toList),
   ("elt".toList, "<=".toList), ("heq".toList, "===".toList), ("eq".toList, "==".toList),
   ("gt".toList, ">".toList), ("lt".toList, "<".toList)]

/-- Whether a text starts with a word character. -/
def startsInWord : List Char → Bool
  | [] => false
  | c :: _ => isWord c

/-- The operator for the word `w` at the head of a text that does not continue it, and the rest. -/
def match? (s : List Char) (entry : List Char × List Char) : Option (List Char × List Char) :=
  match after? entry.1 s with
  | some r => if startsInWord r then none else some (entry.2, r)
  | none => none

/-- The operator for the comparison word at the head of a text, and the rest. -/
def atHead? (s : List Char) : Option (List Char × List Char) :=
  table.findSome? (match? s)

theorem length_lt_of_atHead? {s op r : List Char} (h : atHead? s = some (op, r)) :
    r.length < s.length := by
  obtain ⟨e, he, hm⟩ := List.exists_of_findSome?_eq_some h
  simp only [match?] at hm
  split at hm
  · rename_i r' hr
    split at hm
    · simp at hm
    · simp only [Option.some.injEq, Prod.mk.injEq] at hm
      obtain ⟨-, rfl⟩ := hm
      have hs := after?_eq_some_iff.1 hr
      have hpos : 0 < e.1.length := by
        simp only [table, List.mem_cons, List.not_mem_nil, or_false] at he
        rcases he with rfl | rfl | rfl | rfl | rfl | rfl | rfl | rfl <;> decide
      rw [hs, List.length_append]
      omega
  · simp at hm

/-- The text with its comparison words replaced, after a word character or not. -/
def replaceFrom (inWord : Bool) (s : List Char) : List Char :=
  match s with
  | [] => []
  | c :: cs =>
    if inWord then c :: replaceFrom (isWord c) cs
    else
      match _h : atHead? (c :: cs) with
      | some (op, r) => op ++ replaceFrom true r
      | none => c :: replaceFrom (isWord c) cs
termination_by s.length
decreasing_by
  · simp
  · exact length_lt_of_atHead? _h
  · simp

end Keyword

/-- The text with its comparison words replaced by their operators. -/
def wordsToOperators (s : String) : String :=
  String.ofList (Keyword.replaceFrom false s.toList)

end LiveMarkup
