import LiveMarkup.Value.Basic
import LiveMarkup.Number.Text

/-!
# The text of a value

`Value.text` is how a value reads when it is displayed.  An array is its items joined with commas,
where `null` and `undefined` read as nothing, and so does an array met again inside itself.  The
walk carries the arrays that are open on its path; each step opens one more, so it ends on every
heap.
-/

namespace LiveMarkup

namespace Value

/-- The text of a value that is not an array. -/
def plainText : Value → String
  | undefined => "undefined"
  | null => "null"
  | bool true => "true"
  | bool false => "false"
  | number x => numberText x
  | string s => s
  | array _ => ""
  | object _ => "[object Object]"
  | function _ => "function"

/-- The text of a value met while the arrays `opn` are open. -/
def textWithin (h : Heap) (opn : List ArrayId) : Value → String
  | array r =>
    if _hr : r < h.arrays.size ∧ r ∉ opn then
      ",".intercalate <| (h.items r).toList.map fun v =>
        if v.isNullish then "" else textWithin h (r :: opn) v
    else ""
  | v => v.plainText
termination_by h.closedArrays opn
decreasing_by exact Heap.closedArrays_cons_lt _hr.1 _hr.2

/-- The displayed text of a value. -/
def text (h : Heap) (v : Value) : String := v.textWithin h []

theorem textWithin_array (h : Heap) (opn : List ArrayId) (r : ArrayId) :
    (array r).textWithin h opn =
      if r < h.arrays.size ∧ r ∉ opn then
        ",".intercalate <| (h.items r).toList.map fun v =>
          if v.isNullish then "" else v.textWithin h (r :: opn)
      else "" := by
  rw [textWithin]
  split <;> simp_all

end Value

end LiveMarkup
