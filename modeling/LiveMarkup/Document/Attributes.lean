import LiveMarkup.Markup.Node

/-!
# Attribute lists

Attributes stand in the order in which they were written, and a name may occur twice.  `get?` reads
the first attribute of a name, `put` changes the first one or adds one at the end, and `drop`
removes the first one.
-/

namespace LiveMarkup

namespace Attributes

/-- The value of the first attribute with a name. -/
def get? (name : String) : List Attr → Option String
  | [] => none
  | a :: as => if a.name = name then some a.value else get? name as

/-- The attributes with a value stored under a name. -/
def put (name value : String) : List Attr → List Attr
  | [] => [⟨name, value⟩]
  | a :: as => if a.name = name then ⟨a.name, value⟩ :: as else a :: put name value as

/-- The attributes without the first one of a name. -/
def drop (name : String) : List Attr → List Attr
  | [] => []
  | a :: as => if a.name = name then as else a :: drop name as

theorem get?_put_self (name value : String) (as : List Attr) :
    get? name (put name value as) = some value := by
  induction as with
  | nil => simp [put, get?]
  | cons a as ih => by_cases h : a.name = name <;> simp [put, get?, h, ih]

theorem get?_put_ne {name other : String} (h : other ≠ name) (value : String) (as : List Attr) :
    get? other (put name value as) = get? other as := by
  induction as with
  | nil => simp [put, get?, Ne.symm h]
  | cons a as ih =>
    by_cases ha : a.name = name
    · have hne : ¬ a.name = other := fun e => h (e.symm.trans ha)
      simp [put, get?, ha, Ne.symm h]
    · rw [put, if_neg ha, get?, get?, ih]

end Attributes

end LiveMarkup
