/-!
# Ordered entries

A list of named values in the order in which the names were first given.  `get?` reads a name and
`put` stores under one: a name that is present keeps its place, a new one goes last.
-/

namespace LiveMarkup

/-- Named values in order. -/
abbrev Entries (α : Type) := List (String × α)

namespace Entries

variable {α : Type}

/-- The value under a name. -/
def get? (name : String) : Entries α → Option α
  | [] => none
  | (k, v) :: es => if k = name then some v else get? name es

/-- The entries with `v` stored under `name`. -/
def put (name : String) (v : α) : Entries α → Entries α
  | [] => [(name, v)]
  | (k, w) :: es => if k = name then (k, v) :: es else (k, w) :: put name v es

/-- The names in order. -/
def keys (es : Entries α) : List String := es.map Prod.fst

/-- Entries given one after the other. -/
def ofList (kvs : List (String × α)) : Entries α :=
  kvs.foldl (fun es kv => put kv.1 kv.2 es) []

theorem get?_put_self (name : String) (v : α) (es : Entries α) :
    get? name (put name v es) = some v := by
  induction es with
  | nil => simp [put, get?]
  | cons e es ih =>
    obtain ⟨k, w⟩ := e
    by_cases h : k = name <;> simp [put, get?, h, ih]

theorem get?_put_ne {name other : String} (h : other ≠ name) (v : α) (es : Entries α) :
    get? other (put name v es) = get? other es := by
  induction es with
  | nil => simp [put, get?, Ne.symm h]
  | cons e es ih =>
    obtain ⟨k, w⟩ := e
    by_cases hk : k = name
    · subst hk
      simp [put, get?, Ne.symm h]
    · rw [put, if_neg hk, get?, get?, ih]

/-- A new name goes last, one that is present changes nothing in the order. -/
theorem keys_put (name : String) (v : α) (es : Entries α) :
    keys (put name v es) = if name ∈ keys es then keys es else keys es ++ [name] := by
  induction es with
  | nil => simp [put, keys]
  | cons e es ih =>
    obtain ⟨k, w⟩ := e
    simp only [keys] at ih
    by_cases hk : k = name
    · simp [put, keys, hk]
    · by_cases hm : name ∈ List.map Prod.fst es <;> simp [put, keys, hk, Ne.symm hk, ih, hm]

end Entries

end LiveMarkup
