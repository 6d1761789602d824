import LiveMarkup.Proofs.Eval.Property
import Mathlib.Data.List.Forall2

/-!
# The characters of a text in templates

In an expression the length of a text counts units of 16 bits while an index counts characters, so
the two go together exactly in texts without characters beyond U+FFFF (`indices_spell_text_iff`).
In any text an index finds the character there or, behind the last one, `undefined`; the indices
below the length find all characters and then `undefined` once for each character that takes two
units.
-/

namespace LiveMarkup

/-- What an index finds in a text. -/
def Value.charAt (s : String) (i : Nat) : Value :=
  match s.toList[i]? with
  | some c => .string c.toString
  | none => .undefined

/-! ### Properties of a text -/

section Property

variable {h : Heap} {s : String} {i : Nat}

theorem charAt_of_lt (hi : i < s.toList.length) :
    Value.charAt s i = .string (s.toList[i]).toString := by
  rw [Value.charAt, List.getElem?_eq_getElem hi]

theorem charAt_of_le (hi : s.length ≤ i) : Value.charAt s i = .undefined := by
  rw [Value.charAt, List.getElem?_eq_none (by rwa [String.length_toList])]

theorem exists_charAt_iff : (∃ t, Value.charAt s i = .string t) ↔ i < s.length := by
  refine ⟨fun ⟨t, ht⟩ => ?_, fun hi => ⟨_, charAt_of_lt (by rwa [String.length_toList])⟩⟩
  by_contra hi
  rw [charAt_of_le (by omega)] at ht
  cases ht

/-- A key that is a number finds the character at that index. -/
theorem property_string_numberText (hs : s.length ≤ indexBound) {x : Float}
    (hx : (Binary.ofFloat x).rat? = some (i : ℚ)) :
    property h (.string s) (numberText x) = .ok (.charAt s i) := by
  have hne : numberText x ≠ "length" := by
    intro he
    have hl := isDigit_or_of_mem_numberText hx (c := 'l') (by rw [he]; decide)
    exact absurd hl (by decide)
  unfold property
  dsimp only
  rw [if_neg hne, readIndex?_numberText hx]
  split_ifs with hi
  · rw [Option.bind_some, charAt?_eq, Value.charAt]
    cases s.toList[i]? <;> rfl
  · rw [charAt_of_le (by omega)]
    rfl

theorem length_le_units16 (s : String) : s.length ≤ units16 s := by
  rw [units16_eq, ← String.length_toList]
  exact length_le_totalSize charUnits_pos s.toList

/-- The length counts characters exactly if all of them take one unit. -/
theorem units16_eq_length_iff : units16 s = s.length ↔ ∀ c ∈ s.toList, c.toNat < 0x10000 := by
  rw [units16_eq, ← String.length_toList, totalSize_eq_length_iff charUnits_pos]
  simp only [charUnits_eq_one_iff]

theorem Value.text_string (h : Heap) (s : String) : (Value.string s).text h = s :=
  text_plain nofun

/-- What is added to a text is put behind it as it is displayed. -/
theorem Value.add_string (h : Heap) (s : String) (v : Value) :
    (Value.string s).add h v = .string (s ++ v.text h) := by
  cases v <;> simp [Value.add, Value.toPrimitive, Value.isPrimitive, Value.text_string]

/-- The characters of a text, each at its index, make up the text. -/
theorem join_charAt (h : Heap) (s : String) :
    String.join ((List.range s.length).map fun i => (Value.charAt s i).text h) = s := by
  have hchars :
    ((List.range s.length).map fun i => (Value.charAt s i).text h) =
      s.toList.map Char.toString := by
    refine List.ext_getElem (by simp [String.length_toList]) fun i hi _ => ?_
    rw [List.length_map, List.length_range, ← String.length_toList] at hi
    rw [List.getElem_map, List.getElem_map, List.getElem_range, charAt_of_lt hi, Value.text_string]
  have hjoin (cs : List Char) : String.join (cs.map Char.toString) = String.ofList cs := by
    induction cs with
    | nil => rfl
    | cons c cs ih => simp [ih, String.ofList_cons]
  rw [hchars, hjoin, String.ofList_toList]

/-- Behind the characters of a text stands `undefined` for each further index. -/
theorem join_charAt_add (h : Heap) (s : String) (n : Nat) :
    String.join ((List.range (s.length + n)).map fun i => (Value.charAt s i).text h) =
      s ++ String.join (List.replicate n "undefined") := by
  have hrest :
    ((List.range n).map fun i => (Value.charAt s (s.length + i)).text h) =
      List.replicate n "undefined" := by
    refine List.eq_replicate_iff.2 ⟨by simp, fun t ht => ?_⟩
    obtain ⟨i, -, rfl⟩ := List.mem_map.1 ht
    rw [charAt_of_le (Nat.le_add_right _ _)]
    exact Value.text_plain nofun
  rw [List.range_add, List.map_append, String.join_append, join_charAt, List.map_map]
  exact congrArg (fun ts => s ++ String.join ts) hrest

theorem append_undefined_eq_iff {n : Nat} :
    s ++ String.join (List.replicate n "undefined") = s ↔ n = 0 := by
  cases n with
  | zero => simp
  | succ n =>
    refine iff_of_false (fun hs => ?_) (Nat.succ_ne_zero n)
    have hlength := congrArg String.length hs
    rw [List.replicate_succ, String.join_cons, String.length_append, String.length_append,
      show "undefined".length = 9 by decide] at hlength
    omega

end Property

/-! ### Characters put together -/

namespace Expr

variable {σ : Type}

/-- An expression that has a value and changes nothing. -/
def Yields (env : Env σ) (scope : Scope) (w : World σ) (e : Expr) (v : Value) : Prop :=
  e.eval env scope w = (.ok v, w)

/-- An expression for an index: its value is the number, and it changes nothing. -/
def Counts (env : Env σ) (scope : Scope) (w : World σ) (e : Expr) (i : Nat) : Prop :=
  ∃ x, e.Yields env scope w (.number x) ∧ (Binary.ofFloat x).rat? = some (i : ℚ)

/-- Expressions added from left to right, and the empty text if there are none. -/
def joined : List Expr → Expr
  | [] => .literal (.string "")
  | e :: es => es.foldl (.binary .add) e

variable {env : Env σ} {scope : Scope} {w : World σ} {e : Expr} {es : List Expr} {t : String}
  {vs : List Value}

theorem yields_foldl_add (he : e.Yields env scope w (.string t))
    (hes : List.Forall₂ (Yields env scope w) es vs) :
    (es.foldl (.binary .add) e).Yields env scope w
    (.string (t ++ String.join (vs.map fun v => v.text w.heap))) := by
  induction hes generalizing e t with
  | nil => simpa using he
  | @cons e' v es vs he' _ ih =>
    have hadd : (binary .add e e').Yields env scope w (.string (t ++ v.text w.heap)) := by
      unfold Yields
      rw [Expr.eval, Run.bind_eq_of_ok he, Run.bind_eq_of_ok he', Run.read_bind, BinaryOp.apply,
        Value.add_string]
      rfl
    have hall := ih hadd
    rw [List.map_cons, String.join_cons, ← String.append_assoc]
    exact hall

/-- Texts and other values behind a first text are put together. -/
theorem yields_joined (hes : List.Forall₂ (Yields env scope w) es vs)
    (hfirst : ∀ v ∈ vs.head?, ∃ t, v = .string t) :
    (joined es).Yields env scope w (.string (String.join (vs.map fun v => v.text w.heap))) := by
  cases hes with
  | nil => rfl
  | @cons e v es vs he hes =>
    obtain ⟨t, rfl⟩ := hfirst v rfl
    have hall := yields_foldl_add he hes
    rw [List.map_cons, String.join_cons, Value.text_string]
    exact hall

theorem counts_literal {i : Nat} (hi : i < 2) :
    (literal (.number (Float.ofNat i))).Counts env scope w i := by
  obtain rfl | rfl : i = 0 ∨ i = 1 := by omega
  · have hzero : Binary.ofFloat (Float.ofNat 0) = .finite false 0 (-1074) := by decide
    refine ⟨_, rfl, ?_⟩
    rw [hzero]
    simp [Binary.rat?]
  · have hone : Binary.ofFloat (Float.ofNat 1) = .finite false (Nat.pow 2 52) (-52) := by decide
    exact ⟨_, rfl, Binary.rat?_eq_some_natCast_iff.2 ⟨_, _, _, hone, by decide, by decide⟩⟩

/-- An index finds the character there. -/
theorem yields_index {object key : Expr} {s : String} {i : Nat} (hs : s.length ≤ indexBound)
    (ho : object.Yields env scope w (.string s)) (hk : key.Counts env scope w i) :
    (index object key).Yields env scope w (.charAt s i) := by
  obtain ⟨x, hx, hi⟩ := hk
  have htext : (Value.number x).text w.heap = numberText x := Value.text_plain nofun
  have haccess : (index object key).Accesses env scope w (.string s) (numberText x) w :=
    .index ho hx htext
  unfold Yields
  rw [haccess.eval_eq, property_string_numberText hs hi]
  rfl

/-- The indices from zero on, joined, give the characters and `undefined` behind them. -/
theorem yields_joined_index {object : Expr} {key : Nat → Expr} {s : String} {n : Nat}
    (hs : s.length ≤ indexBound) (hn : s = "" → n = 0) (ho : object.Yields env scope w (.string s))
    (hk : ∀ i < s.length + n, (key i).Counts env scope w i) :
    (joined ((List.range (s.length + n)).map fun i => index object (key i))).Yields env scope w
      (.string (s ++ String.join (List.replicate n "undefined"))) := by
  have hes : List.Forall₂ (Yields env scope w) ((List.range (s.length + n)).map fun i =>
    index object (key i))
      ((List.range (s.length + n)).map (Value.charAt s)) := by
    rw [List.forall₂_map_left_iff, List.forall₂_map_right_iff, List.forall₂_same]
    exact fun i hi => yields_index hs ho (hk i (List.mem_range.1 hi))
  have hfirst : ∀ v ∈ ((List.range (s.length + n)).map (Value.charAt s)).head?, ∃ t,
    v = .string t := by
    intro v hv
    by_cases hempty : s = ""
    · rw [hn hempty, hempty] at hv
      cases hv
    · have hpos : 0 < s.length := by
        rw [← String.length_toList, List.length_pos_iff]
        exact fun hnil => hempty (String.toList_eq_nil_iff.1 hnil)
      rw [List.head?_map, List.head?_range, if_neg (by omega)] at hv
      obtain rfl := Option.some_inj.1 hv
      exact exists_charAt_iff.2 hpos
  have hall := yields_joined hes hfirst
  rw [List.map_map] at hall
  rw [← join_charAt_add w.heap s n]
  exact hall

end Expr

/-- In every expression the length of a text counts units, and an index finds the character at it
or, behind the last one, `undefined`.  The values at the indices below the length, put together with
`+`, give the text and `undefined` once for each character of two units.  So below the length there
is a character at every index, and together they give the text, exactly if no character takes two
units.  Texts in memory are shorter than the bound on indices. -/
theorem indices_spell_text_iff {σ : Type} (s : String) (hs : s.length ≤ indexBound) :
    (∀ (env : Env σ) scope w w' e, Expr.Accesses env scope w (.string s) "length" w' e →
      e.eval env scope w = (.ok (.ofNat (units16 s)), w')) ∧
    (∀ (env : Env σ) scope w w' e x i, (Binary.ofFloat x).rat? = some ((i : Nat) : ℚ) →
      Expr.Accesses env scope w (.string s) (numberText x) w' e →
      e.eval env scope w = (.ok (.charAt s i), w')) ∧
    (∀ i, units16 s ≤ i → Value.charAt s i = .undefined) ∧
    (∀ (env : Env σ) scope w (object : Expr) (key : Nat → Expr),
      object.Yields env scope w (.string s) →
      (∀ i < units16 s, (key i).Counts env scope w i) →
      (Expr.joined ((List.range (units16 s)).map fun i => .index object (key i))).Yields env scope w
        (.string (s ++ String.join (List.replicate (units16 s - s.length) "undefined")))) ∧
    ((∀ i < units16 s, ∃ t, Value.charAt s i = .string t) ↔ ∀ c ∈ s.toList, c.toNat < 0x10000) ∧
    (s ++ String.join (List.replicate (units16 s - s.length) "undefined") = s ↔
      ∀ c ∈ s.toList, c.toNat < 0x10000) := by
  have hle := length_le_units16 s
  refine ⟨fun env scope w w' e ha => ?_, fun env scope w w' e x i hx ha => ?_, fun i hi =>
    ?_, ?_, ?_, ?_⟩
  · rw [ha.eval_eq]
    rfl
  · rw [ha.eval_eq, property_string_numberText hs hx]
    rfl
  · exact charAt_of_le (by omega)
  · intro env scope w object key ho hk
    obtain ⟨n, hn⟩ := Nat.exists_eq_add_of_le hle
    rw [hn] at hk ⊢
    rw [Nat.add_sub_cancel_left]
    refine Expr.yields_joined_index hs ?_ ho hk
    rintro rfl
    rw [show units16 "" = 0 by decide, String.length_empty] at hn
    omega
  · rw [← units16_eq_length_iff]
    simp only [exists_charAt_iff]
    refine ⟨fun hall => ?_, fun heq i hi => heq ▸ hi⟩
    by_contra hne
    exact absurd (hall s.length (by omega)) (Nat.lt_irrefl _)
  · rw [← units16_eq_length_iff, append_undefined_eq_iff]
    omega

theorem indices_spell_text_iff_accent :
    let env : Env Nat :=
      ⟨⟨fun _ _ _ w => (.error .bound, w), 0⟩, ⟨escapeHtml, 0⟩, [("s", .string "né")]⟩
    let w : World Nat := ⟨⟨#[], #[]⟩, 0⟩
    let key (i : Nat) : Expr := .literal (.number (Float.ofNat i))
    "né".length ≤ indexBound ∧
      (Expr.binary .add (.index (.ident "s") (key 0)) (.index (.ident "s") (key 1))).Yields env
        .empty w
        (.string "né") := by
  intro env w key
  have hs : "né".length ≤ indexBound := by decide +kernel
  have hunits : units16 "né" = 2 := by
    rw [units16_eq]
    decide
  have hkey : ∀ i < units16 "né", (key i).Counts env .empty w i := by
    rw [hunits]
    exact fun i hi => Expr.counts_literal hi
  have hjoined := (indices_spell_text_iff "né" hs).2.2.2.1 env .empty w (.ident "s") key rfl hkey
  rw [hunits] at hjoined
  exact ⟨hs, hjoined⟩

/-- A text of one character that takes two units: at the last index below its length nothing is
found. -/
theorem indices_overrun_emoji :
    let env : Env Nat :=
      ⟨⟨fun _ _ _ w => (.error .bound, w), 0⟩, ⟨escapeHtml, 0⟩, [("s", .string "😀")]⟩
    let w : World Nat := ⟨⟨#[], #[]⟩, 0⟩
    let length : Expr := .member (.ident "s") "length"
    let last : Expr :=
      .index (.ident "s") (.binary .sub length (.literal (.number (Float.ofNat 1))))
    let key (i : Nat) : Expr := .literal (.number (Float.ofNat i))
    length.Yields env .empty w (.ofNat 2) ∧
      (Expr.binary .strictNe last (.literal .undefined)).Yields env .empty w (.bool false) ∧
      (Expr.binary .add (.index (.ident "s") (key 0)) (.index (.ident "s") (key 1))).Yields env
        .empty w
        (.string "😀undefined") := by
  intro env w length last key
  have hs : "😀".length ≤ indexBound := by decide +kernel
  have hunits : units16 "😀" = 2 := by
    rw [units16_eq]
    decide
  have htext : (Expr.ident "s").Yields env .empty w (.string "😀") := rfl
  have hlength : length.Yields env .empty w (.ofNat 2) := by
    rw [← hunits]
    exact Expr.Accesses.eval_eq (.member htext)
  refine ⟨hlength, ?_, ?_⟩
  · have hindex :
      (Expr.binary .sub length (.literal (.number (Float.ofNat 1)))).Counts env .empty w 1 := by
      have hone :
        Binary.ofFloat (Float.ofNat 2 - Float.ofNat 1) = .finite false (Nat.pow 2 52) (-52) := by
          decide
      refine ⟨_, ?_, Binary.rat?_eq_some_natCast_iff.2 ⟨_, _, _, hone, by decide, by decide⟩⟩
      unfold Expr.Yields
      rw [Expr.eval, Run.bind_eq_of_ok hlength]
      rfl
    have hlast := Expr.yields_index hs htext hindex
    unfold Expr.Yields at hlast ⊢
    rw [Expr.eval, Run.bind_eq_of_ok hlast]
    rfl
  · exact Expr.yields_joined_index (n := 1) hs (by decide) htext
      fun i hi => Expr.counts_literal hi

end LiveMarkup
