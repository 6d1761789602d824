import LiveMarkup.Eval.Expr
import Mathlib.Order.Compare
import Mathlib.Data.String.Basic

/-!
# Comparing values

Coercing equality is meant as a list of arms, each of which answers or coerces one operand and
compares again (`Value.looseArm`).  The operands that are left to coerce get fewer with each arm
that does not answer, so every comparison ends, and it ends with the answer of `Value.looseEq`
(`Value.looseAnswer_iff`).  Both equalities are symmetric, and the strict one implies the other.
The order of two values is turned round when the values change sides (`Value.compare?_swap`):
numbers are ordered like their parts, texts linearly.  So the operators on values are coherent
(`Value.comparisons_coherent`).
-/

namespace LiveMarkup

/-! ### Numbers and texts -/

open Float.Model in
/-- The parts of two numbers are in the opposite order when they change sides. -/
theorem compareParts_swap (a b : UnpackedFloat) :
    b.compare a = (a.compare b).map Ordering.swap := by
  cases a with
  | notANumber => cases b <;> rfl
  | infinity s =>
    cases b with
    | infinity t => cases s <;> cases t <;> rfl
    | _ => cases s <;> rfl
  | zero s =>
    cases b with
    | infinity t => cases t <;> rfl
    | finite t m e => cases t <;> rfl
    | _ => rfl
  | finite s m e =>
    cases b with
    | infinity t => cases t <;> rfl
    | notANumber => rfl
    | zero t => cases s <;> rfl
    | finite t n f =>
      have hswap : (compare f e).then (compare n m) = ((compare e f).then (compare m n)).swap := by
        rw [Ordering.swap_then, Int.compare_swap, Nat.compare_swap]
      cases s with
      | positive =>
        cases t with
        | positive => exact congrArg some hswap
        | negative => rfl
      | negative =>
        cases t with
        | positive => rfl
        | negative => exact congrArg (fun o => some o.swap) hswap

theorem float_lt_iff {x y : Float} :
    x < y ↔ x.toModel.unpack.compare y.toModel.unpack = some .lt := by
  show decide (x.toModel < y.toModel) = true ↔ _
  rw [decide_eq_true_iff]
  exact beq_iff_eq

theorem float_beq_iff {x y : Float} :
    (x == y) = true ↔ x.toModel.unpack.compare y.toModel.unpack = some .eq := by
  show (x.toModel.unpack.compare y.toModel.unpack == some Ordering.eq) = true ↔ _
  exact beq_iff_eq

theorem float_beq_comm (x y : Float) : (x == y) = (y == x) := by
  rw [Bool.eq_iff_iff, float_beq_iff, float_beq_iff, compareParts_swap]
  rcases x.toModel.unpack.compare y.toModel.unpack with _ | _ | _ | _ <;> simp

namespace Value

/-- Numbers are ordered like their parts. -/
theorem compareNumbers?_eq (x y : Float) :
    compareNumbers? x y = x.toModel.unpack.compare y.toModel.unpack := by
  have hgt : y < x ↔ x.toModel.unpack.compare y.toModel.unpack = some .gt := by
    rw [float_lt_iff, compareParts_swap]
    rcases x.toModel.unpack.compare y.toModel.unpack with _ | _ | _ | _ <;> simp
  simp only [compareNumbers?, float_lt_iff, hgt, float_beq_iff]
  rcases x.toModel.unpack.compare y.toModel.unpack with _ | _ | _ | _ <;> rfl

theorem compareNumbers?_swap (x y : Float) :
    compareNumbers? y x = (compareNumbers? x y).map Ordering.swap := by
  rw [compareNumbers?_eq, compareNumbers?_eq, compareParts_swap]

theorem compareTexts_swap (s t : String) : compareTexts t s = (compareTexts s t).swap := by
  unfold compareTexts
  rcases lt_trichotomy s t with h | rfl | h
  · rw [if_neg h.not_gt, if_pos h, if_pos h]
    rfl
  · rw [if_neg (lt_irrefl s), if_neg (lt_irrefl s)]
    rfl
  · rw [if_pos h, if_neg h.not_gt, if_pos h]
    rfl

/-- The order of two values is turned round when they change sides. -/
theorem compare?_swap (h : Heap) (a b : Value) :
    b.compare? h a = (a.compare? h b).map Ordering.swap := by
  unfold compare?
  generalize a.toPrimitive h = p
  generalize b.toPrimitive h = q
  cases p with
  | string s =>
    cases q with
    | string t => exact congrArg some (compareTexts_swap s t)
    | _ => exact compareNumbers?_swap _ _
  | _ => cases q <;> exact compareNumbers?_swap _ _

/-! ### Strict equality -/

theorem strictEq_comm (a b : Value) : a.strictEq b = b.strictEq a := by
  cases a with
  | number x =>
    cases b with
    | number y => exact float_beq_comm x y
    | _ => rfl
  | _ => cases b <;> first | rfl | exact Bool.beq_comm

/-! ### Coercing equality, arm by arm -/

/-- What one arm of coercing equality makes of two values: an answer, or two values that are
compared in their place. -/
def looseArm (h : Heap) (a b : Value) : Bool ⊕ Value × Value :=
  if a.isNullish || b.isNullish then .inl (a.isNullish && b.isNullish)
  else
    match a, b with
    | bool x, b => .inr (number ((bool x).toNumber h), b)
    | a, bool y => .inr (a, number ((bool y).toNumber h))
    | number x, string s => .inl ((number x).toNumber h == (string s).toNumber h)
    | string s, number x => .inl ((string s).toNumber h == (number x).toNumber h)
    | a, b =>
      if a.isPrimitive != b.isPrimitive then .inr (a.toPrimitive h, b.toPrimitive h) else
        .inl (a.strictEq b)

/-- The answer that is reached by one arm after the other. -/
inductive LooseAnswer (h : Heap) : Value → Value → Bool → Prop
  | answer {a b : Value} {r : Bool} (harm : looseArm h a b = .inl r) : LooseAnswer h a b r
  | coerce {a b a' b' : Value} {r : Bool} (harm : looseArm h a b = .inr (a', b'))
    (hrest : LooseAnswer h a' b' r) :
      LooseAnswer h a b r

/-- How often a value is coerced at most before it is compared. -/
def coercions : Value → Nat
  | bool _ | array _ | object _ | function _ => 1
  | _ => 0

theorem coercions_toPrimitive (h : Heap) (v : Value) :
    (v.toPrimitive h).coercions ≤ v.coercions := by
  cases v <;> simp [toPrimitive, isPrimitive, coercions]

theorem coercions_toPrimitive_of_not {h : Heap} {v : Value} (hv : v.isPrimitive = false) :
    (v.toPrimitive h).coercions < v.coercions := by
  cases v <;> simp_all [toPrimitive, isPrimitive, coercions]

/-- An arm that does not answer leaves less to coerce. -/
theorem coercions_lt_of_looseArm {h : Heap} {a b a' b' : Value}
    (harm : looseArm h a b = .inr (a', b')) :
    a'.coercions + b'.coercions < a.coercions + b.coercions := by
  unfold looseArm at harm
  split at harm
  · cases harm
  · split at harm
    · cases harm
      simp [coercions]
    · cases harm
      simp [coercions]
    · cases harm
    · cases harm
    · split at harm
      · rename_i hne
        cases harm
        have ha := coercions_toPrimitive h a
        have hb := coercions_toPrimitive h b
        cases hpa : a.isPrimitive with
        | false => exact Nat.add_lt_add_of_lt_of_le (coercions_toPrimitive_of_not hpa) hb
        | true =>
          have hpb : b.isPrimitive = false := by simpa [hpa] using hne
          exact Nat.add_lt_add_of_le_of_lt ha (coercions_toPrimitive_of_not hpb)
      · cases harm

/-- The answer is that of the arm, or of the comparison that it goes on with. -/
theorem looseEq_of_looseArm (h : Heap) (a b : Value) :
    a.looseEq h b = match looseArm h a b with
      | .inl r => r
      | .inr (a', b') => a'.looseEq h b' := by
  cases a <;> cases b <;> rfl

/-- Arm by arm one answer is reached, that of coercing equality. -/
theorem looseAnswer_iff {h : Heap} {a b : Value} {r : Bool} :
    LooseAnswer h a b r ↔ a.looseEq h b = r := by
  constructor
  · intro hr
    induction hr with
    | answer harm => rw [looseEq_of_looseArm, harm]
    | coerce harm _ ih =>
      rw [looseEq_of_looseArm, harm]
      exact ih
  · rintro rfl
    induction hn : a.coercions + b.coercions using Nat.strongRecOn generalizing a b with
    | _ n ih =>
      rw [looseEq_of_looseArm]
      rcases harm : looseArm h a b with r | ⟨a', b'⟩
      · exact .answer harm
      · exact .coerce harm (ih _ (hn ▸ coercions_lt_of_looseArm harm) rfl)

theorem mixedEq_comm (a b : Value) : a.mixedEq b = b.mixedEq a := by
  have hs := strictEq_comm a b
  cases a <;> cases b <;> first | exact hs | exact float_beq_comm _ _

theorem looseEq_comm (h : Heap) (a b : Value) : a.looseEq h b = b.looseEq h a := by
  unfold looseEq
  dsimp only
  rw [Bool.or_comm, Bool.and_comm, mixedEq_comm a.boolToNumber,
    mixedEq_comm (a.boolToNumber.toPrimitive h), Bool.beq_comm (a := a.boolToNumber.isPrimitive)]

theorem looseEq_of_strictEq {h : Heap} {a b : Value} (hab : a.strictEq b = true) :
    a.looseEq h b = true := by
  cases a with
  | bool x =>
    cases b with
    | bool y =>
      have hxy : x = y := beq_iff_eq.1 hab
      subst hxy
      cases x with
      | false => exact (by decide : ((0.0 : Float) == 0.0) = true)
      | true => exact (by decide : ((1.0 : Float) == 1.0) = true)
    | _ => cases hab
  | _ => cases b <;> first | exact hab | cases hab

/-! ### Operators -/

variable (h : Heap) (a b : Value)

/-- Coercing equality ends on all values and is symmetric; so is strict equality, which implies it;
and the order of two values is turned round with them, so that the operators that compare agree with
each other. -/
theorem comparisons_coherent :
    (∀ r, LooseAnswer h a b r ↔ a.looseEq h b = r) ∧
    a.looseEq h b = b.looseEq h a ∧
    a.strictEq b = b.strictEq a ∧
    (a.strictEq b = true → a.looseEq h b = true ∧ b.looseEq h a = true) ∧
    b.compare? h a = (a.compare? h b).map Ordering.swap ∧
    BinaryOp.lt.apply h a b = BinaryOp.gt.apply h b a ∧
    BinaryOp.le.apply h a b = BinaryOp.ge.apply h b a ∧
    ¬(BinaryOp.lt.apply h a b = .bool true ∧ BinaryOp.gt.apply h a b = .bool true) ∧
    (BinaryOp.le.apply h a b = .bool true ↔ a.compare? h b = some .lt ∨
      a.compare? h b = some .eq) := by
  have hswap := compare?_swap h a b
  refine ⟨fun r => looseAnswer_iff, looseEq_comm h a b, strictEq_comm a b, fun hab => ?_, hswap, ?_⟩
  · have hloose : a.looseEq h b = true := looseEq_of_strictEq hab
    exact ⟨hloose, looseEq_comm h a b ▸ hloose⟩
  · simp only [BinaryOp.apply, hswap]
    rcases a.compare? h b with _ | _ | _ | _ <;> simp

/-- An array that holds itself equals itself, and no coercion goes round in it. -/
theorem comparisons_coherent_loop :
    let h : Heap := ⟨#[#[array 0, null]], #[]⟩
    LooseAnswer h (bool false) (array 0) ((bool false).looseEq h (array 0)) ∧
      (array 0).strictEq (array 0) = true ∧ (array 0).looseEq h (array 0) = true := by
  intro h
  obtain ⟨hends, -⟩ := comparisons_coherent h (bool false) (array 0)
  obtain ⟨-, -, -, hloose, -⟩ := comparisons_coherent h (array 0) (array 0)
  exact ⟨(hends _).2 rfl, rfl, (hloose rfl).1⟩

end Value

end LiveMarkup
