import LiveMarkup.Markup.Entity

/-!
# A table of character references

`EntityCodec.common` reads numeric references and the named references in `Reference.names`.  A
reference has to end with a semicolon, and text that is no known reference stays as it is.  The
tests and the examples run with it; what is proved of markup in general is proved of every codec.
-/

namespace LiveMarkup

namespace Reference

/-- The named references. -/
def names : List (List Char × Char) :=
  [("amp".toList, '&'), ("AMP".toList, '&'), ("lt".toList, '<'), ("LT".toList, '<'),
   ("Lt".toList, '≪'), ("gt".toList, '>'), ("quot".toList, '"'), ("apos".toList, '\''),
   ("nbsp".toList, '\u00a0'), ("copy".toList, '©'), ("reg".toList, '®'), ("hellip".toList, '…'),
   ("mdash".toList, '—'), ("eacute".toList, 'é'), ("Eacute".toList, 'É'), ("euro".toList, '€')]

/-- The value of a hexadecimal digit. -/
def hexDigit? (c : Char) : Option Nat :=
  if '0' ≤ c ∧ c ≤ '9' then some (c.toNat - '0'.toNat)
  else if 'a' ≤ c ∧ c ≤ 'f' then some (c.toNat - 'a'.toNat + 10)
  else if 'A' ≤ c ∧ c ≤ 'F' then some (c.toNat - 'A'.toNat + 10)
  else none

/-- The value of a decimal digit. -/
def decimalDigit? (c : Char) : Option Nat :=
  if '0' ≤ c ∧ c ≤ '9' then some (c.toNat - '0'.toNat) else none

/-- The number after one more digit to a base, unless it is greater than every code point. -/
def shift? (base n d : Nat) : Option Nat :=
  if base * n + d ≤ 0x10FFFF then some (base * n + d) else none

/-- The code point that digits to a base denote; at least one digit is needed. -/
def number? (base : Nat) (digit? : Char → Option Nat) : List Char → Option Nat
  | [] => none
  | cs => cs.foldlM (fun n c => (digit? c).bind (shift? base n)) 0

/-- The character with a code point, unless it is a control character other than a line or tab
control. -/
def char? (n : Nat) : Option Char :=
  if n.isValidChar ∧ (0x20 ≤ n ∨ n = 0x09 ∨ n = 0x0A ∨ n = 0x0C ∨ n = 0x0D) then some (Char.ofNat n)
  else none

/-- The character that the body of a reference denotes. -/
def denoted? (body : List Char) : Option Char :=
  match body with
  | '#' :: 'x' :: ds => (number? 16 hexDigit? ds).bind char?
  | '#' :: 'X' :: ds => (number? 16 hexDigit? ds).bind char?
  | '#' :: ds => (number? 10 decimalDigit? ds).bind char?
  | _ => names.lookup body

/-- Characters that may stand in the body of a reference. -/
def isBody (c : Char) : Bool := c != '&' && c != ';'

/-- Text with its references replaced by the characters that they denote. -/
def decode (s : List Char) : List Char :=
  match s with
  | [] => []
  | c :: cs =>
    if c = '&' then
      match _h : cs.dropWhile isBody with
      | ';' :: r =>
        match denoted? (cs.takeWhile isBody) with
        | some d => d :: decode r
        | none => '&' :: (cs.takeWhile isBody ++ ';' :: decode r)
      | r => '&' :: (cs.takeWhile isBody ++ decode r)
    else c :: decode cs
termination_by s.length
decreasing_by
  all_goals
    have hs := (List.dropWhile_suffix (l := cs) isBody).length_le
    simp_all only [List.length_cons]
    omega

theorem decode_nil : decode [] = [] := by rw [decode]

theorem decode_cons {c : Char} (s : List Char) (h : c ≠ '&') : decode (c :: s) = c :: decode s := by
  rw [decode, if_neg h]

/-- A reference is read as its character. -/
theorem decode_body (body : List Char) {d : Char} (hbody : body.all isBody = true)
    (hd : denoted? body = some d) (s : List Char) :
    decode ('&' :: (body ++ ';' :: s)) = d :: decode s := by
  have hend : isBody ';' = false := by decide
  rw [List.all_eq_true] at hbody
  have htake : (body ++ ';' :: s).takeWhile isBody = body := by
    rw [List.takeWhile_append_of_pos hbody, List.takeWhile_cons_of_neg (by simp [hend]),
      List.append_nil]
  have hdrop : (body ++ ';' :: s).dropWhile isBody = ';' :: s := by
    rw [List.dropWhile_append_of_pos hbody, List.dropWhile_cons_of_neg (by simp [hend])]
  rw [decode, if_pos rfl, htake, hd]
  split
  · rename_i r h
    rw [hdrop] at h
    cases h
    rfl
  · rename_i h
    exact absurd hdrop (h s)

theorem decode_reference {c : Char} {w : List Char} (s : List Char)
    (h : (c, w) ∈ Entity.references) :
    decode (w ++ s) = c :: decode s := by
  simp only [Entity.references, List.mem_cons, List.not_mem_nil, Prod.mk.injEq, or_false] at h
  rcases h with ⟨rfl, rfl⟩ | ⟨rfl, rfl⟩ | ⟨rfl, rfl⟩ | ⟨rfl, rfl⟩ | ⟨rfl, rfl⟩
  · exact decode_body "amp".toList (by decide) (by decide) s
  · exact decode_body "lt".toList (by decide) (by decide) s
  · exact decode_body "gt".toList (by decide) (by decide) s
  · exact decode_body "quot".toList (by decide) (by decide) s
  · exact decode_body "#039".toList (by decide) (by decide) s

end Reference

/-- The codec that knows numeric references and the named references in common use. -/
@[reducible] def EntityCodec.common : EntityCodec where
  decode := Reference.decode
  encodeText s := s.flatMap Entity.encodeTextChar
  encodeAttribute s := s.flatMap Entity.encodeAttributeChar
  encodeText_eq _ := rfl
  encodeAttribute_eq _ := rfl
  decode_nil := Reference.decode_nil
  decode_cons := Reference.decode_cons
  decode_reference := Reference.decode_reference

end LiveMarkup
