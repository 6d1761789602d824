import LiveMarkup.Template.EachHeader
import LiveMarkup.Template.Keyword
import LiveMarkup.Proofs.Expr.Header
import Mathlib.Data.List.TakeWhile

/-!
# Headers of blocks

A text in which no comparison word stands whole is left alone by `wordsToOperators`
(`wordsToOperators_eq_self`).  The header of an each-block is taken apart at its last word `as`,
since none of the names behind it is this word (`EachHeader.split?_eq`), and the names are those
between the commas (`EachHeader.names_eq`).
-/

namespace LiveMarkup

/-! ### Comparison words -/

namespace Keyword

/-- Whether a word stands whole in a text, with no word character right before or right after it. -/
def StandsIn (w s : List Char) : Prop :=
  ∃ a b, s = a ++ (w ++ b) ∧ Stops isWord a.reverse ∧ Stops isWord b

/-- Whether no comparison word stands whole in a text. -/
def Absent (s : List Char) : Prop := ∀ e ∈ table, ¬StandsIn e.1 s

/-- Whether no comparison word stands whole in a text that follows a word character or not. -/
def AbsentFrom (inWord : Bool) (s : List Char) : Prop :=
  ∀ e ∈ table, ∀ a b, s = a ++ (e.1 ++ b) → Stops isWord b →
    (a.reverse.head?.map isWord).getD inWord = true

theorem absent_of_not_infix {s : List Char} (h : ∀ e ∈ table, ¬ e.1 <:+: s) : Absent s := by
  rintro e he ⟨a, b, rfl, -⟩
  exact h e he ⟨a, b, List.append_assoc a e.1 b⟩

theorem Absent.from {s : List Char} (h : Absent s) : AbsentFrom false s := by
  intro e he a b hs hb
  rw [← Bool.not_eq_false]
  intro ha
  refine h e he ⟨a, b, hs, ?_, hb⟩
  intro c hc
  rw [Option.mem_def.1 hc] at ha
  exact ha

theorem AbsentFrom.tail {inWord : Bool} {c : Char} {s : List Char}
    (h : AbsentFrom inWord (c :: s)) :
    AbsentFrom (isWord c) s := by
  intro e he a b hs hb
  have hlast := h e he (c :: a) b (congrArg (c :: ·) hs) hb
  rw [List.reverse_cons, List.head?_append] at hlast
  cases ha : a.reverse.head? with
  | none =>
    rw [ha] at hlast
    exact hlast
  | some d =>
    rw [ha] at hlast
    exact hlast

theorem stops_of_startsInWord {s : List Char} (h : startsInWord s = false) : Stops isWord s := by
  cases s with
  | nil => exact .nil
  | cons c s => exact .cons h s

theorem AbsentFrom.atHead? {s : List Char} (h : AbsentFrom false s) : atHead? s = none := by
  unfold Keyword.atHead?
  rw [List.findSome?_eq_none_iff]
  intro e he
  unfold match?
  split
  · rename_i r hr
    split
    · rfl
    · rename_i hword
      have hs := after?_eq_some_iff.1 hr
      cases h e he [] r hs (stops_of_startsInWord (Bool.eq_false_iff.2 hword))
  · rfl

theorem AbsentFrom.replaceFrom_eq {inWord : Bool} {s : List Char} (h : AbsentFrom inWord s) :
    replaceFrom inWord s = s := by
  induction s generalizing inWord with
  | nil => rw [replaceFrom]
  | cons c s ih =>
    rw [replaceFrom]
    split
    · rw [ih h.tail]
    · rename_i hword
      have hhead : Keyword.atHead? (c :: s) = none := by
        rw [Bool.not_eq_true] at hword
        subst hword
        exact h.atHead?
      split
      · rename_i h'
        rw [hhead] at h'
        cases h'
      · rw [ih h.tail]

end Keyword

/-- A text without comparison words is left alone. -/
theorem wordsToOperators_eq_self {s : String} (h : Keyword.Absent s.toList) :
    wordsToOperators s = s := by
  rw [wordsToOperators, h.from.replaceFrom_eq, String.ofList_toList]

/-! ### Each-blocks -/

namespace EachHeader

/-- The texts of names to bind: identifiers other than `as`, with commas between them and any number
of spaces around the commas. -/
inductive Binds : List String → List Char → Prop
  | last {x : String} (hx : IsIdentifier x) (has : x ≠ "as") : Binds [x] x.toList
  | cons {x : String} {xs : List String} {u v s : List Char} (hx : IsIdentifier x) (has : x ≠ "as")
    (hu : ∀ c ∈ u, c = ' ') (hv : ∀ c ∈ v, c = ' ') (h : Binds xs s) :
    Binds (x :: xs) (x.toList ++ (u ++ ',' :: (v ++ s)))

/-- The texts of headers. -/
def chars (collection bindings : List Char) : List Char := collection ++ (" as ".toList ++ bindings)

variable {x : String} {xs : List String} {s t u : List Char}

theorem Binds.exists_cons (h : Binds xs s) : ∃ c cs, s = c :: cs ∧
    Grammar.isIdentStart c = true := by
  cases h with
  | last hx =>
    obtain ⟨c, cs, hs, hc, -⟩ := hx
    exact ⟨c, cs, hs, hc⟩
  | cons hx =>
    obtain ⟨c, cs, hs, hc, -⟩ := hx
    rw [hs]
    exact ⟨c, _, rfl, hc⟩

theorem Binds.exists_append (h : Binds xs s) : ∃ cs c, s = cs ++ [c] ∧
    Grammar.isIdentPart c = true := by
  induction h with
  | @last x hx =>
    have hne : x.toList ≠ [] := by
      obtain ⟨c, cs, hs, -⟩ := hx
      rw [hs]
      exact List.cons_ne_nil c cs
    exact ⟨_, _, (List.dropLast_concat_getLast hne).symm, hx.isIdentPart _ (List.getLast_mem hne)⟩
  | @cons x xs u v s hx has hu hv h ih =>
    obtain ⟨cs, c, rfl, hc⟩ := ih
    exact ⟨x.toList ++ (u ++ ',' :: (v ++ cs)), c, by simp, hc⟩

theorem Binds.isPrintable (h : Binds xs s) :
    ∀ c ∈ s, c = ' ' ∨ c = ',' ∨ Grammar.isIdentPart c = true := by
  induction h with
  | last hx => exact fun c hc => .inr (.inr (hx.isIdentPart c hc))
  | cons hx has hu hv h ih =>
    intro c hc
    simp only [List.mem_append, List.mem_cons] at hc
    rcases hc with hc | hc | rfl | hc | hc
    · exact .inr (.inr (hx.isIdentPart c hc))
    · exact .inl (hu c hc)
    · exact .inr (.inl rfl)
    · exact .inl (hv c hc)
    · exact ih c hc

/-! ### No word in the bindings -/

/-- Whether no word `as` with something to bind behind it stands in a text, or at its head. -/
structure Quiet (s : List Char) : Prop where
  line : splitLine? s [] = none
  head : afterWord? s [] = none

theorem quiet_nil : Quiet [] := ⟨rfl, rfl⟩

/-- The word is not found in a text without blanks. -/
theorem splitLine?_append (hs : ∀ c ∈ s, isBlank c = false) (ht : splitLine? t [] = none) :
    splitLine? (s ++ t) [] = none := by
  induction s with
  | nil => exact ht
  | cons c s ih =>
    rw [List.forall_mem_cons] at hs
    have hc : ¬c = '\n' := by
      rintro rfl
      exact absurd hs.1 (by decide)
    rw [List.cons_append, splitLine?, if_neg hc, ih hs.2]
    exact if_neg (by simp [hs.1])

theorem Quiet.space (h : Quiet s) : Quiet (' ' :: s) := by
  refine ⟨?_, rfl⟩
  rw [splitLine?, if_neg (by decide), h.line]
  show (if isBlank ' ' then (afterWord? s []).map _ else none) = none
  rw [h.head]
  rfl

theorem Quiet.spaces (h : Quiet s) (hu : ∀ c ∈ u, c = ' ') : Quiet (u ++ s) := by
  induction u with
  | nil => exact h
  | cons c u ih =>
    rw [List.forall_mem_cons] at hu
    rw [hu.1]
    exact (ih hu.2).space

theorem Quiet.comma (h : Quiet s) : Quiet (',' :: s) :=
  ⟨splitLine?_append (s := [',']) (by decide) h.line, rfl⟩

/-- An identifier other than `as` is not this word, and it does not go on with a blank behind
`as`. -/
theorem Quiet.name (h : Quiet s) (hx : IsIdentifier x) (has : x ≠ "as")
    (hs : Stops Grammar.isIdentPart s) :
    Quiet (x.toList ++ s) := by
  refine ⟨splitLine?_append (fun c hc => isBlank_of_isIdentPart (hx.isIdentPart c hc)) h.line, ?_⟩
  rw [afterWord?, Option.bind_eq_none_iff]
  intro r hr
  have hxs := after?_eq_some_iff.1 hr
  cases r with
  | nil => rfl
  | cons c r =>
    have hc : isBlank c = false := by
      have hpart := hx.isIdentPart
      match hlist : x.toList, hxs with
      | [], _ =>
        obtain ⟨d, ds, hd, -⟩ := hx
        rw [hd] at hlist
        cases hlist
      | [d], hxs =>
        simp only [List.cons_append, List.nil_append] at hxs
        cases hxs
        exact absurd (hs 's' rfl) (by decide)
      | [d, e], hxs =>
        simp only [List.cons_append, List.nil_append] at hxs
        cases hxs
        exact absurd (String.toList_inj.1 hlist) has
      | d :: e :: f :: ds, hxs =>
        simp only [List.cons_append] at hxs
        cases hxs
        exact isBlank_of_isIdentPart (hpart c (by simp [hlist]))
    exact if_neg (by simp [hc])

theorem Binds.quiet (h : Binds xs s) : Quiet s := by
  induction h with
  | last hx has => simpa using quiet_nil.name hx has .nil
  | @cons x xs u v s hx has hu hv h ih =>
    refine ((ih.spaces hv).comma.spaces hu).name hx has ?_
    cases u with
    | nil => exact .cons (by decide) _
    | cons c u =>
      rw [hu c List.mem_cons_self]
      exact .cons (by decide) _

/-! ### Taking a header apart -/

/-- The last word with something to bind is the one in front of the bindings. -/
theorem splitLine?_eq (hs : '\n' ∉ s) (ht : Binds xs t) :
    splitLine? (chars s t) [] = some (s, t) := by
  obtain ⟨c, cs, hct, hc⟩ := ht.exists_cons
  have hline : t.all (· != '\n') = true := by
    rw [List.all_eq_true]
    intro d hd
    rw [bne_iff_ne]
    rintro rfl
    rcases ht.isPrintable _ hd with h | h | h <;> exact absurd h (by decide)
  have hdrop : t.dropWhile isBlank = t := by
    rw [hct, List.dropWhile_cons_of_neg (by simp [Grammar.isBlank_of_isIdentStart hc])]
  induction s with
  | nil =>
    have hquiet : splitLine? ('a' :: 's' :: ' ' :: t) [] = none :=
      splitLine?_append (s := ['a', 's']) (by decide) ht.quiet.space.line
    have hword : afterWord? ('a' :: 's' :: ' ' :: t) [] = some t := by
      show (if isBlank ' ' ∧ (t.dropWhile isBlank).all (· != '\n') then
        some (t.dropWhile isBlank) else none) = _
      rw [hdrop, if_pos ⟨by decide, hline⟩]
    show splitLine? (' ' :: 'a' :: 's' :: ' ' :: t) [] = _
    rw [splitLine?, if_neg (by decide), hquiet]
    show (if isBlank ' ' then (afterWord? ('a' :: 's' :: ' ' :: t) []).map _ else none) = _
    rw [hword, if_pos (by decide)]
    rfl
  | cons d s ih =>
    rw [List.mem_cons, not_or] at hs
    show splitLine? (d :: chars s t) [] = _
    rw [splitLine?, if_neg (Ne.symm hs.1), ih hs.2]

/-- A header whose collection starts with no blank is taken apart at the word in front of the
bindings. -/
theorem split?_eq (hne : s ≠ []) (hstart : Stops isBlank s) (hs : '\n' ∉ s) (ht : Binds xs t) :
    split? (chars s t) = some (s, t) := by
  obtain ⟨c, s, rfl⟩ := List.exists_cons_of_ne_nil hne
  obtain ⟨ts, d, hd, hpart⟩ := ht.exists_append
  rw [List.mem_cons, not_or] at hs
  have hc : isBlank c = false := hstart c rfl
  have hfirst : (chars (c :: s) t).dropWhile isBlank = chars (c :: s) t :=
    List.dropWhile_cons_of_neg (by simp [hc])
  have hlead : (chars (c :: s) t).takeWhile isBlank = [] :=
    List.takeWhile_cons_of_neg (by simp [hc])
  have hlast : (chars (c :: s) t).reverse = d :: (chars (c :: s) ts).reverse := by
    simp [chars, hd]
  have hbody : ((chars (c :: s) t).reverse.dropWhile isBlank).reverse = chars (c :: s) t := by
    rw [hlast, List.dropWhile_cons_of_neg (by simp [isBlank_of_isIdentPart hpart]), ← hlast,
      List.reverse_reverse]
  have htrail : ((chars (c :: s) t).reverse.takeWhile isBlank).reverse = [] := by
    rw [hlast, List.takeWhile_cons_of_neg (by simp [isBlank_of_isIdentPart hpart]),
      List.reverse_nil]
  have hcons : chars (c :: s) t = c :: chars s t := rfl
  unfold split?
  simp only [hfirst, hlead, hbody, htrail]
  simp only [hcons, splitLine?_eq hs.2 ht]

/-! ### Names -/

/-- A text between blanks is trimmed to itself. -/
theorem trimChars_eq {v u : List Char} (hv : ∀ c ∈ v, isBlank c = true)
    (hu : ∀ c ∈ u, isBlank c = true) (hs : ∀ c ∈ s, isBlank c = false) :
    trimChars (v ++ (s ++ u)) = s := by
  cases s with
  | nil =>
    have hall : ∀ c ∈ v ++ u, isBlank c = true := by
      intro c hc
      exact (List.mem_append.1 hc).elim (hv c) (hu c)
    have hdrop : (v ++ u).dropWhile isBlank = [] := List.dropWhile_eq_nil_iff.2 hall
    rw [List.nil_append, trimChars, hdrop]
    rfl
  | cons c s =>
    have hdrop : (v ++ (c :: s ++ u)).dropWhile isBlank = c :: s ++ u := by
      rw [List.dropWhile_append_of_pos hv, List.cons_append,
        List.dropWhile_cons_of_neg (by simp [hs c List.mem_cons_self])]
    have hu' : ∀ d ∈ u.reverse, isBlank d = true := fun d hd => hu d (List.mem_reverse.1 hd)
    have hstops : Stops isBlank (c :: s).reverse := by
      intro d hd
      exact hs d (List.mem_reverse.1 (List.mem_of_mem_head? hd))
    rw [trimChars, hdrop, List.reverse_append, hstops.dropWhile_append hu', List.reverse_reverse]

theorem splitOn_of_not_mem {sep : Char} (h : sep ∉ s) : splitOn sep s = [s] := by
  induction s with
  | nil => rfl
  | cons c s ih =>
    rw [List.mem_cons, not_or] at h
    rw [splitOn, ih h.2]
    exact if_neg (Ne.symm h.1)

theorem splitOn_append {sep : Char} (h : sep ∉ s) (t : List Char) :
    splitOn sep (s ++ sep :: t) = s :: splitOn sep t := by
  have hne : splitOn sep t ≠ [] := by
    cases t with
    | nil => simp [splitOn]
    | cons c t =>
      rw [splitOn]
      split
      · simp
      · split <;> simp
  obtain ⟨part, parts, hparts⟩ := List.exists_cons_of_ne_nil hne
  induction s with
  | nil =>
    rw [List.nil_append, splitOn, hparts]
    exact if_pos rfl
  | cons c s ih =>
    rw [List.mem_cons, not_or] at h
    rw [List.cons_append, splitOn, ih h.2]
    exact if_neg (Ne.symm h.1)

theorem stripParens_eq (h : Binds xs s) : stripParens s = s := by
  obtain ⟨c, cs, hcs, hc⟩ := h.exists_cons
  obtain ⟨ds, d, hds, hd⟩ := h.exists_append
  have hparen {c : Char} (hc : Grammar.isIdentPart c = true) : isParen c = false := by
    rw [Bool.eq_false_iff]
    intro hp
    simp only [isParen, Bool.or_eq_true, beq_iff_eq] at hp
    rcases hp with rfl | rfl <;> exact absurd hc (by decide)
  have hfirst : s.dropWhile isParen = s := by
    rw [hcs, List.dropWhile_cons_of_neg (by simp [hparen (isIdentPart_of_isIdentStart hc)])]
  have hlast : s.reverse.dropWhile isParen = s.reverse := by
    rw [hds, List.reverse_append, List.reverse_singleton, List.singleton_append,
      List.dropWhile_cons_of_neg (by simp [hparen hd])]
  rw [stripParens, hfirst, hlast, List.reverse_reverse]

theorem isBlank_of_eq_space {u : List Char} (h : ∀ c ∈ u, c = ' ') : ∀ c ∈ u, isBlank c = true := by
  intro c hc
  rw [h c hc]
  decide

theorem Binds.map_trimChars (h : Binds xs s) {v : List Char} (hv : ∀ c ∈ v, c = ' ') :
    (splitOn ',' (v ++ s)).map trimChars = xs.map String.toList := by
  have hcomma {u : List Char} (hu : ∀ c ∈ u, c = ' ') : ',' ∉ u :=
    fun hm => absurd (hu _ hm) (by decide)
  have hname {x : String} (hx : IsIdentifier x) : ',' ∉ x.toList := fun hm =>
    absurd (hx.isIdentPart _ hm) (by decide)
  have hblank {x : String} (hx : IsIdentifier x) : ∀ c ∈ x.toList, isBlank c = false := fun c hc =>
    isBlank_of_isIdentPart (hx.isIdentPart c hc)
  induction h generalizing v with
  | @last x hx =>
    have hsplit : splitOn ',' (v ++ x.toList) = [v ++ x.toList] :=
      splitOn_of_not_mem (by simp [hcomma hv, hname hx])
    have htrim := trimChars_eq (u := []) (isBlank_of_eq_space hv) (by simp) (hblank hx)
    rw [List.append_nil] at htrim
    rw [hsplit, List.map_singleton, htrim, List.map_singleton]
  | @cons x xs u w s hx has hu hw h ih =>
    have hsplit : splitOn ',' (v ++ (x.toList ++ (u ++ ',' :: (w ++ s)))) =
        (v ++ (x.toList ++ u)) :: splitOn ',' (w ++ s) := by
      rw [← splitOn_append (by simp [hcomma hv, hname hx, hcomma hu])]
      simp
    rw [hsplit, List.map_cons,
      trimChars_eq (isBlank_of_eq_space hv) (isBlank_of_eq_space hu) (hblank hx), ih hw,
      List.map_cons]

theorem names_eq (h : Binds xs s) : names s = xs.map String.toList := by
  rw [names, stripParens_eq h]
  exact h.map_trimChars (v := []) (by simp)

theorem isBindable_toList (hx : IsIdentifier x) : isBindable x.toList = true := by
  obtain ⟨c, cs, hs, hc, hcs⟩ := hx
  rw [hs, isBindable, hc, Bool.true_and, List.all_eq_true]
  intro d hd
  have hpart := hcs d hd
  rw [Grammar.isIdentPart, Bool.or_eq_true] at hpart
  rw [Bool.or_eq_true]
  rcases hpart with hword | hdollar
  · rw [isWord_of_lt (Nat.lt_succ_of_lt (toNat_of_isIdentPart (hcs d hd)).2)]
    exact .inl hword
  · exact .inr hdollar

theorem Binds.isBindable (h : Binds xs s) : ∀ x ∈ xs, EachHeader.isBindable x.toList = true := by
  induction h with
  | last hx => simpa using isBindable_toList hx
  | cons hx _ _ _ _ ih => exact List.forall_mem_cons.2 ⟨isBindable_toList hx, ih⟩

/-- The header of an each-block is read as its collection and its names. -/
theorem parse_chars {e : Expr} (he : e.Printable) (hs : Lexeme.Lays e.lexemes s) (hline : '\n' ∉ s)
    (ht : Binds xs t) (hlen : xs.length ≤ maxNames) : parse (chars s t) = .ok (e, xs) := by
  have hled := Grammar.led_lexemes e
  have hread : Expr.parse (String.ofList s) = .ok e :=
    Expr.parse_of_prints he (by rwa [Expr.Prints, String.toList_ofList])
  have hbindable : (xs.map String.toList).all isBindable = true := by
    rw [List.all_eq_true, List.forall_mem_map]
    exact ht.isBindable
  unfold parse
  simp only [split?_eq (hled.ne_nil hs) (hled.stops_isBlank hs) hline ht, hread, names_eq ht,
    List.length_map]
  rw [if_pos ⟨hlen, hbindable⟩, List.map_map]
  simp [Function.comp_def]

end EachHeader

end LiveMarkup
