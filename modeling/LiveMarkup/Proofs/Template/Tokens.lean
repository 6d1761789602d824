import LiveMarkup.Proofs.Expr.Lexeme
import LiveMarkup.Proofs.Template.Words

/-!
# Comparison words among the tokens of a header

The header of a condition or of a loop is a sequence of tokens, in which comparisons may be words
(`HeaderToken`, `HeaderToken.IsHeader`).  Meant is that the comparison words become operators and
every other token stays as it is written (`HeaderToken.target`).  The rewriting looks for whole
words of a text and knows no tokens, so it does this exactly where no comparison word stands whole
in a string literal or between the dollar signs of a name, and no comparison word touches the digits
of a number (`HeaderToken.wordsToOperators_eq_target_iff`).
-/

namespace LiveMarkup

/-! ### Tokens -/

/-- A token of the header of a condition or of a loop, as it is written. -/
inductive HeaderToken where
  | spaces (s : List Char)
  | name (s : String)
  | number (s : List Char)
  /-- A string literal between two quotes. -/
  | quoted (quote : Char) (body : List Char)
  | sign (w : String)
  /-- A comparison word and the operator that is meant by it. -/
  | comparison (word op : List Char)

namespace HeaderToken

/-- The signs of expressions and loop headers. -/
def signs : List String :=
  [".", ",", ":", ";", "?", "(", ")", "[", "]", "!", "+", "-", "*", "/", "%", "<", "<=", ">", ">=",
    "==", "!=", "===", "!==", "&&", "||", "=", "+=", "-=", "*=", "/=", "++", "--"]

/-- The text of a token. -/
def chars : HeaderToken → List Char
  | spaces s => s
  | name s => s.toList
  | number s => s
  | quoted quote body => quote :: (body ++ [quote])
  | sign w => w.toList
  | comparison word _ => word

/-- The text that is meant by a token. -/
def meant : HeaderToken → List Char
  | comparison _ op => op
  | t => t.chars

/-- Whether a token is one of the grammar.  The comparison words are no names. -/
inductive IsToken : HeaderToken → Prop
  | spaces {s : List Char} (hne : s ≠ []) (hs : ∀ c ∈ s, isSpace c = true) : IsToken (spaces s)
  | name {s : String} (hs : IsIdentifier s) (hw : ∀ e ∈ Keyword.table, e.1 ≠ s.toList) :
      IsToken (name s)
  | number {s : List Char} (hs : IsDecimal s) : IsToken (number s)
  | quoted {quote : Char} {body cs : List Char} (hq : quote = '"' ∨ quote = '\'')
    (hbody : Grammar.readStringBody quote (body ++ [quote]) = .ok cs []) :
      IsToken (quoted quote body)
  | sign {w : String} (hw : w ∈ signs) : IsToken (sign w)
  | comparison {word op : List Char} (h : (word, op) ∈ Keyword.table) : IsToken (comparison word op)

/-- Whether a token goes on with every character of a name behind it. -/
def goesOn : HeaderToken → Bool
  | name _ => true
  | number _ => true
  | comparison .. => true
  | _ => false

def isNumber : HeaderToken → Bool
  | number _ => true
  | _ => false

def isComparison : HeaderToken → Bool
  | comparison .. => true
  | _ => false

/-- Whether two tokens may stand next to each other and are two tokens still.  Of names, numbers and
comparison words only a number ends where a comparison word starts. -/
def MayMeet (t u : HeaderToken) : Prop := t.goesOn = true → u.goesOn = true → t.isNumber = true ∧
    u.isComparison = true

instance : DecidableRel MayMeet := fun t u =>
  inferInstanceAs
  (Decidable (t.goesOn = true → u.goesOn = true → t.isNumber = true ∧ u.isComparison = true))

/-- Whether tokens make up a header. -/
structure IsHeader (ts : List HeaderToken) : Prop where
  tokens : ∀ t ∈ ts, t.IsToken
  meet : ts.IsChain MayMeet

/-- The text of a header. -/
def source (ts : List HeaderToken) : String := String.ofList (ts.flatMap chars)

/-- The text that is meant by a header: operators stand for the comparison words. -/
def target (ts : List HeaderToken) : String := String.ofList (ts.flatMap meant)

/-- Whether no comparison word stands whole inside a name or a string literal. -/
def Spared : HeaderToken → Prop
  | name s => Keyword.Absent s.toList
  | quoted _ body => Keyword.Absent body
  | _ => True

/-- Whether a number in front of a comparison word ends with its point. -/
def Apart (t u : HeaderToken) : Prop :=
  t.isNumber = true → u.isComparison = true → Stops isWord t.chars.reverse

instance : DecidableRel Apart := fun t u =>
  inferInstanceAs (Decidable (t.isNumber = true → u.isComparison = true →
    ∀ c ∈ t.chars.reverse.head?, isWord c = false))

/-! ### Characters of tokens -/

open Keyword (table replaceFrom replaceRun StandsIn Absent)

variable {t u : HeaderToken} {ts : List HeaderToken}

theorem isWord_of_isSpace {c : Char} (h : isSpace c = true) : isWord c = false := by
  simp only [isSpace, Bool.or_eq_true, beq_iff_eq] at h
  rcases h with ((rfl | rfl) | rfl) | rfl <;> decide

theorem isWord_of_mem_signs : ∀ w ∈ signs, w.toList ≠ [] ∧ ∀ c ∈ w.toList, isWord c = false := by
  decide

theorem isWord_of_isAlphanum {c : Char} (h : c.isAlphanum = true) : isWord c = true := by
  have hlt : c.toNat < 128 := by
    simp only [Char.isAlphanum, Bool.or_eq_true, isAlpha_iff, isDigit_iff] at h
    omega
  rw [isWord_of_lt hlt, isAsciiWord, h, Bool.true_or]

theorem isWord_of_isIdentPart {c : Char} (h : Grammar.isIdentPart c = true) (hc : c ≠ '$') :
    isWord c = true := by
  simp only [Grammar.isIdentPart, Bool.or_eq_true, beq_iff_eq] at h
  rcases h with (h | rfl) | rfl
  · exact isWord_of_isAlphanum h
  · decide
  · exact absurd rfl hc

theorem IsToken.chars_ne_nil (h : t.IsToken) : t.chars ≠ [] := by
  cases h with
  | spaces hne => exact hne
  | name hs =>
    obtain ⟨c, cs, hs, -⟩ := hs
    rw [chars, hs]
    exact List.cons_ne_nil c cs
  | number hs =>
    obtain ⟨hne, -⟩ := hs
    exact List.append_ne_nil_of_left_ne_nil hne _
  | quoted => exact List.cons_ne_nil _ _
  | sign hw => exact (isWord_of_mem_signs _ hw).1
  | comparison h => exact Keyword.ne_nil_of_mem_table _ h

/-- A token that does not go on has no word character at its ends. -/
theorem IsToken.stops (h : t.IsToken) (ht : t.goesOn = false) :
    Stops isWord t.chars ∧ Stops isWord t.chars.reverse := by
  have hothers {s : List Char} (hs : ∀ c ∈ s, isWord c = false) : Stops isWord s ∧
    Stops isWord s.reverse :=
    ⟨.of_forall hs, .of_forall fun c hc => hs c (List.mem_reverse.1 hc)⟩
  cases h with
  | spaces hne hs => exact hothers fun c hc => isWord_of_isSpace (hs c hc)
  | quoted hq hbody =>
    rename_i quote body cs
    have hquote : isWord quote = false := by
      rcases hq with rfl | rfl <;> decide
    refine ⟨.cons hquote _, ?_⟩
    rw [chars, ← List.cons_append, List.reverse_append]
    exact .cons hquote _
  | sign hw => exact hothers (isWord_of_mem_signs _ hw).2
  | name => cases ht
  | number => cases ht
  | comparison => cases ht

/-- Two neighbours of a header join no word, where numbers stand apart from comparison words. -/
theorem stops_or_stops (ht : t.IsToken) (hu : u.IsToken) (hmeet : MayMeet t u)
    (hapart : Apart t u) :
    Stops isWord t.chars.reverse ∨ Stops isWord u.chars := by
  cases hgt : t.goesOn with
  | false => exact .inl (ht.stops hgt).2
  | true =>
    cases hgu : u.goesOn with
    | false => exact .inr (hu.stops hgu).1
    | true =>
      obtain ⟨hnumber, hcomparison⟩ := hmeet hgt hgu
      exact .inl (hapart hnumber hcomparison)

/-- Where numbers stand apart from comparison words, rewriting goes token by token. -/
theorem replaceFrom_flatMap_chars (h : IsHeader ts) (hapart : ts.IsChain Apart) :
    replaceFrom false (ts.flatMap chars) = ts.flatMap fun t => replaceFrom false t.chars := by
  obtain ⟨htokens, hmeet⟩ := h
  induction ts with
  | nil => rw [List.flatMap_nil, replaceFrom, List.flatMap_nil]
  | cons t ts ih =>
    rw [List.forall_mem_cons] at htokens
    rw [List.flatMap_cons, List.flatMap_cons, ← ih hapart.tail htokens.2 hmeet.tail]
    refine Keyword.replaceFrom_append ?_
    cases ts with
    | nil => exact .inr .nil
    | cons u ts =>
      rw [List.isChain_cons_cons] at hmeet hapart
      have hu := htokens.2 u List.mem_cons_self
      refine (stops_or_stops htokens.1 hu hmeet.1 hapart.1).imp_right fun hstop => ?_
      rw [List.flatMap_cons]
      exact hstop.append_of_ne_nil hu.chars_ne_nil _

/-! ### Tokens by themselves -/

/-- The characters of decimal literals. -/
theorem mem_decimal {s : List Char} (h : IsDecimal s) :
    ∀ c ∈ s, c.isDigit = true ∨ c ∈ ['.', 'e', 'E', '+', '-'] := by
  obtain ⟨-, hds, hfs, hes⟩ := h
  rw [List.forall_mem_append, List.forall_mem_append]
  refine ⟨fun c hc => .inl (hds c hc), ?_, ?_⟩
  · cases hfs with
    | absent => simp
    | point hds => exact List.forall_mem_cons.2 ⟨.inr (by decide), fun c hc => .inl (hds c hc)⟩
  · cases hes with
    | absent => simp
    | power he hsign _ hds =>
      rw [List.forall_mem_cons, List.forall_mem_append]
      refine ⟨.inr ?_, ?_, fun c hc => .inl (hds c hc)⟩
      · rcases he with rfl | rfl <;> decide
      · rcases hsign with rfl | rfl | rfl <;> simp

/-- A decimal literal ends with a digit or with its point. -/
theorem exists_decimal_concat {s : List Char} (h : IsDecimal s) :
    ∃ r d, s = r ++ [d] ∧ (d.isDigit = true ∨ d = '.') := by
  obtain ⟨hne, hds, hfs, hes⟩ := h
  rename_i ds fs es
  have hlast {ds : List Char} (hne : ds ≠ []) (hds : ∀ d ∈ ds, d.isDigit = true) :
      ∃ r d, ds = r ++ [d] ∧ (d.isDigit = true ∨ d = '.') :=
    ⟨_, _, (List.dropLast_concat_getLast hne).symm, .inl (hds _ (List.getLast_mem hne))⟩
  cases hes with
  | @power e sign es he hsign hne' hds' =>
    obtain ⟨r, d, rfl, hd⟩ := hlast hne' hds'
    exact ⟨ds ++ (fs ++ e :: (sign ++ r)), d, by simp, hd⟩
  | absent =>
    rw [List.append_nil]
    cases hfs with
    | absent =>
      rw [List.append_nil]
      exact hlast hne hds
    | @point fs hfs =>
      by_cases hfs' : fs = []
      · subst hfs'
        exact ⟨ds, '.', rfl, .inr rfl⟩
      · obtain ⟨r, d, rfl, hd⟩ := hlast hfs' hfs
        exact ⟨ds ++ '.' :: r, d, by simp, hd⟩

/-- Every comparison word has a letter that no decimal literal has, and none has a digit. -/
theorem letters_of_mem_table :
    ∀ e ∈ table, ('q' ∈ e.1 ∨ 't' ∈ e.1) ∧ ∀ c ∈ e.1, c.isDigit = false := by
  decide

theorem absent_of_decimal_chars {s : List Char}
    (h : ∀ c ∈ s, c.isDigit = true ∨ c ∈ ['.', 'e', 'E', '+', '-']) :
    Absent s := by
  refine Keyword.absent_of_not_infix fun e he hpart => ?_
  rcases (letters_of_mem_table e he).1 with hc | hc
  all_goals
    have hmem := h _ (hpart.subset hc)
    revert hmem
    decide

/-- A token that is spared is rewritten as it is meant. -/
theorem IsToken.replaceFrom_chars (h : t.IsToken) (hspared : t.Spared) :
    replaceFrom false t.chars = t.meant := by
  have hothers {s : List Char} (hs : ∀ c ∈ s, isWord c = false) : replaceFrom false s = s := by
    have happend := Keyword.replaceFrom_others_append hs []
    rwa [List.append_nil, replaceFrom, List.append_nil] at happend
  cases h with
  | spaces hne hs => exact hothers fun c hc => isWord_of_isSpace (hs c hc)
  | name => exact Keyword.replaceFrom_eq_self_iff.2 hspared
  | number hs => exact Keyword.replaceFrom_eq_self_iff.2 (absent_of_decimal_chars (mem_decimal hs))
  | @quoted quote body cs hq hbody =>
    have hquote : ∀ c ∈ [quote], isWord c = false := by
      rw [List.forall_mem_singleton]
      rcases hq with rfl | rfl <;> decide
    have hbody : replaceFrom false (body ++ [quote]) = body ++ [quote] := by
      rw [Keyword.replaceFrom_append (.inr (.of_forall hquote)),
        Keyword.replaceFrom_eq_self_iff.2 hspared, hothers hquote]
    have happend := Keyword.replaceFrom_others_append hquote (body ++ [quote])
    rwa [hbody] at happend
  | sign hw => exact hothers (isWord_of_mem_signs _ hw).2
  | @comparison word op h =>
    have hword := Keyword.replaceFrom_word_append (Keyword.isWord_of_mem_table _ h).1 Stops.nil
    rw [replaceFrom, List.append_nil, List.append_nil] at hword
    rw [chars, hword, Keyword.replaceRun_of_mem_table _ h]
    rfl

/-- A name without a dollar sign is one word, and so it is spared. -/
theorem spared_name {s : String} (h : (name s).IsToken) (hs : '$' ∉ s.toList) :
    (name s).Spared := by
  cases h with
  | name hident hw =>
    have hword : ∀ c ∈ s.toList, isWord c = true := by
      intro c hc
      refine isWord_of_isIdentPart (hident.isIdentPart c hc) ?_
      rintro rfl
      exact hs hc
    rintro e he ⟨a, b, heq, ha, hb⟩
    have hnil {r : List Char} (hr : ∀ c ∈ r, isWord c = true)
      (hstop : Stops isWord r) : r = [] := by
      cases r with
      | nil => rfl
      | cons c r =>
        have hc := hr c List.mem_cons_self
        rw [hstop c rfl] at hc
        cases hc
    rw [heq, List.forall_mem_append, List.forall_mem_append] at hword
    have ha' : a = [] := by
      have hr := hnil (r := a.reverse) (fun c hc => hword.1 c (List.mem_reverse.1 hc)) ha
      simpa using hr
    have hb' : b = [] := hnil hword.2.2 hb
    subst ha' hb'
    rw [List.nil_append, List.append_nil] at heq
    exact hw e he heq.symm

/-! ### Headers -/

theorem meant_eq_chars (h : t.isComparison = false) : t.meant = t.chars := by
  cases t <;> first | rfl | cases h

theorem goesOn_of_isComparison (h : t.isComparison = true) : t.goesOn = true ∧
    t.isNumber = false := by
  cases t <;> first | exact ⟨rfl, rfl⟩ | cases h

theorem isComparison_of_not_goesOn (h : t.goesOn = false) : t.isComparison = false := by
  cases t <;> first | rfl | cases h

/-- Behind a name or a comparison word something else starts. -/
theorem stops_behind (htokens : ∀ t ∈ ts, t.IsToken) (hmeet : (t :: ts).IsChain MayMeet)
    (hgoes : t.goesOn = true) (hnumber : t.isNumber = false) : Stops isWord (ts.flatMap chars) ∧
    Stops isWord (ts.flatMap meant) := by
  cases ts with
  | nil => exact ⟨.nil, .nil⟩
  | cons u ts =>
    have hu := htokens u List.mem_cons_self
    have hother : u.goesOn = false := by
      rw [← Bool.not_eq_true]
      intro hother
      have hmay := (List.isChain_cons_cons.1 hmeet).1 hgoes hother
      rw [hnumber] at hmay
      cases hmay.1
    rw [List.flatMap_cons, List.flatMap_cons, meant_eq_chars (isComparison_of_not_goesOn hother)]
    have hstop := (hu.stops hother).1.append_of_ne_nil hu.chars_ne_nil
    exact ⟨hstop _, hstop _⟩

/-- In front of a name something else ends. -/
theorem stops_before_name {s : String} (htokens : ∀ t ∈ ts, t.IsToken)
    (hmeet : (ts ++ [name s]).IsChain MayMeet) :
    Stops isWord (ts.flatMap meant).reverse := by
  induction ts using List.reverseRecOn with
  | nil => exact .nil
  | append_singleton ts t _ =>
    have ht := htokens t (List.mem_append_right ts List.mem_cons_self)
    have hgoes : t.goesOn = false := by
      rw [← Bool.not_eq_true]
      intro hgoes
      rw [List.append_assoc] at hmeet
      have hmay := List.isChain_cons_cons.1 (List.isChain_append.1 hmeet).2.1
      cases (hmay.1 hgoes rfl).2
    rw [List.flatMap_append, List.reverse_append, List.flatMap_singleton,
      meant_eq_chars (isComparison_of_not_goesOn hgoes)]
    exact (ht.stops hgoes).2.append_of_ne_nil (by simpa using ht.chars_ne_nil) _

/-- Where rewriting gives the text that is meant, no comparison word stands inside a token of
another kind. -/
theorem spared_of_replaceFrom_eq (h : IsHeader ts)
    (heq : replaceFrom false (ts.flatMap chars) = ts.flatMap meant) :
    ∀ t ∈ ts, t.Spared := by
  have habsent : Absent (ts.flatMap meant) := by
    rw [← Keyword.replaceFrom_eq_self_iff, ← heq, Keyword.replaceFrom_replaceFrom]
  intro t ht
  obtain ⟨htokens, hmeet⟩ := h
  obtain ⟨us, vs, rfl⟩ := List.append_of_mem ht
  rw [List.flatMap_append, List.flatMap_cons] at habsent
  rw [List.forall_mem_append, List.forall_mem_cons] at htokens
  obtain ⟨hus, htoken, hvs⟩ := htokens
  cases t with
  | name s =>
    have hmeet' := List.isChain_split.1 hmeet
    exact habsent.of_append (stops_before_name hus hmeet'.1) (stops_behind hvs hmeet'.2 rfl rfl).2
  | quoted quote body =>
    cases htoken with
    | quoted hq hbody =>
      have hquote : isWord quote = false := by
        rcases hq with rfl | rfl <;> decide
      refine Absent.of_append (s := us.flatMap meant ++ [quote]) (u := quote ::
        vs.flatMap meant) ?_ ?_
        (.cons hquote _)
      · simpa [meant, chars] using habsent
      · rw [List.reverse_append]
        exact .cons hquote _
  | _ => trivial

/-- The last word of a text. -/
theorem exists_last_word (s : List Char) :
    ∃ a n, s = a ++ n ∧ Stops isWord a.reverse ∧ ∀ c ∈ n, isWord c = true := by
  refine ⟨(s.reverse.dropWhile isWord).reverse, (s.reverse.takeWhile isWord).reverse, ?_, ?_, ?_⟩
  · rw [← List.reverse_append, List.takeWhile_append_dropWhile, List.reverse_reverse]
  · rw [List.reverse_reverse]
    intro c hc
    have hnot := List.head?_dropWhile_not isWord s.reverse
    rw [Option.mem_def.1 hc] at hnot
    simpa using hnot
  · intro c hc
    exact List.mem_takeWhile_imp (List.mem_reverse.1 hc)

/-- Right behind a digit a comparison word is none. -/
theorem replaceFrom_digit_append {r w x : List Char} {d : Char} (hs : IsDecimal (r ++ [d]))
    (hd : d.isDigit = true) (hw : ∀ c ∈ w, isWord c = true) (hx : Stops isWord x) :
    replaceFrom false (r ++ [d] ++ (w ++ x)) = r ++ [d] ++ (w ++ replaceFrom false x) := by
  have hchars := mem_decimal hs
  obtain ⟨a, n, rfl, ha, hn⟩ := exists_last_word r
  have hword : ∀ c ∈ n ++ d :: w, isWord c = true := by
    rw [List.forall_mem_append, List.forall_mem_cons]
    exact ⟨hn, isWord_of_isAlphanum (by rw [Char.isAlphanum, hd, Bool.or_true]), hw⟩
  have hself : replaceRun (n ++ d :: w) = n ++ d :: w := by
    refine (Keyword.replaceRun_cases _).resolve_right fun hmem => ?_
    have hdigit := (letters_of_mem_table _ hmem).2 d (by simp)
    rw [hd] at hdigit
    cases hdigit
  have hrest : replaceFrom false a = a := by
    refine Keyword.replaceFrom_eq_self_iff.2 (absent_of_decimal_chars fun c hc => hchars c ?_)
    simp [hc]
  have hsplit : a ++ n ++ [d] ++ (w ++ x) = a ++ ((n ++ d :: w) ++ x) := by simp
  rw [hsplit, Keyword.replaceFrom_append (.inl ha),
    Keyword.replaceFrom_word_append hword hx, hself, hrest]
  simp

/-- A comparison word that touches the digits of a number is not rewritten. -/
theorem apart_of_replaceFrom_append_eq {x y : List Char} (ht : t.IsToken) (hu : u.IsToken)
    (hx : u.isComparison = true → Stops isWord x)
    (heq : replaceFrom false (t.chars ++ (u.chars ++ x)) = t.meant ++ (u.meant ++ y)) :
    Apart t u := by
  intro hnumber hcomparison
  cases ht with
  | @number s hs =>
    cases hu with
    | @comparison word op h =>
      obtain ⟨r, d, rfl, hd | rfl⟩ := exists_decimal_concat hs
      · have hword := (Keyword.isWord_of_mem_table _ h).1
        rw [chars, chars, replaceFrom_digit_append hs hd hword (hx rfl)] at heq
        have hrest : word ++ replaceFrom false x = op ++ y := List.append_cancel_left heq
        -- The comparison word and its operator start differently.
        obtain ⟨c, cs, rfl⟩ := List.exists_cons_of_ne_nil (Keyword.ne_nil_of_mem_table _ h)
        obtain ⟨o, os, rfl⟩ := List.exists_cons_of_ne_nil (Keyword.operator_ne_nil_of_mem_table _ h)
        have hc := hword c List.mem_cons_self
        rw [(List.cons.inj hrest).1, (Keyword.isWord_of_mem_table _ h).2 o List.mem_cons_self] at hc
        cases hc
      · rw [chars, List.reverse_append]
        exact .cons (by decide) _
    | _ => cases hcomparison
  | _ => cases hnumber

/-- Where rewriting gives the text that is meant, no comparison word touches the digits of a
number. -/
theorem isChain_apart_of_replaceFrom_eq (h : IsHeader ts) (hspared : ∀ t ∈ ts, t.Spared)
    (heq : replaceFrom false (ts.flatMap chars) = ts.flatMap meant) : ts.IsChain Apart := by
  obtain ⟨htokens, hmeet⟩ := h
  induction ts with
  | nil => exact .nil
  | cons t ts ih =>
    cases ts with
    | nil => exact .singleton t
    | cons u ts =>
      rw [List.forall_mem_cons] at htokens hspared
      have hu := htokens.2 u List.mem_cons_self
      rw [List.isChain_cons_cons] at hmeet
      have hbehind (hcomparison : u.isComparison = true) : Stops isWord (ts.flatMap chars) := by
        obtain ⟨hgoes, hnumber⟩ := goesOn_of_isComparison hcomparison
        exact (stops_behind (List.forall_mem_cons.1 htokens.2).2 hmeet.2 hgoes hnumber).1
      have hapart : Apart t u :=
        apart_of_replaceFrom_append_eq (y := ts.flatMap meant) htokens.1 hu hbehind heq
      refine List.isChain_cons_cons.2 ⟨hapart, ih hspared.2 ?_ htokens.2 hmeet.2⟩
      have hjoin : Stops isWord t.chars.reverse ∨ Stops isWord ((u :: ts).flatMap chars) := by
        rw [List.flatMap_cons]
        exact (stops_or_stops htokens.1 hu hmeet.1 hapart).imp_right fun hstop =>
          hstop.append_of_ne_nil hu.chars_ne_nil _
      rw [List.flatMap_cons, Keyword.replaceFrom_append hjoin,
        htokens.1.replaceFrom_chars hspared.1, List.flatMap_cons (f := meant)] at heq
      exact List.append_cancel_left heq

/-- A header is rewritten to what is meant by it exactly if no comparison word stands whole in one
of its names or string literals and none touches the digits of a number.  A name without a dollar
sign has no comparison word in it. -/
theorem wordsToOperators_eq_target_iff (h : IsHeader ts) :
    (wordsToOperators (source ts) = target ts ↔ (∀ t ∈ ts, t.Spared) ∧ ts.IsChain Apart) ∧
      ∀ s, name s ∈ ts → '$' ∉ s.toList → (name s).Spared := by
  refine ⟨?_, fun s hs => spared_name (h.tokens _ hs)⟩
  rw [source, target, wordsToOperators, String.toList_ofList, String.ofList_inj]
  constructor
  · intro heq
    have hspared := spared_of_replaceFrom_eq h heq
    exact ⟨hspared, isChain_apart_of_replaceFrom_eq h hspared heq⟩
  · rintro ⟨hspared, hapart⟩
    rw [replaceFrom_flatMap_chars h hapart]
    exact List.flatMap_congr fun t ht => (h.tokens t ht).replaceFrom_chars (hspared t ht)

/-- The tokens of `freq gt 2.neq x$y && a heq 'gte'`. -/
def plainHeader : List HeaderToken :=
  [name "freq", spaces [' '], comparison "gt".toList ">".toList, spaces [' '], number ['2', '.'],
    comparison "neq".toList "!=".toList, spaces [' '], name "x$y", spaces [' '], sign "&&",
    spaces [' '], name "a",
    spaces [' '], comparison "heq".toList "===".toList, spaces [' '], quoted '\'' ['g', 't', 'e']]

/-- Names and string literals that only contain comparison words as parts of longer words stay. -/
theorem wordsToOperators_eq_target_iff_plain :
    IsHeader plainHeader ∧ source plainHeader = "freq gt 2.neq x$y && a heq 'gte'" ∧
      wordsToOperators "freq gt 2.neq x$y && a heq 'gte'" = "freq > 2.!= x$y && a === 'gte'" := by
  have hspace : (spaces [' ']).IsToken := .spaces (by decide) (by decide)
  have hheader : IsHeader plainHeader := by
    refine ⟨?_, by decide⟩
    simp only [plainHeader, List.forall_mem_cons, List.not_mem_nil, false_imp_iff, implies_true,
      and_true, hspace, true_and]
    exact ⟨.name (by decide) (by decide), .comparison (by decide),
      .number (@IsDecimal.mk ['2'] ['.'] [] (by decide) (by decide)
        (@IsFraction.point [] (by decide)) .absent),
      .comparison (by decide), .name (by decide) (by decide), .sign (by decide),
      .name (by decide) (by decide),
      .comparison (by decide), .quoted (.inr rfl) rfl⟩
  have hsource : source plainHeader = "freq gt 2.neq x$y && a heq 'gte'" := by decide
  have hspared : ∀ t ∈ plainHeader, t.Spared := by
    simp only [plainHeader, List.forall_mem_cons, List.not_mem_nil, false_imp_iff, implies_true,
      and_true, Spared, true_and]
    decide
  have htarget := (wordsToOperators_eq_target_iff hheader).1.2 ⟨hspared, by decide⟩
  rw [hsource] at htarget
  exact ⟨hheader, hsource, htarget.trans (by decide)⟩

/-- The tokens of `$eq eq 'a eq b'`. -/
def dollarHeader : List HeaderToken :=
  [name "$eq", spaces [' '], comparison "eq".toList "==".toList, spaces [' '],
    quoted '\'' ['a', ' ', 'e', 'q', ' ', 'b']]

/-- A comparison word behind a dollar sign or inside a string literal is rewritten, too. -/
theorem wordsToOperators_ne_target_dollar :
    IsHeader dollarHeader ∧ source dollarHeader = "$eq eq 'a eq b'" ∧
    target dollarHeader = "$eq == 'a eq b'" ∧
      wordsToOperators (source dollarHeader) = "$== == 'a == b'" ∧
      wordsToOperators (source dollarHeader) ≠ target dollarHeader := by
  have hspace : (spaces [' ']).IsToken := .spaces (by decide) (by decide)
  have hheader : IsHeader dollarHeader := by
    refine ⟨?_, by decide⟩
    simp only [dollarHeader, List.forall_mem_cons, List.not_mem_nil, false_imp_iff, implies_true,
      and_true, hspace, true_and]
    exact ⟨.name (by decide) (by decide), .comparison (by decide), .quoted (.inr rfl) rfl⟩
  have hwords : wordsToOperators (source dollarHeader) = "$== == 'a == b'" := by
    rw [wordsToOperators, Keyword.replaceFrom_eq]
    decide
  refine ⟨hheader, by decide, by decide, hwords, ?_⟩
  rw [hwords]
  decide

end HeaderToken

end LiveMarkup
