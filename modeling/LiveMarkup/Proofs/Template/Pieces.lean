import LiveMarkup.Eval.Template
import LiveMarkup.Proofs.Eval.Run
import LiveMarkup.Proofs.Expr.Word
import LiveMarkup.Proofs.Template.Shorthand

/-!
# Templates of texts and names

A template whose only directives are interpolations of names is a list of `Piece`s, texts without
braces and names. It is read as the segments of its pieces (`Template.parse_charsAll`), and rendered
against fields that are strings it gives the texts with the escaped strings between them
(`Template.render_charsAll`).
-/

namespace LiveMarkup

/-- A text, or a name for which a value is to be written. -/
inductive Piece where
  | lit (t : List Char)
  | hole (name : String)

namespace Piece

/-- A piece as characters, given what is written for names. -/
def chars (write : String → List Char) : Piece → List Char
  | lit t => t
  | hole name => write name

/-- Several pieces as characters. -/
def charsAll (write : String → List Char) (ps : List Piece) : List Char := ps.flatMap (chars write)

/-- What stands for a name in a template. -/
def interpolation (name : String) : List Char := '{' :: '{' :: (name.toList ++ ['}', '}'])

/-- Whether a text has nothing in it that could start a directive or a shorthand, or a name can be
referred to. -/
def Tame : Piece → Prop
  | lit t => '{' ∉ t ∧ '@' ∉ t
  | hole name => IsName name

/-- Pieces with a text put in front. -/
def consLit (t : List Char) : List Piece → List Piece
  | lit u :: ps => lit (t ++ u) :: ps
  | ps => lit t :: ps

/-- Pieces with neighbouring texts as one and without empty texts. -/
def merge : List Piece → List Piece
  | [] => []
  | lit [] :: ps => merge ps
  | lit t :: ps => consLit t (merge ps)
  | hole name :: ps => hole name :: merge ps

/-- The directive for a piece. -/
def directive : Piece → Directive
  | lit t => .text t
  | hole name => .escaped name.toList

/-- The segment for a piece. -/
def segment : Piece → Segment
  | lit t => .text (String.ofList t)
  | hole name => .escaped (.ident name)

variable {write : String → List Char} {ps : List Piece} {t : List Char}

theorem charsAll_cons (p : Piece) (ps : List Piece) :
    charsAll write (p :: ps) = p.chars write ++ charsAll write ps :=
  List.flatMap_cons

theorem charsAll_append (ps qs : List Piece) :
    charsAll write (ps ++ qs) = charsAll write ps ++ charsAll write qs :=
  List.flatMap_append

theorem charsAll_consLit (t : List Char) (ps : List Piece) :
    charsAll write (consLit t ps) = t ++ charsAll write ps := by
  unfold consLit
  split <;> simp [charsAll, chars]

theorem charsAll_merge (ps : List Piece) : charsAll write (merge ps) = charsAll write ps := by
  fun_induction merge ps with
  | case1 => rfl
  | case2 ps ih => rw [ih, charsAll_cons, chars, List.nil_append]
  | case3 t ps _ ih => rw [charsAll_consLit, ih, charsAll_cons, chars]
  | case4 name ps ih => rw [charsAll_cons, ih, charsAll_cons]

theorem tame_consLit (ht : (lit t).Tame) (h : ∀ p ∈ ps, p.Tame) : ∀ p ∈ consLit t ps, p.Tame := by
  unfold consLit
  split
  · rename_i u ps
    rw [List.forall_mem_cons] at h ⊢
    refine ⟨?_, h.2⟩
    simp only [Tame, List.mem_append, not_or] at ht h ⊢
    exact ⟨⟨ht.1, h.1.1⟩, ht.2, h.1.2⟩
  · exact List.forall_mem_cons.2 ⟨ht, h⟩

theorem tame_merge (h : ∀ p ∈ ps, p.Tame) : ∀ p ∈ merge ps, p.Tame := by
  fun_induction merge ps with
  | case1 => exact h
  | case2 ps ih => exact ih (List.forall_mem_cons.1 h).2
  | case3 t ps _ ih =>
    exact tame_consLit (List.forall_mem_cons.1 h).1 (ih (List.forall_mem_cons.1 h).2)
  | case4 name ps ih =>
    exact List.forall_mem_cons.2 ⟨(List.forall_mem_cons.1 h).1, ih (List.forall_mem_cons.1 h).2⟩

theorem mem_hole_merge {name : String} (h : hole name ∈ merge ps) : hole name ∈ ps := by
  fun_induction merge ps with
  | case1 => exact h
  | case2 ps ih => exact List.mem_cons_of_mem _ (ih h)
  | case3 t ps _ ih =>
    refine List.mem_cons_of_mem _ (ih ?_)
    unfold consLit at h
    split at h
    · rename_i hm
      rw [List.mem_cons] at h
      rw [hm]
      exact List.mem_cons_of_mem _ (h.resolve_left (by simp))
    · exact (List.mem_cons.1 h).resolve_left (by simp)
  | case4 n ps ih =>
    rcases List.mem_cons.1 h with h | h
    · rw [h]
      exact List.mem_cons_self
    · exact List.mem_cons_of_mem _ (ih h)

end Piece

theorem IsName.not_mem {name : String} (h : IsName name) {c : Char}
    (hc : Grammar.isIdentPart c = false) :
    c ∉ name.toList := by
  obtain ⟨⟨d, ds, hs, hd, hds⟩, -⟩ := h
  have hpart : Grammar.isIdentPart d = true := by
    simp only [Grammar.isIdentStart, Bool.or_eq_true] at hd
    rcases hd with (hd | hd) | hd <;> simp [Grammar.isIdentPart, Char.isAlphanum, hd]
  have hall : ∀ e ∈ name.toList, Grammar.isIdentPart e = true := by
    rw [hs]
    exact List.forall_mem_cons.2 ⟨hpart, hds⟩
  intro hm
  rw [hall c hm] at hc
  cases hc

/-! ### Directives -/

namespace Directive

theorem consText_consText (t u : List Char) (ds : List Directive) :
    consText t (consText u ds) = consText (t ++ u) ds := by
  cases ds with
  | nil => rfl
  | cons d ds => cases d <;> simp [consText]

/-- Text without braces is put in front of what follows. -/
theorem scan_append {t : List Char} (hne : t ≠ []) (h : '{' ∉ t) (s : List Char) :
    scan (t ++ s) = consText t (scan s) := by
  have hcons {c : Char} (hc : c ≠ '{') (r : List Char) :
      scan (c :: r) = consText (c :: r.takeWhile (· != '{')) (scan (r.dropWhile (· != '{'))) := by
    rw [scan, if_neg hc]
  have hall : ∀ d ∈ t, (d != '{') = true := by
    intro d hd
    rw [bne_iff_ne]
    rintro rfl
    exact h hd
  obtain ⟨c, t, rfl⟩ := List.exists_cons_of_ne_nil hne
  rw [List.mem_cons, not_or] at h
  rw [List.forall_mem_cons] at hall
  rw [List.cons_append, hcons (Ne.symm h.1), List.takeWhile_append_of_pos hall.2,
    List.dropWhile_append_of_pos hall.2]
  -- the run of text goes on in `s` if `s` does not start with a brace
  cases s with
  | nil => simp
  | cons d s =>
    by_cases hd : d = '{'
    · rw [hd, List.takeWhile_cons_of_neg (by simp), List.dropWhile_cons_of_neg (by simp),
        List.append_nil]
    · rw [List.takeWhile_cons_of_pos (by simpa using hd),
        List.dropWhile_cons_of_pos (by simpa using hd), hcons hd, consText_consText,
        List.cons_append]

/-- A directive that is read is a piece. -/
theorem scan_of_read {cs r : List Char} {d : Directive} (h : directive.read ('{' :: cs) = .ok d r) :
    scan ('{' :: cs) = d :: scan r := by
  rw [scan, if_pos rfl]
  split
  · rename_i h'
    rw [h] at h'
    cases h'
    rfl
  · rename_i h'
    exact absurd h (h' _ _)

theorem scan_interpolation {name : String} (h : IsName name) (s : List Char) :
    scan (Piece.interpolation name ++ s) = .escaped name.toList :: scan s := by
  have hstops : Stops isInner ('}' :: '}' :: s) := .cons (by decide) _
  have hall : ∀ c ∈ name.toList, isInner c = true := by
    intro c hc
    rw [isInner, bne_iff_ne]
    rintro rfl
    exact h.not_mem (by decide) hc
  have hinner : (inner "\x7d\x7d").read (name.toList ++ '}' :: '}' :: s) = .ok name.toList s := by
    have hafter : after? "\x7d\x7d".toList ('}' :: '}' :: s) = some s := after?_eq_some_iff.2 rfl
    simp only [inner, hstops.takeWhile_append hall, hstops.dropWhile_append hall, hafter]
  have hs : Piece.interpolation name ++ s = '{' :: '{' :: (name.toList ++ '}' :: '}' :: s) := by
    simp [Piece.interpolation]
  have hread :
    directive.read ('{' :: '{' :: (name.toList ++ '}' :: '}' :: s)) =
      .ok (.escaped name.toList) s := by
    refine Rule.read_orElse_of_ok ?_
    refine (Rule.read_bind_of_ok (Rule.read_token (w := "\x7b\x7b") rfl)).trans ?_
    exact (Rule.read_bind_of_ok hinner).trans rfl
  rw [hs, scan_of_read hread]

theorem consText_map_directive (t : List Char) (ps : List Piece) :
    consText t (ps.map Piece.directive) = (Piece.consLit t ps).map Piece.directive := by
  cases ps with
  | nil => rfl
  | cons p ps => cases p <;> rfl

/-- The source of tame pieces is cut at the pieces. -/
theorem scan_charsAll {ps : List Piece} (h : ∀ p ∈ ps, p.Tame) :
    scan (Piece.charsAll Piece.interpolation ps) = (Piece.merge ps).map Piece.directive := by
  fun_induction Piece.merge ps with
  | case1 =>
    rw [Piece.charsAll, List.flatMap_nil, scan]
    rfl
  | case2 ps ih =>
    rw [Piece.charsAll_cons, Piece.chars, List.nil_append]
    exact ih (List.forall_mem_cons.1 h).2
  | case3 t ps hne ih =>
    rw [List.forall_mem_cons] at h
    rw [Piece.charsAll_cons, Piece.chars, scan_append hne h.1.1, ih h.2, consText_map_directive]
  | case4 name ps ih =>
    rw [List.forall_mem_cons] at h
    rw [Piece.charsAll_cons, Piece.chars, scan_interpolation h.1, ih h.2, List.map_cons,
      Piece.directive]

end Directive

/-! ### Segments -/

theorem Nesting.step_directive {p : Piece} (h : p.Tame) (n : Nesting) :
    n.step p.directive = .ok (n.push p.segment) := by
  cases p with
  | lit t => rfl
  | hole name =>
    have hblank : ¬name.toList.all isBlank = true := by
      intro hall
      obtain ⟨⟨c, cs, hs, hc, -⟩, -⟩ := h
      rw [hs, List.all_cons, Bool.and_eq_true] at hall
      rw [Grammar.isBlank_of_isIdentStart hc] at hall
      exact Bool.false_ne_true hall.1
    have hinterp : Nesting.interpolation name.toList = .ok (.ident name) := by
      rw [Nesting.interpolation, if_neg hblank, String.ofList_toList, Expr.parse_name h]
    simp only [Piece.directive, Nesting.step, hinterp, Except.map, Piece.segment]

theorem Nesting.foldlM_directive {ps : List Piece} (h : ∀ p ∈ ps, p.Tame) (n : Nesting) :
    (ps.map Piece.directive).foldlM Nesting.step n =
      .ok ⟨(ps.map Piece.segment).reverse ++ n.current, n.opened⟩ := by
  induction ps generalizing n with
  | nil => rfl
  | cons p ps ih =>
    rw [List.forall_mem_cons] at h
    rw [List.map_cons, List.foldlM_cons, Nesting.step_directive h.1]
    show List.foldlM Nesting.step (n.push p.segment) _ = _
    rw [ih h.2]
    simp [Nesting.push]

namespace Template

/-- The source of tame pieces is read as their segments. -/
theorem parse_charsAll {ps : List Piece} (h : ∀ p ∈ ps, p.Tame) :
    Template.parse (String.ofList (Piece.charsAll Piece.interpolation ps)) =
      .ok ⟨(Piece.merge ps).map Piece.segment⟩ := by
  have hat : '@' ∉ Piece.charsAll Piece.interpolation ps := by
    rw [Piece.charsAll, List.mem_flatMap]
    rintro ⟨p, hp, hm⟩
    have htame := h p hp
    cases p with
    | lit t => exact htame.2 hm
    | hole name =>
      simp only [Piece.chars, Piece.interpolation, List.mem_cons, List.mem_append,
        List.not_mem_nil] at hm
      have hname := IsName.not_mem htame (c := '@') (by decide)
      simp [hname] at hm
  unfold Template.parse Segment.ofDirectives
  rw [String.toList_ofList, Shorthand.expand_eq_self hat, Directive.scan_charsAll h,
    Nesting.foldlM_directive (Piece.tame_merge h)]
  simp [Nesting.finish, Nesting.start, Except.map]

end Template

/-! ### Rendering -/

variable {σ : Type}

theorem escapeHtml_string (rt : Runtime σ) (s : String) (w : World σ) :
    escapeHtml rt (.string s) true w = (.ok (escapeText s), w) := rfl

namespace Piece

/-- A segment for a string writes the escaped string. -/
theorem render_segment {env : Env σ} {f : String → String} {s : Rendering σ}
    (hescape : env.options.escape = escapeHtml) {p : Piece}
    (h : ∀ name, p = hole name → s.scope.lookup? env.fields name = some (.string (f name))) :
    p.segment.render env s =
      (.ok (String.ofList (p.chars fun name => (escapeText (f name)).toList)), s) := by
  cases p with
  | lit t => rfl
  | hole name =>
    have heval : evalIn env (.ident name) s = (.ok (.string (f name)), s) := by
      have hident : (Expr.ident name).eval env s.scope s.world = (.ok (.string (f name)),
        s.world) := by
        rw [Expr.eval, h name rfl]
        rfl
      unfold evalIn inScope
      simp only [hident]
    have hwrite : write env (.string (f name)) true s = (.ok (escapeText (f name)), s) := by
      unfold write
      rw [hescape, escapeHtml_string]
      rfl
    refine (Run.bind_eq_of_ok heval).trans (hwrite.trans ?_)
    rw [chars, String.ofList_toList]

theorem renderAll_segment {env : Env σ} {f : String → String} {s : Rendering σ}
    (hescape : env.options.escape = escapeHtml) {ps : List Piece}
    (h : ∀ name, hole name ∈ ps → s.scope.lookup? env.fields name = some (.string (f name)))
    (out : String) :
    renderAll env (ps.map segment) out s =
      (.ok (out ++ String.ofList (charsAll (fun name => (escapeText (f name)).toList) ps)), s) := by
  induction ps generalizing out with
  | nil =>
    rw [List.map_nil, renderAll]
    show (Outcome.ok out, s) = _
    simp [charsAll]
  | cons p ps ih =>
    have hp := render_segment (p := p) hescape fun name he => h name (he ▸ List.mem_cons_self)
    rw [List.map_cons, renderAll]
    refine (Run.bind_eq_of_ok hp).trans ?_
    rw [ih fun name hm => h name (List.mem_cons_of_mem _ hm), charsAll_cons, String.ofList_append,
      String.append_assoc]

end Piece

/-- Pieces rendered against strings give the texts with the escaped strings between them. -/
theorem Template.render_charsAll {env : Env σ} {f : String → String}
    (hescape : env.options.escape = escapeHtml) {ps : List Piece}
    (h : ∀ name, Piece.hole name ∈ ps → Entries.get? name env.fields = some (.string (f name)))
    (w : World σ) :
    Template.render ⟨(Piece.merge ps).map Piece.segment⟩ env w =
      (.ok (String.ofList (Piece.charsAll (fun name => (escapeText (f name)).toList) ps)), w) := by
  have hfields (name : String) (hm : Piece.hole name ∈ Piece.merge ps) :
      Scope.empty.lookup? env.fields name = some (.string (f name)) :=
        h name (Piece.mem_hole_merge hm)
  have hall := Piece.renderAll_segment (s := ⟨w, .empty⟩) hescape hfields ""
  unfold Template.render
  simp only [hall, Piece.charsAll_merge, String.empty_append]

end LiveMarkup
