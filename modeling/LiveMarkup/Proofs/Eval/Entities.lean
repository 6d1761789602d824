import LiveMarkup.Proofs.Eval.Walk
import LiveMarkup.Proofs.Markup.Filled
import Mathlib.Data.List.Infix

/-!
# Texts with entities

Text is `Escaped` if no markup character stands in it but the ampersands that begin entities.
Everything that is written with escaping is such text (`escapeWithin_escaped`).  `unescapeText` puts
the characters in place of their entities, and so reads back what `escapeText` writes
(`unescapeText_escapeText`).
-/

namespace LiveMarkup

/-- The entities that stand for markup characters. -/
def entities : List String := ["&amp;", "&lt;", "&gt;", "&quot;", "&#039;"]

/-- Text without markup characters but for the ampersands of entities. -/
structure Escaped (cs : List Char) : Prop where
  plain : ∀ c ∈ cs, c ∉ ['<', '>', '"', '\'']
  entity : ∀ post, '&' :: post <:+ cs → ∃ e ∈ entities, e.toList <+: '&' :: post

/-- Text with the characters in place of their entities. -/
def unescapeText : List Char → List Char
  | '&' :: 'a' :: 'm' :: 'p' :: ';' :: cs => '&' :: unescapeText cs
  | '&' :: 'l' :: 't' :: ';' :: cs => '<' :: unescapeText cs
  | '&' :: 'g' :: 't' :: ';' :: cs => '>' :: unescapeText cs
  | '&' :: 'q' :: 'u' :: 'o' :: 't' :: ';' :: cs => '"' :: unescapeText cs
  | '&' :: '#' :: '0' :: '3' :: '9' :: ';' :: cs => '\'' :: unescapeText cs
  | c :: cs => c :: unescapeText cs
  | [] => []

/-! ### Escaped texts -/

namespace Escaped

theorem nil : Escaped [] := ⟨by simp, by simp⟩

theorem append {s t : List Char} (hs : Escaped s) (ht : Escaped t) : Escaped (s ++ t) := by
  refine ⟨fun c hc => (List.mem_append.1 hc).elim (hs.plain c) (ht.plain c), ?_⟩
  rintro post ⟨pre, h⟩
  rcases List.append_eq_append_iff.1 h with ⟨as, rfl, hpost⟩ | ⟨bs, rfl, rfl⟩
  · cases as with
    | nil => exact ht.entity post ⟨[], hpost⟩
    | cons c as =>
      -- The ampersand stands in the first text, and so does the whole entity.
      rw [List.cons_append, List.cons.injEq] at hpost
      obtain ⟨rfl, rfl⟩ := hpost
      obtain ⟨e, he, hpre⟩ := hs.entity as ⟨pre, rfl⟩
      exact ⟨e, he, hpre.trans (List.prefix_append ('&' :: as) t)⟩
  · exact ht.entity post ⟨bs, rfl⟩

theorem singleton {c : Char} (hc : c ∉ ['&', '<', '>', '"', '\'']) : Escaped [c] := by
  rw [List.mem_cons, not_or] at hc
  refine ⟨fun d hd => (List.mem_singleton.1 hd) ▸ hc.2, fun post h => ?_⟩
  have hmem : '&' ∈ [c] := h.mem List.mem_cons_self
  exact absurd (List.mem_singleton.1 hmem).symm hc.1

/-- An entity is escaped text. -/
theorem of_mem_entities {e : String} (he : e ∈ entities) : Escaped e.toList := by
  have hplain : ∀ e ∈ entities, ∀ c ∈ e.toList, c ∉ ['<', '>', '"', '\''] := by decide
  have hentity : ∀ e ∈ entities, ∀ s ∈ e.toList.tails,
    s.head? = some '&' → s = e.toList := by decide
  refine ⟨hplain e he, fun post h => ⟨e, he, ?_⟩⟩
  rw [hentity e he _ ((List.mem_tails _ _).2 h) rfl]

theorem escapeChar (c : Char) : Escaped (escapeChar c) := by
  unfold LiveMarkup.escapeChar
  split
  case h_6 h₁ h₂ h₃ h₄ h₅ => exact singleton (by simpa using ⟨h₁, h₂, h₃, h₄, h₅⟩)
  all_goals exact of_mem_entities (by decide)

theorem flatMap_escapeChar (cs : List Char) : Escaped (cs.flatMap LiveMarkup.escapeChar) := by
  induction cs with
  | nil => exact nil
  | cons c cs ih =>
    rw [List.flatMap_cons]
    exact (escapeChar c).append ih

theorem escapeText (s : String) : Escaped (escapeText s).toList := by
  rw [LiveMarkup.escapeText, String.toList_ofList]
  exact flatMap_escapeChar s.toList

theorem intercalate {ts : List String} (h : ∀ t ∈ ts, Escaped t.toList) :
    Escaped (",".intercalate ts).toList := by
  induction ts with
  | nil => exact nil
  | cons t ts ih =>
    rw [List.forall_mem_cons] at h
    cases ts with
    | nil =>
      rw [String.intercalate_singleton]
      exact h.1
    | cons u ts =>
      rw [String.intercalate_cons_cons, String.toList_append, String.toList_append]
      exact (h.1.append (singleton (by decide))).append (ih h.2)

/-- Escaped text is inert in content and in attribute values. -/
theorem inert {cs : List Char} (h : Escaped cs) : Inert cs :=
  ⟨fun hm => h.plain _ hm (by decide), fun hm => h.plain _ hm (by decide)⟩

end Escaped

/-! ### Reading entities -/

theorem unescapeText_cons {c : Char} (hc : c ≠ '&') (cs : List Char) :
    unescapeText (c :: cs) = c :: unescapeText cs := by
  rw [unescapeText]
  all_goals exact fun _ h => absurd h hc

theorem unescapeText_escapeChar (c : Char) (cs : List Char) :
    unescapeText (escapeChar c ++ cs) = c :: unescapeText cs := by
  unfold escapeChar
  split
  case h_6 h₁ _ _ _ _ => exact unescapeText_cons h₁ cs
  all_goals rfl

/-- Escaped text reads as the text that was escaped. -/
theorem unescapeText_escapeText (s : String) : unescapeText (escapeText s).toList = s.toList := by
  rw [escapeText, String.toList_ofList]
  induction s.toList with
  | nil => rfl
  | cons c cs ih => rw [List.flatMap_cons, unescapeText_escapeChar, ih]

theorem escapeText_append (s t : String) : escapeText (s ++ t) = escapeText s ++ escapeText t := by
  simp only [escapeText, String.toList_append, List.flatMap_append, String.ofList_append]

theorem escapeText_intercalate (ts : List String) :
    escapeText (",".intercalate ts) = ",".intercalate (ts.map escapeText) := by
  induction ts with
  | nil => rfl
  | cons t ts ih =>
    cases ts with
    | nil => simp only [String.intercalate_singleton, List.map_cons, List.map_nil]
    | cons u ts =>
      rw [List.map_cons] at ih
      rw [String.intercalate_cons_cons, escapeText_append, escapeText_append, ih, List.map_cons,
        List.map_cons, String.intercalate_cons_cons]
      rfl

/-! ### What is written -/

theorem forall_of_writeEach {W : Type} {P : String → Prop}
    {write : Value → W → Except Stop String × W} (hP : ∀ v w t w', write v w = (.ok t, w') → P t)
    {vs : List Value} {w w' : W} {ts : List String} (h : writeEach write vs w = (.ok ts, w')) :
    ∀ t ∈ ts, P t := by
  induction vs generalizing w ts with
  | nil =>
    cases h
    exact fun _ ht => absurd ht List.not_mem_nil
  | cons v vs ih =>
    obtain ⟨t, ts', w₁, hv, hvs, rfl⟩ := writeEach_cons_eq_ok_iff.1 h
    exact List.forall_mem_cons.2 ⟨hP v w t w₁ hv, ih hvs⟩

section Written

variable {σ : Type} {rt : Runtime σ} {v : Value} {w w' : World σ} {t : String}

/-- Everything that is written with escaping is escaped text, what functions return and what arrays
hold included. -/
theorem escapeWithin_escaped {n : Nat} {opn : List ArrayId}
    (h : escapeWithin rt n opn true v w = (.ok t, w')) : Escaped t.toList := by
  induction n generalizing opn v w w' t with
  | zero => cases h
  | succ n ih =>
    cases v with
    | function f =>
      rcases hcall : rt.call opn f [] w with ⟨_ | v, w₁⟩
      · rw [escapeWithin, hcall] at h
        cases h
      · rw [escapeWithin_function hcall] at h
        exact ih h
    | array r =>
      by_cases ho : r ∈ opn
      · rw [escapeWithin_array_of_mem ho] at h
        cases h
        exact Escaped.nil
      · obtain ⟨ts, hts, rfl⟩ := (escapeWithin_array_eq_ok_iff ho).1 h
        exact Escaped.intercalate (forall_of_writeEach (fun _ _ _ _ => ih) hts)
    | _ =>
      rw [escapeWithin_plain (by simp) (by simp)] at h
      cases h
      exact Escaped.escapeText _

end Written

end LiveMarkup
