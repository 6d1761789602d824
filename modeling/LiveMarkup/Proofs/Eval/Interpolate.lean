import LiveMarkup.Eval.Template
import LiveMarkup.Proofs.Eval.Entities
import LiveMarkup.Proofs.Eval.Run

/-!
# Rendering interpolations

A template whose only directives are escaped interpolations gives a text that comes of its items, if
what is written for values is inert (`renderAll_fills`).  `escapeHtml` writes inert texts only
(`escapeHtml_inert`).
-/

namespace LiveMarkup

open Item

variable {σ : Type}

/-! ### Inert texts -/

theorem inert_escapeText (s : String) : Inert (escapeText s).toList := (Escaped.escapeText s).inert

theorem escapeHtml_inert {rt : Runtime σ} {v : Value} {w w' : World σ} {t : String}
    (h : escapeHtml rt v true w = (.ok t, w')) : Inert t.toList :=
  (escapeWithin_escaped h).inert

/-! ### Interpolations -/

namespace Segment

/-- Whether a segment is literal text or an escaped interpolation. -/
def interpolates : Segment → Bool
  | text _ | escaped _ => true
  | raw _ | conditional .. | loop .. | each .. => false

/-- The items of such a segment. -/
def items : Segment → List Item
  | text t => ofChars t.toList
  | _ => [.hole]

/-- What a segment writes comes of its items. -/
theorem render_fills {env : Env σ}
    (hw : ∀ v w t w', env.options.escape env.runtime v true w = (.ok t, w') → Inert t.toList)
    {s : Segment} (hs : s.interpolates = true) {r r' : Rendering σ} {t : String}
    (h : s.render env r = (.ok t, r')) :
    Fills s.items t.toList := by
  cases s with
  | text u =>
    cases h
    exact fills_ofChars _
  | escaped e =>
    obtain ⟨v, r₁, -, h⟩ := Run.bind_eq_ok_iff.1 h
    rcases ho : env.options.escape env.runtime v true r₁.world with ⟨o, w'⟩
    unfold write at h
    rw [ho] at h
    cases o with
    | error why => cases h
    | ok u =>
      cases h
      have hf := Fills.hole (hw v _ _ _ ho) .nil
      rwa [List.append_nil] at hf
  | raw e => cases hs
  | conditional test body more => cases hs
  | loop header body => cases hs
  | each collection names body => cases hs

end Segment

/-- What interpolations write comes of their items. -/
theorem renderAll_fills {env : Env σ}
    (hw : ∀ v w t w', env.options.escape env.runtime v true w = (.ok t, w') → Inert t.toList)
    {ss : List Segment} (hs : ∀ s ∈ ss, s.interpolates = true) {r r' : Rendering σ} {out t : String}
    (h : renderAll env ss out r = (.ok t, r')) :
    ∃ cs, t.toList = out.toList ++ cs ∧ Fills (ss.flatMap Segment.items) cs := by
  induction ss generalizing out r with
  | nil =>
    rw [renderAll] at h
    cases h
    exact ⟨[], (List.append_nil _).symm, .nil⟩
  | cons s ss ih =>
    rw [List.forall_mem_cons] at hs
    rw [renderAll] at h
    obtain ⟨u, r₁, hu, h⟩ := Run.bind_eq_ok_iff.1 h
    obtain ⟨cs, ht, hcs⟩ := ih hs.2 h
    refine ⟨u.toList ++ cs, ?_, (Segment.render_fills hw hs.1 hu).append hcs⟩
    rw [ht, String.toList_append, List.append_assoc]

end LiveMarkup
