import LiveMarkup.Eval.Template
import LiveMarkup.Proofs.Eval.Run

/-!
# Rounds of a loop

What a loop does is said here without a bound: it goes through complete rounds (`Rounds`), each of
them a test that passes, the body and the step, and then comes to an end (`LoopEnd`), because the
test fails or because a part of the round ends without a result.  `repeatBody_eq_iff` says how a
bound changes this: a loop that renders its body no more often than the bound allows is not touched
by it, and a loop whose test passes once more after that many complete rounds is cut off.
-/

namespace LiveMarkup

theorem Outcome.map_empty_append {ε : Type} (o : Outcome ε String) : o.map ("" ++ ·) = o := by
  cases o <;> simp [map]

section Rounds

variable {σ : Type} (test : Render σ Bool) (body : Render σ String) (step : Render σ Unit)

/-- A number of complete rounds that lead from one state to another, with the text that they
write. -/
inductive Rounds : Nat → Rendering σ → String → Rendering σ → Prop
  | none (s : Rendering σ) : Rounds 0 s "" s
  | more {k : Nat} {s t u v w : Rendering σ} {text out : String} (htest : test s = (.ok true, t))
    (hbody : body t = (.ok text, u)) (hstep : step u = (.ok (), v)) (rest : Rounds k v out w) :
    Rounds (k + 1) s (text ++ out) w

/-- How a loop ends after its complete rounds if nothing cuts it off.  The number says how often its
body is rendered once more. -/
inductive LoopEnd : Nat → Rendering σ → Outcome TemplateError String → Rendering σ → Prop
  | done {s t : Rendering σ} (htest : test s = (.ok false, t)) : LoopEnd 0 s (.ok "") t
  | test {s t : Rendering σ} {f : Outcome TemplateError Empty}
    (htest : test s = (.ofFailure f, t)) :
    LoopEnd 0 s (.ofFailure f) t
  | body {s t u : Rendering σ} {f : Outcome TemplateError Empty} (htest : test s = (.ok true, t))
    (hbody : body t = (.ofFailure f, u)) : LoopEnd 1 s (.ofFailure f) u
  | step {s t u v : Rendering σ} {text : String} {f : Outcome TemplateError Empty}
    (htest : test s = (.ok true, t))
    (hbody : body t = (.ok text, u)) (hstep : step u = (.ofFailure f, v)) :
      LoopEnd 1 s (.ofFailure f) v

/-- A loop that nothing cuts off, from the state before its first test to its end, with the number
of times that its body is rendered. -/
inductive LoopRun : Nat → Rendering σ → Outcome TemplateError String → Rendering σ → Prop
  | stop {i : Nat} {s u : Rendering σ} {o : Outcome TemplateError String}
    (h : LoopEnd test body step i s o u) :
    LoopRun i s o u
  | more {k : Nat} {s t u v w : Rendering σ} {text : String} {o : Outcome TemplateError String}
    (htest : test s = (.ok true, t)) (hbody : body t = (.ok text, u)) (hstep : step u = (.ok (), v))
    (rest : LoopRun k v o w) : LoopRun (k + 1) s (o.map (text ++ ·)) w

variable {test body step}

variable {limit n k j : Nat} {s t u : Rendering σ} {text out : String}
  {o : Outcome TemplateError String}

/-! ### Without a bound -/

/-- After any number of complete rounds the test passes, unless the loop has come to an end
before. -/
theorem exists_rounds_or_run (test : Render σ Bool) (body : Render σ String)
    (step : Render σ Unit) (n : Nat) (s : Rendering σ) :
    (∃ text t u, Rounds test body step n s text t ∧ test t = (.ok true, u)) ∨
      ∃ k ≤ n, ∃ o u, LoopRun test body step k s o u := by
  induction n generalizing s with
  | zero =>
    rcases htest : test s with ⟨o, t⟩
    rcases o.ok_or_failure with ⟨_ | _, rfl⟩ | ⟨f, rfl⟩
    · exact Or.inr ⟨0, Nat.le_refl 0, _, t, .stop (.done htest)⟩
    · exact Or.inl ⟨"", s, t, .none s, htest⟩
    · exact Or.inr ⟨0, Nat.le_refl 0, _, t, .stop (.test htest)⟩
  | succ n ih =>
    -- one part of the first round after the other: each has a result, or the loop ends with it
    rcases htest : test s with ⟨o, t⟩
    rcases o.ok_or_failure with ⟨_ | _, rfl⟩ | ⟨f, rfl⟩
    · exact Or.inr ⟨0, Nat.zero_le _, _, t, .stop (.done htest)⟩
    · rcases hbody : body t with ⟨o, u⟩
      rcases o.ok_or_failure with ⟨text, rfl⟩ | ⟨f, rfl⟩
      · rcases hstep : step u with ⟨o, v⟩
        rcases o.ok_or_failure with ⟨_, rfl⟩ | ⟨f, rfl⟩
        · rcases ih v with ⟨out, w, x, hrounds, hpasses⟩ | ⟨k, hk, o, w, hrun⟩
          · exact Or.inl ⟨text ++ out, w, x, .more htest hbody hstep hrounds, hpasses⟩
          · exact Or.inr ⟨k + 1, Nat.succ_le_succ hk, _, w, .more htest hbody hstep hrun⟩
        · exact Or.inr ⟨1, Nat.le_add_left 1 n, _, v, .stop (.step htest hbody hstep)⟩
      · exact Or.inr ⟨1, Nat.le_add_left 1 n, _, u, .stop (.body htest hbody)⟩
    · exact Or.inr ⟨0, Nat.zero_le _, _, t, .stop (.test htest)⟩

/-- Complete rounds go before a loop. -/
theorem Rounds.run (h : Rounds test body step k s text t) (hrun : LoopRun test body step j t o u) :
    LoopRun test body step (j + k) s (o.map (text ++ ·)) u := by
  induction h with
  | none s => rwa [Outcome.map_empty_append]
  | @more k s t' u' v w text out htest hbody hstep rest ih =>
    have hmap : o.map (text ++ out ++ ·) = (o.map (out ++ ·)).map (text ++ ·) := by
      cases o <;> simp [Outcome.map, String.append_assoc]
    rw [hmap]
    exact .more htest hbody hstep (ih hrun)

/-- One more complete round at the end. -/
theorem Rounds.snoc {v w : Rendering σ} (h : Rounds test body step k s out t)
    (htest : test t = (.ok true, u)) (hbody : body u = (.ok text, v))
    (hstep : step v = (.ok (), w)) :
    Rounds test body step (k + 1) s (out ++ text) w := by
  induction h with
  | none s =>
    rw [String.empty_append, ← String.append_empty (s := text)]
    exact .more htest hbody hstep (.none w)
  | more htest' hbody' hstep' _ ih =>
    rw [String.append_assoc]
    exact .more htest' hbody' hstep' (ih htest)

/-- A loop that renders its body more than `n` times passes its test after `n` complete rounds. -/
theorem LoopRun.passes (h : LoopRun test body step k s o u) (hn : n < k) :
    ∃ text t v, Rounds test body step n s text t ∧ test t = (.ok true, v) := by
  induction h generalizing n with
  | stop h =>
    cases h with
    | done | test => exact (Nat.not_lt_zero n hn).elim
    | body htest | step htest =>
      obtain rfl := Nat.lt_one_iff.1 hn
      exact ⟨"", _, _, .none _, htest⟩
  | more htest hbody hstep rest ih =>
    cases n with
    | zero => exact ⟨"", _, _, .none _, htest⟩
    | succ n =>
      obtain ⟨out, t, v, hrounds, hpasses⟩ := ih (Nat.lt_of_succ_lt_succ hn)
      exact ⟨_, t, v, .more htest hbody hstep hrounds, hpasses⟩

/-- Where neither the test nor the step ends with an error, a loop that does has it from its
body. -/
theorem LoopRun.body_error {e : TemplateError} (htests : ∀ s t, test s ≠ (.error e, t))
    (hsteps : ∀ s t, step s ≠ (.error e, t)) (h : LoopRun test body step k s (.error e) u) :
    ∃ j < k, ∃ text t v, Rounds test body step j s text t ∧ test t = (.ok true, v) ∧
      body v = (.error e, u) := by
  generalize ho : (.error e : Outcome TemplateError String) = o at h
  have hfailure {f : Outcome TemplateError Empty}
    (hf : (.error e : Outcome TemplateError String) = .ofFailure f) :
      .error e = f :=
    Outcome.ofFailure_injective hf
  induction h with
  | stop h =>
    cases h with
    | done htest => cases ho
    | test htest =>
      obtain rfl := hfailure ho
      exact (htests _ _ htest).elim
    | body htest hbody =>
      obtain rfl := hfailure ho
      exact ⟨0, Nat.zero_lt_one, "", _, _, .none _, htest, hbody⟩
    | step htest hbody hstep =>
      obtain rfl := hfailure ho
      exact (hsteps _ _ hstep).elim
  | @more k s t u v w text o htest hbody hstep rest ih =>
    cases o <;> cases ho
    obtain ⟨j, hj, out, t', v', hrounds, hpasses, herror⟩ := ih rfl
    exact ⟨j + 1, Nat.succ_lt_succ hj, text ++ out, t', v', .more htest hbody hstep hrounds,
      hpasses, herror⟩

/-! ### With a bound -/

theorem repeatBody_of_rounds (h : Rounds test body step k s text t) :
    repeatBody limit test body step (n + k) out s = repeatBody limit test body step n
    (out ++ text) t := by
  induction h generalizing out with
  | none s =>
    rw [String.append_empty]
    rfl
  | more htest hbody hstep rest ih =>
    rw [← Nat.add_assoc, repeatBody, Run.bind_eq_of_ok htest, if_pos rfl, Run.bind_eq_of_ok hbody,
      Run.bind_eq_of_ok hstep, ih, String.append_assoc]

/-- A loop whose test passes after as many complete rounds as the bound allows is cut off. -/
theorem repeatBody_of_passes (h : Rounds test body step n s text t)
    (htest : test t = (.ok true, u)) :
    repeatBody limit test body step n out s = (.error (.loopExceeded limit), u) := by
  calc repeatBody limit test body step n out s
      = repeatBody limit test body step 0 (out ++ text) t := by
        rw [← repeatBody_of_rounds h, Nat.zero_add]
    _ = (.error (.loopExceeded limit), u) := by
      rw [repeatBody, Run.bind_eq_of_ok htest, if_pos rfl]
      rfl

theorem repeatBody_of_end (h : LoopEnd test body step k s o u) (hk : k ≤ n) :
    repeatBody limit test body step n out s = (o.map (out ++ ·), u) := by
  cases h with
  | done htest =>
    cases n <;> rw [repeatBody, Run.bind_eq_of_ok htest] <;> simp [Outcome.map] <;> rfl
  | test htest =>
    cases n <;> rw [repeatBody, Run.bind_eq_of_failure htest, Outcome.map_ofFailure]
  | body htest hbody =>
    obtain ⟨n, rfl⟩ := Nat.exists_eq_add_of_le' hk
    rw [repeatBody, Run.bind_eq_of_ok htest, if_pos rfl, Run.bind_eq_of_failure hbody,
      Outcome.map_ofFailure]
  | step htest hbody hstep =>
    obtain ⟨n, rfl⟩ := Nat.exists_eq_add_of_le' hk
    rw [repeatBody, Run.bind_eq_of_ok htest, if_pos rfl, Run.bind_eq_of_ok hbody,
      Run.bind_eq_of_failure hstep, Outcome.map_ofFailure]

/-- A loop that renders its body no more often than the bound allows is not touched by the bound. -/
theorem repeatBody_of_run (h : LoopRun test body step k s o u) (hk : k ≤ n) :
    repeatBody limit test body step n out s = (o.map (out ++ ·), u) := by
  induction h generalizing n out with
  | stop h => exact repeatBody_of_end h hk
  | @more k s t u v w text o htest hbody hstep rest ih =>
    obtain ⟨n, rfl⟩ := Nat.exists_eq_add_of_le' hk
    rw [← Nat.add_assoc, repeatBody, Run.bind_eq_of_ok htest, if_pos rfl, Run.bind_eq_of_ok hbody,
      Run.bind_eq_of_ok hstep, ih (Nat.le_add_left k n), Outcome.map_map]
    simp only [Function.comp_def, String.append_assoc]

theorem repeatBody_eq_iff :
    repeatBody limit test body step n "" s = (o, u) ↔
      (∃ k ≤ n, LoopRun test body step k s o u) ∨
        o = .error (.loopExceeded limit) ∧ ∃ text t, Rounds test body step n s text t ∧
        test t = (.ok true, u) := by
  constructor
  · intro h
    rcases exists_rounds_or_run test body step n s with
      ⟨text, t, u', hrounds, hpasses⟩ | ⟨k, hk, o', u', hrun⟩
    · rw [repeatBody_of_passes hrounds hpasses] at h
      cases h
      exact Or.inr ⟨rfl, text, t, hrounds, hpasses⟩
    · rw [repeatBody_of_run hrun hk, Outcome.map_empty_append] at h
      cases h
      exact Or.inl ⟨k, hk, hrun⟩
  · rintro (⟨k, hk, hrun⟩ | ⟨rfl, text, t, hrounds, hpasses⟩)
    · rw [repeatBody_of_run hrun hk, Outcome.map_empty_append]
    · exact repeatBody_of_passes hrounds hpasses

end Rounds

end LiveMarkup
