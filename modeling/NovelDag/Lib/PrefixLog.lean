import Mathlib

/-!
# Logs that grow at their ends

A machine reads inputs one by one and appends to its log; `run` is its log and its state, a state
of `none` once a step has failed. Two logs agree when one is a prefix of the other. Logs built
from batches agree as soon as the batches at each common place do.
-/

namespace PrefixLog

variable {α β σ ι ω : Type*}

/-- One of the two logs is a prefix of the other. -/
def Comparable (l₁ l₂ : List α) : Prop := l₁ <+: l₂ ∨ l₂ <+: l₁

instance [DecidableEq α] (l₁ l₂ : List α) : Decidable (Comparable l₁ l₂) :=
  inferInstanceAs (Decidable (_ ∨ _))

/-- An input and what was read before it, by their place. -/
theorem take_of_prefix_concat {ys xs : List α} {x : α} (h : ys ++ [x] <+: xs) :
    ys = xs.take ys.length ∧ xs[ys.length]? = some x := by
  obtain ⟨zs, rfl⟩ := h
  simp

/-- What holds at each place of a list holds of each input after those before it. -/
theorem forall_prefix_concat {P : List α → α → Prop} {xs : List α}
    (h : ∀ i < xs.length, ∀ x ∈ xs[i]?, P (xs.take i) x) :
    ∀ (ys : List α) (x : α), ys ++ [x] <+: xs → P ys x := by
  intro ys x hp
  obtain ⟨hys, hx⟩ := take_of_prefix_concat hp
  rw [hys]
  exact h ys.length (List.getElem?_eq_some_iff.1 hx).1 x hx

namespace Comparable

theorem refl (l : List α) : Comparable l l := .inl (List.prefix_refl l)

theorem symm {l₁ l₂ : List α} (h : Comparable l₁ l₂) : Comparable l₂ l₁ := Or.symm h

theorem map (f : α → β) {l₁ l₂ : List α} (h : Comparable l₁ l₂) :
    Comparable (l₁.map f) (l₂.map f) :=
  h.imp (fun h => h.map f) fun h => h.map f

theorem flatten {l₁ l₂ : List (List α)} (h : Comparable l₁ l₂) :
    Comparable l₁.flatten l₂.flatten :=
  h.imp (fun h => h.flatten) fun h => h.flatten

end Comparable

section Machine

variable (step : σ → ι → Option (σ × List ω))

/-- One input: the log is extended if the step succeeds, and the machine stops for good if not. -/
def advance (r : Option σ × List ω) (x : ι) : Option σ × List ω :=
  match r.1 with
  | none => r
  | some s =>
    match step s x with
    | none => (none, r.2)
    | some (s', out) => (some s', r.2 ++ out)

/-- The state and the log after the inputs `xs`. -/
def run (s₀ : σ) (xs : List ι) : Option σ × List ω := xs.foldl (advance step) (some s₀, [])

@[simp] theorem run_nil (s₀ : σ) : run step s₀ [] = (some s₀, []) := rfl

@[simp] theorem run_concat (s₀ : σ) (xs : List ι) (x : ι) :
    run step s₀ (xs ++ [x]) = advance step (run step s₀ xs) x := by
  simp [run, List.foldl_append]

theorem advance_of_some {r : Option σ × List ω} {s s' : σ} {x : ι} {out : List ω}
    (hr : r.1 = some s) (h : step s x = some (s', out)) :
    advance step r x = (some s', r.2 ++ out) := by
  simp [advance, hr, h]

/-- What holds at the start and is kept by every step that succeeds, holds while the machine
runs. -/
theorem run_induction {s₀ : σ} {P : List ι → σ → List ω → Prop} (h₀ : P [] s₀ []) (xs : List ι)
    (hs : ∀ ys x s s' out, ys ++ [x] <+: xs → (run step s₀ ys).1 = some s →
      P ys s (run step s₀ ys).2 → step s x = some (s', out) →
        P (ys ++ [x]) s' ((run step s₀ ys).2 ++ out)) :
    ∀ s, (run step s₀ xs).1 = some s → P xs s (run step s₀ xs).2 := by
  induction xs using List.reverseRecOn with
  | nil => intro s h; simp only [run_nil, Option.some.injEq] at h; subst h; exact h₀
  | append_singleton ys x ih =>
    intro s h
    have ih' := ih fun zs z s s' out hz => hs zs z s s' out
      (hz.trans (List.prefix_append ys [x]))
    rw [run_concat] at h ⊢
    unfold advance at h ⊢
    rcases hr : (run step s₀ ys).1 with _ | s₁
    · simp [hr] at h
    · rcases hst : step s₁ x with _ | ⟨s₂, out⟩
      · simp [hr, hst] at h
      · simp only [hr, hst, Option.some.injEq] at h ⊢
        subst h
        exact hs ys x s₁ s₂ out (List.prefix_refl _) hr (ih' s₁ hr) hst

/-- What holds at one moment and is kept by every step that succeeds, holds later. -/
theorem run_append_induction {s₀ s : σ} {P : σ → Prop} {ys : List ι}
    (hr : (run step s₀ ys).1 = some s) (h : P s)
    (hs : ∀ s x s' out, P s → step s x = some (s', out) → P s') (zs : List ι) :
    ∀ s', (run step s₀ (ys ++ zs)).1 = some s' → P s' := by
  induction zs using List.reverseRecOn with
  | nil =>
    intro s' hs'
    rw [List.append_nil, hr] at hs'
    exact Option.some.inj hs' ▸ h
  | append_singleton zs z ih =>
    intro s' hs'
    rw [← List.append_assoc, run_concat] at hs'
    unfold advance at hs'
    rcases hr' : (run step s₀ (ys ++ zs)).1 with _ | s₁
    · simp [hr'] at hs'
    · rcases hst : step s₁ z with _ | ⟨s₂, out⟩
      · simp [hr', hst] at hs'
      · simp only [hr', hst, Option.some.injEq] at hs'
        exact hs' ▸ hs s₁ z s₂ out (ih s₁ hr') hst

/-- When what holds at the start lets every step succeed and is kept by it, the machine never
stops. -/
theorem run_total {s₀ : σ} {P : List ι → σ → List ω → Prop} (h₀ : P [] s₀ []) (xs : List ι)
    (hs : ∀ ys x s log, ys ++ [x] <+: xs → P ys s log →
      ∃ s' out, step s x = some (s', out) ∧ P (ys ++ [x]) s' (log ++ out)) :
    ∃ s, (run step s₀ xs).1 = some s ∧ P xs s (run step s₀ xs).2 := by
  induction xs using List.reverseRecOn with
  | nil => exact ⟨s₀, rfl, h₀⟩
  | append_singleton ys x ih =>
    obtain ⟨s, hr, hP⟩ := ih fun zs z s log hz => hs zs z s log
      (hz.trans (List.prefix_append ys [x]))
    obtain ⟨s', out, hstep, hP'⟩ := hs ys x s _ (List.prefix_refl _) hP
    rw [run_concat, advance_of_some step hr hstep]
    exact ⟨s', rfl, hP'⟩

/-- A machine that has not stopped has made a step for every input. -/
theorem exists_step_of_mem {s₀ : σ} {x : ι} : ∀ {xs : List ι}, (run step s₀ xs).1.isSome →
    x ∈ xs → ∃ s, (step s x).isSome := by
  intro xs
  induction xs using List.reverseRecOn with
  | nil => exact fun _ hx => absurd hx List.not_mem_nil
  | append_singleton ys y ih =>
    intro h hx
    rw [run_concat] at h
    unfold advance at h
    rcases hr : (run step s₀ ys).1 with _ | s
    · simp [hr] at h
    · rcases List.mem_append.1 hx with hx | hx
      · exact ih (by simp [hr]) hx
      · obtain rfl := List.mem_singleton.1 hx
        refine ⟨s, ?_⟩
        rcases hst : step s x with _ | r
        · simp [hr, hst] at h
        · rfl

/-- A stopped machine's log is the one it had at its last running moment. -/
theorem exists_running (s₀ : σ) (xs : List ι) :
    ∃ ys s, ys <+: xs ∧ (run step s₀ ys).1 = some s
      ∧ (run step s₀ ys).2 = (run step s₀ xs).2 := by
  induction xs using List.reverseRecOn with
  | nil => exact ⟨[], s₀, List.prefix_refl _, rfl, rfl⟩
  | append_singleton ys x ih =>
    obtain ⟨zs, s, hz, hs, hl⟩ := ih
    rw [run_concat]
    unfold advance
    rcases hr : (run step s₀ ys).1 with _ | s₁
    · simp only
      exact ⟨zs, s, hz.trans (List.prefix_append _ _), hs, hl⟩
    · rcases hst : step s₁ x with _ | ⟨s₂, out⟩
      · exact ⟨ys, s₁, List.prefix_append _ _, hr, by simp [hst]⟩
      · refine ⟨ys ++ [x], s₂, List.prefix_refl _, ?_, ?_⟩
        · rw [run_concat, advance_of_some step hr hst]
        · rw [run_concat, advance_of_some step hr hst]
          simp [hst]

end Machine

end PrefixLog
