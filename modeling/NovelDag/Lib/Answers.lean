import Mathlib

/-!
# Machines that answer

A machine answers each input and moves on. Its trace lists the inputs with the answers, and what
holds of its state and the trace so far holds of the state that gives an answer and the trace
before it. Inputs that touch only what a part of the outputs does not depend on can be taken out
without a change to that part.
-/

namespace Answers

variable {σ ι ω : Type*} (step : σ → ι → ω × σ)

/-- The inputs with the answers to them. -/
def trace : σ → List ι → List (ι × ω)
  | _, [] => []
  | s, x :: xs => (x, (step s x).1) :: trace (step s x).2 xs

@[simp] theorem trace_nil (s : σ) : trace step s [] = [] := rfl

@[simp] theorem trace_cons (s : σ) (x : ι) (xs : List ι) :
    trace step s (x :: xs) = (x, (step s x).1) :: trace step (step s x).2 xs := rfl

@[simp] theorem map_fst_trace : ∀ (s : σ) (xs : List ι), (trace step s xs).map Prod.fst = xs
  | _, [] => rfl
  | s, x :: xs => by simp [map_fst_trace (step s x).2 xs]

/-- The state after the inputs. -/
def final (s : σ) (xs : List ι) : σ := xs.foldl (fun s x => (step s x).2) s

@[simp] theorem final_nil (s : σ) : final step s [] = s := rfl

@[simp] theorem final_cons (s : σ) (x : ι) (xs : List ι) :
    final step s (x :: xs) = final step (step s x).2 xs := rfl

theorem final_append (s : σ) (xs ys : List ι) :
    final step s (xs ++ ys) = final step (final step s xs) ys := List.foldl_append

@[simp] theorem final_concat (s : σ) (xs : List ι) (x : ι) :
    final step s (xs ++ [x]) = (step (final step s xs) x).2 := by
  simp [final]

theorem trace_append (s : σ) (xs ys : List ι) :
    trace step s (xs ++ ys) = trace step s xs ++ trace step (final step s xs) ys := by
  induction xs generalizing s with
  | nil => rfl
  | cons x xs ih => simp [ih]

@[simp] theorem trace_concat (s : σ) (xs : List ι) (x : ι) :
    trace step s (xs ++ [x]) = trace step s xs ++ [(x, (step (final step s xs) x).1)] := by
  rw [trace_append]
  rfl

/-- An answer of a trace is given in the state after the inputs before it. -/
theorem trace_eq_append {s : σ} {xs : List ι} {pre post : List (ι × ω)} {x : ι} {a : ω}
    (h : trace step s xs = pre ++ (x, a) :: post) :
    pre.map Prod.fst ++ [x] <+: xs ∧ trace step s (pre.map Prod.fst) = pre ∧
      a = (step (final step s (pre.map Prod.fst)) x).1 := by
  have hxs : xs = pre.map Prod.fst ++ x :: post.map Prod.fst := by
    rw [← map_fst_trace step s xs, h]
    simp
  have hlength : (trace step s (pre.map Prod.fst)).length = pre.length := by
    rw [← List.length_map Prod.fst, map_fst_trace, List.length_map]
  rw [hxs, trace_append] at h
  obtain ⟨hpre, hrest⟩ := List.append_inj h hlength
  refine ⟨⟨post.map Prod.fst, by rw [hxs]; simp⟩, hpre, ?_⟩
  rw [trace_cons, List.cons.injEq, Prod.mk.injEq] at hrest
  exact hrest.1.2.symm

section Invariant

variable {step} {I : σ → List (ι × ω) → Prop}

/-- What holds at the start and is kept by every answer, holds at the end. -/
theorem exists_final : ∀ {xs : List ι} {s : σ} {h : List (ι × ω)}, I s h →
    (∀ s h x, x ∈ xs → I s h → I (step s x).2 (h ++ [(x, (step s x).1)])) →
      ∃ t, I t (h ++ trace step s xs)
  | [], s, h, hI, _ => ⟨s, by simpa using hI⟩
  | x :: xs, s, h, hI, hstep => by
    obtain ⟨t, ht⟩ := exists_final (hstep s h x List.mem_cons_self hI)
      fun s h y hy => hstep s h y (List.mem_cons_of_mem _ hy)
    exact ⟨t, by simpa using ht⟩

/-- What holds at the start and is kept by every answer, holds of the state that gives an answer
and the trace before it. -/
theorem exists_before : ∀ {xs : List ι} {s : σ} {h : List (ι × ω)}, I s h →
    (∀ s h x, x ∈ xs → I s h → I (step s x).2 (h ++ [(x, (step s x).1)])) →
      ∀ {pre post : List (ι × ω)} {x : ι} {a : ω}, trace step s xs = pre ++ (x, a) :: post →
        ∃ t, I t (h ++ pre) ∧ x ∈ xs ∧ (step t x).1 = a
  | [], _, _, _, _, _, _, _, _, he => by simp at he
  | y :: xs, s, h, hI, hstep, pre, post, x, a, he => by
    rw [trace_cons] at he
    rcases pre with _ | ⟨e, pre⟩
    · obtain ⟨hx, -⟩ := List.cons.inj he
      obtain ⟨rfl, rfl⟩ := Prod.mk.inj hx
      exact ⟨s, by simpa using hI, List.mem_cons_self, rfl⟩
    · obtain ⟨rfl, hxs⟩ := List.cons.inj he
      obtain ⟨t, ht, hx, ha⟩ := exists_before (hstep s h y List.mem_cons_self hI)
        (fun s h z hz => hstep s h z (List.mem_cons_of_mem _ hz)) hxs
      exact ⟨t, by simpa using ht, List.mem_cons_of_mem _ hx, ha⟩

/-- What holds at the start and is kept by every answer, in the state it is given in, holds after
every part of the inputs. -/
theorem final_induction {xs : List ι} {s : σ} (h₀ : I s [])
    (hstep : ∀ pre x, pre ++ [x] <+: xs → I (final step s pre) (trace step s pre) →
      I (final step s (pre ++ [x])) (trace step s (pre ++ [x]))) (pre : List ι) (h : pre <+: xs) :
    I (final step s pre) (trace step s pre) := by
  induction pre using List.reverseRecOn with
  | nil => exact h₀
  | append_singleton pre x ih => exact hstep pre x h (ih ((List.prefix_append _ _).trans h))

end Invariant

section Views

variable {step} {τ β : Type*} (view : σ → τ)

/-- A machine seen through `view` is the machine its steps are seen as. -/
theorem trace_view {κ : Type*} {step' : τ → κ → β × τ} {key : ι → κ} {out : ω → β}
    (h : ∀ s x, (out (step s x).1, view (step s x).2) = step' (view s) (key x)) :
    ∀ (s : σ) (xs : List ι),
      (trace step s xs).map (fun e => (key e.1, out e.2)) = trace step' (view s) (xs.map key)
  | _, [] => rfl
  | s, x :: xs => by
    simp only [trace_cons, List.map_cons, ← h s x, trace_view h (step s x).2 xs]

/-- Two machines that look alike through `view` give the same outputs of a kind when one of them
reads only the inputs the view and the outputs of that kind depend on. -/
theorem filterMap_trace_filter {reads : ι → Bool} {out : ω → Option β}
    (hskip : ∀ s x, reads x = false → view (step s x).2 = view s ∧ out (step s x).1 = none)
    (hread : ∀ s t x, reads x = true → view s = view t →
      view (step s x).2 = view (step t x).2 ∧ out (step s x).1 = out (step t x).1) :
    ∀ (xs : List ι) {s t : σ}, view s = view t →
      (trace step s xs).filterMap (fun e => out e.2) =
        (trace step t (xs.filter reads)).filterMap fun e => out e.2
  | [], _, _, _ => rfl
  | x :: xs, s, t, h => by
    rcases hx : reads x with _ | _
    · obtain ⟨hview, hout⟩ := hskip s x hx
      have ih := filterMap_trace_filter hskip hread xs (hview.trans h)
      simpa [hx, hout] using ih
    · obtain ⟨hview, hout⟩ := hread s t x hx h
      have ih := filterMap_trace_filter hskip hread xs hview
      simp [hx, hout, ih, List.filterMap_cons]

end Views

end Answers
