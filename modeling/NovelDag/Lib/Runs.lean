import NovelDag.Lib.Fallible

/-!
# Runs of a machine that may fail

A run folds a step that may fail over a list of events. An invariant that every step keeps holds in
every state a run ends in, and a step that never fails in a state of the invariant makes no run fail.
Where a step may be impossible, what is shown of a state may depend on the events that led to it.
-/

namespace Runs

open Fallible

variable {ε σ ι : Type} {step : σ → ι → Except ε σ} {events : List ι} {s t : σ}

/-- What every step keeps holds where a run ends well. -/
theorem foldlM_induction {P : σ → Prop} (h0 : P s)
    (hstep : ∀ s event t, event ∈ events → P s → step s event = .ok t → P t)
    (h : events.foldlM step s = .ok t) : P t := by
  induction events generalizing s with
  | nil =>
    rw [List.foldlM_nil] at h
    exact Except.ok.inj h ▸ h0
  | cons event events ih =>
    obtain ⟨u, hu, h⟩ := bind_eq_ok.1 (List.foldlM_cons.symm.trans h)
    exact ih (hstep s event u List.mem_cons_self h0 hu)
      (fun s e t he => hstep s e t (List.mem_cons_of_mem _ he)) h

/-- A run does not fail where no step from a state of the invariant does. -/
theorem foldlM_total {P : σ → Prop} (h0 : P s)
    (hstep : ∀ s event, event ∈ events → P s → ∃ t, step s event = .ok t ∧ P t) :
    ∃ t, events.foldlM step s = .ok t ∧ P t := by
  induction events generalizing s with
  | nil => exact ⟨s, rfl, h0⟩
  | cons event events ih =>
    obtain ⟨u, hu, hP⟩ := hstep s event List.mem_cons_self h0
    obtain ⟨t, ht, hP⟩ := ih hP fun s e he => hstep s e (List.mem_cons_of_mem _ he)
    refine ⟨t, ?_, hP⟩
    rw [List.foldlM_cons, hu]
    exact ht

/-- The state a run was in before its last event. -/
theorem foldlM_concat_eq_ok {event : ι} : (events ++ [event]).foldlM step s = .ok t ↔
    ∃ u, events.foldlM step s = .ok u ∧ step u event = .ok t := by
  rw [List.foldlM_append, bind_eq_ok]
  refine exists_congr fun u => and_congr_right fun _ => ?_
  rw [List.foldlM_cons, bind_eq_ok]
  exact ⟨fun ⟨v, hv, h⟩ => Except.ok.inj h ▸ hv, fun h => ⟨t, h, rfl⟩⟩

/-- What is kept by every step of a run that is possible, along with the events so far. -/
theorem foldlM_some_induction {step : σ → ι → Option σ} {P : List ι → σ → Prop} (h0 : P [] s)
    (hstep : ∀ before event s t, P before s → step s event = some t → P (before ++ [event]) t)
    (h : events.foldlM step s = some t) : P events t := by
  have key : ∀ (l before : List ι) (s : σ), P before s → l.foldlM step s = some t →
      P (before ++ l) t := by
    intro l
    induction l with
    | nil =>
      intro before s hs h
      rw [List.foldlM_nil] at h
      rw [List.append_nil, ← Option.some.inj h]
      exact hs
    | cons event l ih =>
      intro before s hs h
      rw [List.foldlM_cons] at h
      obtain ⟨u, hu, h⟩ := Option.bind_eq_some_iff.1 h
      rw [List.append_cons]
      exact ih _ u (hstep before event s u hs hu) h
  exact key events [] s h0 h

/-- The state a run was in before its last event. -/
theorem foldlM_concat_eq_some {step : σ → ι → Option σ} {event : ι} :
    (events ++ [event]).foldlM step s = some t ↔
      ∃ u, events.foldlM step s = some u ∧ step u event = some t := by
  rw [List.foldlM_append, Option.bind_eq_bind, Option.bind_eq_some_iff]
  refine exists_congr fun u => and_congr_right fun _ => ?_
  rw [List.foldlM_cons, Option.bind_eq_bind, Option.bind_eq_some_iff]
  exact ⟨fun ⟨v, hv, h⟩ => Option.some.inj h ▸ hv, fun h => ⟨t, h, rfl⟩⟩

end Runs
