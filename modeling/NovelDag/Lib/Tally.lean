import NovelDag.Lib.Answers
import NovelDag.Lib.Weighted

/-!
# A tally that starts again

A tally adds up the weight of the voters it has not met before and says so when the weight reaches
a threshold. Then the weight starts again from zero while the voters met stay met. When all voters
together weigh less than two thresholds it reaches the threshold once at most.
-/

namespace Weighted

open Answers

structure Tally (κ : Type*) where
  weight : ℕ := 0
  used : Finset κ := ∅

variable {κ : Type*} [DecidableEq κ] (w : κ → ℕ) (t : ℕ)

/-- Count a voter, and tell whether the threshold is reached. -/
def Tally.count (s : Tally κ) (k : κ) : Bool × Tally κ :=
  if k ∈ s.used then (false, s)
  else if t ≤ s.weight + w k then (true, { weight := 0, used := insert k s.used })
  else (false, { weight := s.weight + w k, used := insert k s.used })

/-- The voters of a trace. -/
def voters (h : List (κ × Bool)) : Finset κ := (h.map Prod.fst).toFinset

theorem voters_concat (h : List (κ × Bool)) (k : κ) (b : Bool) :
    voters (h ++ [(k, b)]) = insert k (voters h) := by
  ext x
  simp [voters]

/-- The tally after a trace. Once the threshold was reached, what was counted until then weighs at
least the threshold. -/
structure Tally.After (s : Tally κ) (h : List (κ × Bool)) : Prop where
  used : s.used = voters h
  before : Weighted.weight w (voters h) < t → s.weight = Weighted.weight w (voters h)
  after : t ≤ Weighted.weight w (voters h) → s.weight + t ≤ Weighted.weight w (voters h)
  reached : h.countP Prod.snd = if t ≤ Weighted.weight w (voters h) then 1 else 0

variable {w t}

theorem Tally.after_empty (ht : 0 < t) : Tally.After w t {} [] where
  used := rfl
  before _ := rfl
  after h := by simp [voters] at h; omega
  reached := by simp [voters]; omega

/-- The threshold is reached by the voter that brings the weight to it. -/
theorem Tally.After.fst_count {s : Tally κ} {h : List (κ × Bool)} (hs : s.After w t h)
    (hU : ∀ S, Weighted.weight w S < 2 * t) (k : κ) :
    (s.count w t k).1 = true ↔
      Weighted.weight w (voters h) < t ∧ t ≤ Weighted.weight w (insert k (voters h)) := by
  unfold Tally.count
  rw [hs.used]
  by_cases hk : k ∈ voters h
  · simp [hk, Finset.insert_eq_of_mem]
  have hw := weight_insert_of_notMem w hk
  have hk' := hU (insert k (voters h))
  have hb := hs.before
  have ha := hs.after
  split_ifs with hr
  all_goals simp only [true_iff, false_iff, not_and, not_le]
  all_goals omega

theorem Tally.After.count {s : Tally κ} {h : List (κ × Bool)} (hs : s.After w t h)
    (hU : ∀ S, Weighted.weight w S < 2 * t) (k : κ) :
    (s.count w t k).2.After w t (h ++ [(k, (s.count w t k).1)]) := by
  have hfst := hs.fst_count hU k
  have hreached := hs.reached
  have hcount : (h ++ [(k, (s.count w t k).1)]).countP Prod.snd =
      if t ≤ Weighted.weight w (insert k (voters h)) then 1 else 0 := by
    rw [List.countP_append, List.countP_singleton, hreached]
    have hmono := weight_mono w (Finset.subset_insert k (voters h))
    rcases hb : (s.count w t k).1 with _ | _
    · rw [hb] at hfst
      simp only [Bool.false_eq_true, false_iff, not_and, not_le] at hfst
      split_ifs <;> simp_all <;> omega
    · obtain ⟨h₁, h₂⟩ := hfst.1 hb
      simp [h₂, not_le.2 h₁]
  have hw : k ∉ voters h → _ := weight_insert_of_notMem w
  have hused := hs.used
  have hb := hs.before
  have ha := hs.after
  refine ⟨?_, ?_, ?_, ?_⟩
  all_goals rw [voters_concat]
  on_goal 4 => exact hcount
  all_goals
    unfold Tally.count
    rw [hused]
    by_cases hk : k ∈ voters h
    · simp only [hk, if_true, Finset.insert_eq_of_mem]
      assumption
    have hw := hw hk
    simp only [hk, if_false]
    split_ifs
  all_goals first | rfl | (simp only; omega)

/-- In any run the threshold is reached once at most, exactly when the voters met come to weigh as
much as it. -/
theorem Tally.reached_once (ht : 0 < t) (hU : ∀ S, Weighted.weight w S < 2 * t) (ks : List κ) :
    (trace (Tally.count w t) {} ks).countP Prod.snd =
        (if t ≤ Weighted.weight w ks.toFinset then 1 else 0) ∧
      ∀ pre k b post, trace (Tally.count w t) {} ks = pre ++ (k, b) :: post →
        (b = true ↔ Weighted.weight w (voters pre) < t ∧
          t ≤ Weighted.weight w (insert k (voters pre))) := by
  have hstep : ∀ (s : Tally κ) (h : List (κ × Bool)) k, k ∈ ks → s.After w t h →
      (s.count w t k).2.After w t (h ++ [(k, (s.count w t k).1)]) :=
    fun _ _ k _ hs => hs.count hU k
  refine ⟨?_, fun pre k b post he => ?_⟩
  · obtain ⟨s, hs⟩ := exists_final (Tally.after_empty ht) hstep
    simpa [voters] using hs.reached
  · obtain ⟨s, hs, -, rfl⟩ := exists_before (Tally.after_empty ht) hstep he
    simpa using hs.fst_count hU k

end Weighted
