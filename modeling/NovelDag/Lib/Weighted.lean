import Mathlib

/-!
# Weighted quorums

Sets of voters measured by a weight: two sets that together outweigh everyone share a voter, and
share one outside any set light enough. A loop that adds up the weight of the authors it has not
met before computes the weight of the set of authors met.
-/

namespace Weighted

variable {ι : Type*} (w : ι → ℕ)

/-- The weight of a set. -/
def weight (S : Finset ι) : ℕ := ∑ i ∈ S, w i

theorem weight_mono {S T : Finset ι} (h : S ⊆ T) : weight w S ≤ weight w T :=
  Finset.sum_le_sum_of_subset h

@[simp] theorem weight_empty : weight w ∅ = 0 := rfl

variable [DecidableEq ι]

theorem weight_insert_of_notMem {i : ι} {S : Finset ι} (h : i ∉ S) :
    weight w (insert i S) = w i + weight w S := Finset.sum_insert h

theorem weight_union_add_inter (S T : Finset ι) :
    weight w (S ∪ T) + weight w (S ∩ T) = weight w S + weight w T :=
  Finset.sum_union_inter

/-- A set weighs no more than what is outside another set and that set. -/
theorem weight_le_sdiff_add (S B : Finset ι) : weight w S ≤ weight w (S \ B) + weight w B := by
  have hunion := weight_union_add_inter w (S \ B) B
  have hle := weight_mono w (show S ⊆ S \ B ∪ B by simp)
  omega

/-- Two sets within `U` that together weigh more than `U` and `B` share a member outside `B`. -/
theorem exists_mem_inter_notMem {S T U B : Finset ι} (hS : S ⊆ U) (hT : T ⊆ U)
    (h : weight w U + weight w B < weight w S + weight w T) : ∃ i ∈ S, i ∈ T ∧ i ∉ B := by
  by_contra hno
  push Not at hno
  have hB : S ∩ T ⊆ B := fun i hi => hno i (Finset.mem_inter.1 hi).1 (Finset.mem_inter.1 hi).2
  have h₁ := weight_union_add_inter w S T
  have h₂ := weight_mono w (Finset.union_subset hS hT)
  have h₃ := weight_mono w hB
  omega

/-- Two sets within `U` that together weigh more than `U` share a member. -/
theorem exists_mem_inter {S T U : Finset ι} (hS : S ⊆ U) (hT : T ⊆ U)
    (h : weight w U < weight w S + weight w T) : ∃ i ∈ S, i ∈ T := by
  obtain ⟨i, hi, hj, -⟩ := exists_mem_inter_notMem w (B := ∅) hS hT (by simpa using h)
  exact ⟨i, hi, hj⟩

omit [DecidableEq ι] in
/-- A set of positive weight has a member. -/
theorem nonempty_of_pos {S : Finset ι} (h : 0 < weight w S) : S.Nonempty := by
  by_contra hne
  rw [Finset.not_nonempty_iff_eq_empty] at hne
  simp [hne] at h

/-- Voters whose weight is zero outside `U` weigh what their part in `U` does. -/
theorem weight_inter_of_zero {S U : Finset ι} (h : ∀ i, i ∉ U → w i = 0) :
    weight w (S ∩ U) = weight w S :=
  Finset.sum_subset Finset.inter_subset_left fun i hi hni =>
    h i fun hU => hni (Finset.mem_inter.2 ⟨hi, hU⟩)

theorem weight_insert_le (i : ι) (S : Finset ι) : weight w (insert i S) ≤ w i + weight w S := by
  by_cases h : i ∈ S
  · rw [Finset.insert_eq_of_mem h]
    omega
  · rw [weight_insert_of_notMem w h]

/-- A voter counted twice weighs once in the set. -/
theorem weight_toFinset_le : ∀ l : List ι, weight w l.toFinset ≤ (l.map w).sum
  | [] => by simp
  | i :: l => by
    have ih := weight_toFinset_le l
    have hinsert := weight_insert_le w i l.toFinset
    rw [List.toFinset_cons, List.map_cons, List.sum_cons]
    omega

theorem sum_map_eq_weight {l : List ι} (h : l.Nodup) : (l.map w).sum = weight w l.toFinset :=
  (List.sum_toFinset w h).symm

end Weighted
