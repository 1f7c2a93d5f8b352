import NovelDag.Machine

/-!
# Where the width of the integers matters

The two thresholds are what the proofs on natural numbers say as long as twice the total stake fits
a `Stake`, and the leader of a coin value is at the index of the sum as long as the sum fits.
-/

namespace NovelDag

/-! ## Thresholds -/

section Thresholds

variable (c : Committee)

/-- The thresholds are computed, and are those of a committee with fewer than a third of the stake
Byzantine. -/
def QuorumArithmetic : Prop :=
  ∃ q v, c.checkedQuorumThreshold = some q ∧ c.checkedValidityThreshold = some v ∧
    q ≤ c.totalVotes ∧ (c.totalVotes : ℤ) - q < 2 * q - c.totalVotes ∧ c.totalVotes < q + v ∧
      q = c.totalVotes - (c.totalVotes - 1) / 3

variable {c} {q v : ℕ}

theorem checkedTotalVotes_eq_some {n : ℕ} :
    c.checkedTotalVotes = some n ↔ c.totalVotes = n ∧ c.totalVotes < 2 ^ 32 :=
  Checked.sum_eq_some

/-- The quorum threshold is computed exactly if twice the stake fits. -/
theorem checkedQuorumThreshold_eq_some :
    c.checkedQuorumThreshold = some q ↔ q = c.quorumThreshold ∧ c.totalVotes < 2 ^ 31 := by
  unfold Committee.checkedQuorumThreshold Committee.quorumThreshold
  simp only [Option.bind_eq_bind, Option.bind_eq_some_iff, checkedTotalVotes_eq_some,
    Checked.mul_eq_some, Checked.add_eq_some]
  constructor
  · rintro ⟨_, ⟨rfl, -⟩, _, ⟨rfl, htwice⟩, hq, -⟩
    omega
  · rintro ⟨rfl, htotal⟩
    exact ⟨_, ⟨rfl, by omega⟩, _, ⟨rfl, by omega⟩, rfl, by omega⟩

theorem checkedValidityThreshold_eq_some :
    c.checkedValidityThreshold = some v ↔
      v = c.validityThreshold ∧ c.totalVotes + 2 < 2 ^ 32 := by
  unfold Committee.checkedValidityThreshold Committee.validityThreshold
  simp only [Option.bind_eq_bind, Option.bind_eq_some_iff, checkedTotalVotes_eq_some,
    Checked.add_eq_some, Option.pure_def, Option.some.injEq]
  constructor
  · rintro ⟨_, ⟨rfl, -⟩, _, ⟨rfl, hsum⟩, rfl⟩
    exact ⟨rfl, hsum⟩
  · rintro ⟨rfl, hsum⟩
    exact ⟨_, ⟨rfl, by omega⟩, _, ⟨rfl, hsum⟩, rfl⟩

/-- A member with stake makes the total positive. -/
theorem totalVotes_pos {name : PublicKey} (h : 0 < c.stake name) : 0 < c.totalVotes := by
  have hone := c.weight_le_totalVotes {name}
  unfold Weighted.weight at hone
  rw [Finset.sum_singleton] at hone
  omega

/-- The thresholds are right exactly for the totals whose double fits a `Stake`. -/
theorem quorumArithmetic_iff (hne : c.names ≠ []) (hpos : ∀ a ∈ c.names, 0 < c.stake a)
    (hfits : c.totalVotes < 2 ^ 32) : QuorumArithmetic c ↔ c.totalVotes < 2 ^ 31 := by
  obtain ⟨a, ha⟩ := List.exists_mem_of_ne_nil _ hne
  have htotal := totalVotes_pos (hpos a ha)
  unfold QuorumArithmetic
  simp only [checkedQuorumThreshold_eq_some, checkedValidityThreshold_eq_some]
  constructor
  · rintro ⟨_, _, ⟨-, hdouble⟩, -⟩
    exact hdouble
  · intro hdouble
    refine ⟨_, _, ⟨rfl, hdouble⟩, ⟨rfl, by omega⟩, ?_⟩
    unfold Committee.quorumThreshold Committee.validityThreshold
    omega

end Thresholds

/-- One authority with half of the values of a `Stake`. -/
def heavyCommittee : Committee := ⟨SortedMap.ofList [(0, ⟨2 ^ 31, [0]⟩)]⟩

theorem not_quorumArithmetic : heavyCommittee.names ≠ [] ∧
    (∀ a ∈ heavyCommittee.names, 0 < heavyCommittee.stake a) ∧
    heavyCommittee.totalVotes < 2 ^ 32 ∧ ¬ QuorumArithmetic heavyCommittee := by
  refine ⟨by decide, by decide, by decide, ?_⟩
  rintro ⟨q, v, hq, -⟩
  have hnone : heavyCommittee.checkedQuorumThreshold = none := by decide
  rw [hnone] at hq
  cases hq

theorem quorumArithmetic_four : QuorumArithmetic (Committee.uniform 4) :=
  (quorumArithmetic_iff (by decide) (by decide) (by decide)).2
    (by decide)

/-! ## Leaders -/

section Leaders

variable {authorities : List PublicKey} {c : CoinCommittee}

theorem ofSlice_authorities (h : CoinCommittee.ofSlice authorities = .ok c) :
    c.authorities = (SortedSet.ofList authorities).toList := by
  unfold CoinCommittee.ofSlice at h
  simp only [] at h
  split_ifs at h
  obtain rfl := Except.ok.inj h
  rfl

/-- No authority is there twice. -/
theorem authorityAt_inj (h : CoinCommittee.ofSlice authorities = .ok c) {i j : ℕ} :
    c.authorityAt i = c.authorityAt j ↔ i % c.authorities.length = j % c.authorities.length := by
  have hnodup : c.authorities.Nodup := by
    rw [ofSlice_authorities h]
    exact (SortedSet.ofList authorities).nodup
  unfold CoinCommittee.authorityAt
  rw [hnodup.get_inj_iff, Fin.mk.injEq]

theorem leader_eq_authorityAt (c : CoinCommittee) (value offset : ℕ) :
    c.leader value offset = c.authorityAt ((value + offset) % 2 ^ 64) := rfl

/-- The leader is at the index of the sum: with overflow checks exactly if the sum fits, and in a
release build also where the size of the committee divides what wraps. Where the sums fit, two
offsets have two leaders. -/
theorem leader_index_iff (value offset : ℕ) (h : CoinCommittee.ofSlice authorities = .ok c)
    (hvalue : value < 2 ^ 64) (hoffset : offset < c.authorities.length)
    (hword : c.authorities.length < 2 ^ 64) :
    (c.checkedLeader value offset = some (c.authorityAt (value + offset)) ↔
        value + offset < 2 ^ 64) ∧
      (c.leader value offset = c.authorityAt (value + offset) ↔
        value + offset < 2 ^ 64 ∨ c.authorities.length ∣ 2 ^ 64) ∧
      (∀ offset' < offset, value + offset < 2 ^ 64 →
        c.leader value offset' ≠ c.leader value offset) := by
  refine ⟨?_, ?_, fun offset' hlt hfits => ?_⟩
  · unfold CoinCommittee.checkedLeader
    rw [Option.map_eq_some_iff]
    constructor
    · rintro ⟨_, hsum, -⟩
      exact (Checked.add_eq_some.1 hsum).2
    · exact fun hfits => ⟨_, Checked.add_eq_some.2 ⟨rfl, hfits⟩, rfl⟩
  · rw [leader_eq_authorityAt, authorityAt_inj h]
    by_cases hfits : value + offset < 2 ^ 64
    · rw [Nat.mod_eq_of_lt hfits]
      exact iff_of_true rfl (.inl hfits)
    · -- the wrapped sum is the sum less what wraps
      have hwrap : (value + offset) % 2 ^ 64 = value + offset - 2 ^ 64 := by
        rw [Nat.mod_eq_sub_mod (by omega), Nat.mod_eq_of_lt (by omega)]
      rw [hwrap, or_iff_right hfits]
      change Nat.ModEq _ _ _ ↔ _
      rw [Nat.modEq_iff_dvd' (Nat.sub_le _ _)]
      have hdiff : value + offset - (value + offset - 2 ^ 64) = 2 ^ 64 := by omega
      rw [hdiff]
  · have hfits' : value + offset' < 2 ^ 64 := by omega
    rw [leader_eq_authorityAt, leader_eq_authorityAt, Nat.mod_eq_of_lt hfits',
      Nat.mod_eq_of_lt hfits, Ne, authorityAt_inj h]
    change ¬ Nat.ModEq _ _ _
    rw [Nat.modEq_iff_dvd' (by omega)]
    exact Nat.not_dvd_of_pos_of_lt (by omega) (by omega)

end Leaders

/-- A schedule of three authorities, given out of order and with a repetition. -/
def threeAuthorities : List PublicKey := [2, 0, 1, 0]

def threeLeaders : CoinCommittee := ⟨[0, 1, 2], by decide⟩

/-- At the largest coin value the second leader of a round is the first one again, and a build with
overflow checks has none. -/
theorem not_leader_index : CoinCommittee.ofSlice threeAuthorities = .ok threeLeaders ∧
    threeLeaders.leader (2 ^ 64 - 1) 1 ≠ threeLeaders.authorityAt (2 ^ 64 - 1 + 1) ∧
    threeLeaders.leader (2 ^ 64 - 1) 1 = threeLeaders.leader (2 ^ 64 - 1) 0 ∧
    threeLeaders.checkedLeader (2 ^ 64 - 1) 1 = none := by
  refine ⟨rfl, ?_⟩
  decide

theorem leader_index_iff_three : threeLeaders.leader 7 1 = threeLeaders.authorityAt (7 + 1) ∧
    threeLeaders.leader 7 0 ≠ threeLeaders.leader 7 1 := by
  have hslice : CoinCommittee.ofSlice threeAuthorities = .ok threeLeaders := rfl
  obtain ⟨-, hrelease, hdistinct⟩ := leader_index_iff 7 1 hslice (by decide)
    (by decide) (by decide)
  exact ⟨hrelease.2 (.inl (by decide)), hdistinct 0 (by decide) (by decide)⟩

end NovelDag
