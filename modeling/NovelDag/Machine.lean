import NovelDag.Consensus
import NovelDag.Lib.Checked

/-!
# Machine arithmetic

The thresholds and the leader index as the code computes them on its integer types: stakes have 32
bits, coin values and offsets 64. A build with overflow checks panics, which is no result here; a
release build wraps.
-/

namespace NovelDag

namespace Committee

variable (c : Committee)

/-- `total_votes`, summed up in `Stake`. -/
def checkedTotalVotes : Option ℕ := Checked.sum 32 (c.authorities.values.map Authority.stake)

/-- `quorum_threshold` in `Stake`. -/
def checkedQuorumThreshold : Option ℕ := do
  let totalVotes ← c.checkedTotalVotes
  let twice ← Checked.mul 32 2 totalVotes
  Checked.add 32 (twice / 3) 1

/-- `validity_threshold` in `Stake`. -/
def checkedValidityThreshold : Option ℕ := do
  let totalVotes ← c.checkedTotalVotes
  let sum ← Checked.add 32 totalVotes 2
  return sum / 3

end Committee

namespace CoinCommittee

/-- `CoinCommittee::new` on a slice: `sort` and `dedup` leave the set of its keys in order. -/
def ofSlice (authorities : List PublicKey) : Except String CoinCommittee :=
  let authorities := (SortedSet.ofList authorities).toList
  if h : authorities = [] then .error "coin committee must not be empty" else .ok ⟨authorities, h⟩

/-- The authority at an index, counted around. -/
def authorityAt (c : CoinCommittee) (index : ℕ) : PublicKey :=
  c.authorities.get ⟨index % c.authorities.length,
    Nat.mod_lt _ (List.length_pos_of_ne_nil c.nonempty)⟩

/-- `leader` in a build with overflow checks. -/
def checkedLeader (c : CoinCommittee) (value offset : ℕ) : Option PublicKey :=
  (Checked.add 64 value offset).map c.authorityAt

end CoinCommittee

end NovelDag
