import NovelDag.Crypto
import NovelDag.Lib.SortedMap
import NovelDag.Lib.Weighted

/-!
# The committee

The authorities in the order of their keys, their stakes, and the two thresholds. Stakes, rounds
and worker ids are natural numbers; what depends on the width of a machine integer says so.
-/

namespace NovelDag

inductive DagProtocol
  | narwhal
  | bullshark
  | shortfin
  | mahiMahi
  | mahiMahi4
  | mahiMahi5
  | wahoo
  deriving DecidableEq

namespace DagProtocol

def isShortfinFamily : DagProtocol → Bool
  | shortfin => true
  | _ => false

def isUncertifiedDag : DagProtocol → Bool
  | shortfin | mahiMahi | mahiMahi4 | mahiMahi5 => true
  | _ => false

def mahiMahiWaveLength : DagProtocol → Option ℕ
  | mahiMahi | mahiMahi5 => some 5
  | mahiMahi4 => some 4
  | _ => none

def isMahiMahi (p : DagProtocol) : Bool := p.mahiMahiWaveLength.isSome

end DagProtocol

inductive ConsensusProtocol
  | roundRobin
  | pseudoRandom
  | commonCoin
  deriving DecidableEq

inductive ConfigError
  | notInCommittee (name : PublicKey)
  deriving DecidableEq

structure Authority where
  stake : ℕ
  workers : List ℕ

structure Committee where
  authorities : SortedMap PublicKey Authority

namespace Committee

variable (c : Committee)

/-- The members, in the order of their keys. -/
def names : List PublicKey := c.authorities.keys

def size : ℕ := c.authorities.toList.length

def stake (name : PublicKey) : ℕ := (c.authorities.lookup name).elim 0 Authority.stake

/-- The stakes of all authorities together, `total_votes` in the thresholds. -/
def totalVotes : ℕ := (c.authorities.values.map Authority.stake).sum

def quorumThreshold : ℕ := 2 * c.totalVotes / 3 + 1

def validityThreshold : ℕ := (c.totalVotes + 2) / 3

/-- `Committee::worker`, the addresses it returns left out. -/
def worker (name : PublicKey) (id : ℕ) : Except ConfigError Unit :=
  match c.authorities.lookup name with
  | none => .error (.notInCommittee name)
  | some authority =>
    if id ∈ authority.workers then .ok () else .error (.notInCommittee name)

/-! ## Stakes -/

theorem names_nodup : c.names.Nodup := c.authorities.keys_nodup

theorem size_eq_length_names : c.size = c.names.length := (List.length_map _).symm

theorem stake_of_notMem {name : PublicKey} (h : name ∉ c.names) : c.stake name = 0 := by
  rw [stake, SortedMap.lookup_eq_none.2 h, Option.elim_none]

theorem mem_names_of_stake_pos {name : PublicKey} (h : 0 < c.stake name) : name ∈ c.names := by
  by_contra hn
  rw [c.stake_of_notMem hn] at h
  exact lt_irrefl 0 h

/-- The members as a set. -/
def members : Finset PublicKey := c.names.toFinset

theorem totalVotes_eq_weight : c.totalVotes = Weighted.weight c.stake c.members := by
  rw [members, ← Weighted.sum_map_eq_weight _ c.names_nodup, totalVotes, names, SortedMap.keys,
    SortedMap.values, List.map_map, List.map_map]
  refine congrArg List.sum (List.map_congr_left fun e he => ?_)
  rw [Function.comp_apply, Function.comp_apply, stake, SortedMap.lookup_eq_some.2 he,
    Option.elim_some]

/-- Only members weigh. -/
theorem weight_inter_members (S : Finset PublicKey) :
    Weighted.weight c.stake (S ∩ c.members) = Weighted.weight c.stake S :=
  Weighted.weight_inter_of_zero _ fun _ hi =>
    c.stake_of_notMem fun h => hi (List.mem_toFinset.2 h)

theorem weight_le_totalVotes (S : Finset PublicKey) :
    Weighted.weight c.stake S ≤ c.totalVotes := by
  rw [← weight_inter_members, totalVotes_eq_weight]
  exact Weighted.weight_mono _ Finset.inter_subset_right

/-! ## Thresholds -/

theorem quorumThreshold_pos : 0 < c.quorumThreshold := Nat.succ_pos _

theorem totalVotes_lt_two_quorums : c.totalVotes + (c.totalVotes - c.quorumThreshold) <
    c.quorumThreshold + c.quorumThreshold := by
  unfold quorumThreshold
  omega

theorem totalVotes_lt_quorum_add_validity :
    c.totalVotes < c.quorumThreshold + c.validityThreshold := by
  unfold quorumThreshold validityThreshold
  omega

/-- Two quorums share a member outside any set that weighs at most what a quorum leaves. -/
theorem quorum_inter {S T B : Finset PublicKey}
    (hB : Weighted.weight c.stake B ≤ c.totalVotes - c.quorumThreshold)
    (hS : c.quorumThreshold ≤ Weighted.weight c.stake S)
    (hT : c.quorumThreshold ≤ Weighted.weight c.stake T) : ∃ a ∈ S, a ∈ T ∧ a ∉ B := by
  have h := c.totalVotes_lt_two_quorums
  obtain ⟨a, ha, hb, hn⟩ := Weighted.exists_mem_inter_notMem c.stake
    (S := S ∩ c.members) (T := T ∩ c.members) (U := c.members) (B := B)
    Finset.inter_subset_right Finset.inter_subset_right
    (by rw [weight_inter_members, weight_inter_members, ← totalVotes_eq_weight]; omega)
  exact ⟨a, (Finset.mem_inter.1 ha).1, (Finset.mem_inter.1 hb).1, hn⟩

/-- A quorum meets every set that reaches the validity threshold. -/
theorem quorum_inter_validity {S T : Finset PublicKey}
    (hS : c.quorumThreshold ≤ Weighted.weight c.stake S)
    (hT : c.validityThreshold ≤ Weighted.weight c.stake T) : ∃ a ∈ S, a ∈ T := by
  have h := c.totalVotes_lt_quorum_add_validity
  obtain ⟨a, ha, hb⟩ := Weighted.exists_mem_inter c.stake
    (S := S ∩ c.members) (T := T ∩ c.members) (U := c.members)
    Finset.inter_subset_right Finset.inter_subset_right
    (by rw [weight_inter_members, weight_inter_members, ← totalVotes_eq_weight]; omega)
  exact ⟨a, (Finset.mem_inter.1 ha).1, (Finset.mem_inter.1 hb).1⟩

end Committee

/-- `count` authorities of stake one with one worker each, their keys counted from zero. -/
def Committee.uniform (count : ℕ) : Committee :=
  ⟨SortedMap.ofList ((List.range count).map fun i => (⟨Fin.ofNat _ i⟩, ⟨1, [0]⟩))⟩

end NovelDag
