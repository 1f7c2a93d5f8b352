import NovelDag.Messages
import NovelDag.Lib.FinMap
import NovelDag.Lib.PrefixLog

/-!
# The state the consensus protocols share

The DAG in memory, the rounds committed for each authority, the clean-up after a commit, and the
choice of leaders. A failed assertion or `expect` is an error with its message.
-/

namespace NovelDag

open Encoding

abbrev Dag := FinMap ℕ (FinMap PublicKey (Digest × Certificate))

structure State where
  lastCommittedRound : ℕ
  lastCommitted : FinMap PublicKey ℕ
  dag : Dag

namespace State

variable [Crypto]

def new (genesis : List Certificate) : State where
  lastCommittedRound := 0
  lastCommitted := FinMap.ofList (genesis.map fun x => (x.origin, x.round))
  dag := FinMap.ofList [(0, FinMap.ofList (genesis.map fun x => (x.origin, (x.digest, x))))]

/-- `state.dag.entry(round).or_insert_with(HashMap::new).insert(origin, (digest, certificate))`. -/
def insertCertificate (s : State) (certificate : Certificate) : State :=
  { s with dag := s.dag.alter certificate.round fun authorities =>
      (authorities.getD ∅).insert certificate.origin (certificate.digest, certificate) }

end State

/-- The pass of `State::update` over the DAG for one authority. -/
def Dag.retainFor (dag : Dag) (name : PublicKey) (round lastCommittedRound gcDepth : ℕ) : Dag :=
  dag.retainMut fun r authorities =>
    let authorities := authorities.retain fun n _ => decide (n ≠ name ∨ round ≤ r)
    if authorities.entries.isEmpty || decide (r + gcDepth < lastCommittedRound) then none
    else some authorities

namespace State

/-- The committed rounds once `certificate` is committed. -/
def commitRound (lastCommitted : FinMap PublicKey ℕ) (certificate : Certificate) :
    FinMap PublicKey ℕ :=
  lastCommitted.alter certificate.origin fun r => r.elim certificate.round (max certificate.round)

/-- Update and clean up internal state based on committed certificates. -/
def update (s : State) (certificate : Certificate) (gcDepth : ℕ) : State :=
  let lastCommitted := commitRound s.lastCommitted certificate
  let lastCommittedRound := lastCommitted.values.foldr max 0
  { lastCommittedRound, lastCommitted
    dag := lastCommitted.entries.foldl
      (fun dag e => dag.retainFor e.1 e.2 lastCommittedRound gcDepth) s.dag }

/-- The entry of a round and an author. -/
def get (s : State) (round : ℕ) (name : PublicKey) : Option (Digest × Certificate) :=
  (s.dag.lookup round).bind fun authorities => authorities.lookup name

/-- `State::update` would keep a certificate of this round and author. -/
def keeps (s : State) (gcDepth round : ℕ) (name : PublicKey) : Bool :=
  ((s.lastCommitted.lookup name).all fun r => decide (r ≤ round)) &&
    decide (s.lastCommittedRound ≤ round + gcDepth)

end State

/-! ## Leaders -/

/-- The sorted authorities of the leader schedules, at least one. -/
structure CoinCommittee where
  authorities : List PublicKey
  nonempty : authorities ≠ []

namespace CoinCommittee

theorem four_ne_nil : ([0, 1, 2, 3] : List PublicKey) ≠ [] := List.cons_ne_nil _ _

/-- `CoinCommittee::new`; the keys of a committee are sorted and distinct already. -/
def new (committee : Committee) : Except String CoinCommittee :=
  if h : committee.names = [] then .error "coin committee must not be empty"
  else .ok ⟨committee.names, h⟩

/-- The first eight bytes of the hash, least significant first. -/
def pseudoRandom [Crypto] (c : CoinCommittee) (round : ℕ) : ℕ :=
  let digest := Crypto.sha512 <| List.flatten
    ["noveldag-pseudo-random-coin-v1".toList.map fun ch => UInt8.ofNat ch.toNat,
      c.authorities.flatMap PublicKey.bytes, leBytes 8 round]
  ((digest.bytes.take 8).foldr (fun b acc => b.toNat + 256 * acc) 0)

def leader (c : CoinCommittee) (value offset : ℕ) : PublicKey :=
  c.authorities.get ⟨(value + offset) % 2 ^ 64 % c.authorities.length,
    Nat.mod_lt _ (List.length_pos_of_ne_nil c.nonempty)⟩

end CoinCommittee

def roundRobinSlot (round firstRound stride : ℕ) : Except String ℕ :=
  if stride = 0 then .error "round-robin stride must be positive"
  else if round < firstRound then .error "round precedes first leader round"
  else .ok ((round - firstRound) / stride)

/-- The configuration of the consensus task. The threshold coin is a parameter: what it recovers for
a round from shares. -/
structure Consensus where
  committee : Committee
  gcDepth : ℕ
  dagProtocol : DagProtocol
  consensusProtocol : ConsensusProtocol
  name : PublicKey
  coinCommittee : CoinCommittee
  thresholdCoin : Option (ℕ → List (PublicKey × List UInt8) → Option ℕ)

namespace Consensus

variable (c : Consensus)

def genesis : List Certificate := Certificate.genesis c.committee

def roundRobinCoin (round : ℕ) : Except String ℕ :=
  match c.dagProtocol with
  | .shortfin => roundRobinSlot round 1 4
  | .narwhal | .bullshark => roundRobinSlot round 2 2
  | .mahiMahi | .mahiMahi4 | .mahiMahi5 => roundRobinSlot round 1 1
  | .wahoo => .ok round

/-- Fold the stake of the authors not met before. -/
def distinctStake (certificates : List Certificate) : ℕ :=
  ((certificates.map Certificate.origin).dedup.map c.committee.stake).sum

def thresholdCoinFromCertificates (round : ℕ) (certificates : List Certificate) : Option ℕ :=
  if c.distinctStake certificates < c.committee.quorumThreshold then none
  else do
    let recover ← c.thresholdCoin
    recover round (certificates.filterMap fun x =>
      if x.header.coinShare.isEmpty then none else some (x.origin, x.header.coinShare))

variable [Crypto]

def leaderAuthorityFromCertificates (leaderRound coinRound offset : ℕ)
    (certificates : List Certificate) : Except String (Option PublicKey) := do
  let value ← match c.consensusProtocol with
    | .roundRobin => (c.roundRobinCoin leaderRound).map some
    | .pseudoRandom => .ok (some (c.coinCommittee.pseudoRandom coinRound))
    | .commonCoin => .ok (c.thresholdCoinFromCertificates coinRound certificates)
  return value.map fun value => c.coinCommittee.leader value offset

/-- The certificates of a round, for `threshold_coin`. -/
def roundCertificates (dag : Dag) (round : ℕ) : List Certificate :=
  ((dag.lookup round).getD ∅).values.map Prod.snd

def leaderAuthority (leaderRound coinRound offset : ℕ) (dag : Dag) :
    Except String (Option PublicKey) := do
  let value ← match c.consensusProtocol with
    | .roundRobin => (c.roundRobinCoin leaderRound).map some
    | .pseudoRandom => .ok (some (c.coinCommittee.pseudoRandom coinRound))
    | .commonCoin =>
      .ok ((dag.lookup coinRound).bind fun _ =>
        c.thresholdCoinFromCertificates coinRound (roundCertificates dag coinRound))
  return value.map fun value => c.coinCommittee.leader value offset

def roundHasQuorum (round : ℕ) (dag : Dag) : Bool :=
  match dag.lookup round with
  | none => false
  | some certificates =>
    decide (c.committee.quorumThreshold ≤
      (certificates.values.map fun e => c.committee.stake e.2.origin).sum)

/-- The QC in `child` points to `parent`; release builds leave its assertion out. -/
def embeddedQcLinks (child parent : Certificate) (commitRound : ℕ) : Bool :=
  child.header.qc.any fun qc =>
    decide (qc.target = parent.header.id ∧ qc.round = parent.round ∧ qc.round < commitRound) &&
      qc.votes.all fun vote => decide (vote.voterRound < commitRound)

/-- The certificate (and digest) originated by the leader. -/
def leader (round coinRound : ℕ) (dag : Dag) : Except String (Option (Digest × Certificate)) :=
  match dag.lookup round with
  | none => .ok none
  | some byRound => do
    let leader ← c.leaderAuthority round coinRound 0 dag
    return leader.bind fun leader => byRound.lookup leader

end Consensus

end NovelDag
