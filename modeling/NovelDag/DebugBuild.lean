import NovelDag.Bullshark

/-!
# The loops of Narwhal and Bullshark in a debug build

A debug build keeps what a release build leaves out: a subtraction of rounds that would wrap is a
panic, and `round_robin_slot` also asserts that it is asked about a leader round. Each function here
is the one of its name with these checks.
-/

namespace NovelDag

/-- `a - b` on rounds, with overflow checks. -/
def subRound (a b : ℕ) : Except String ℕ :=
  if b ≤ a then .ok (a - b) else .error "attempt to subtract with overflow"

def debugRoundRobinSlot (round firstRound stride : ℕ) : Except String ℕ :=
  if stride = 0 then .error "round-robin stride must be positive"
  else if round < firstRound then .error "round precedes first leader round"
  else if (round - firstRound) % stride ≠ 0 then
    .error "round is not a leader round for this schedule"
  else .ok ((round - firstRound) / stride)

namespace Consensus

variable (c : Consensus)

def debugRoundRobinCoin (round : ℕ) : Except String ℕ :=
  match c.dagProtocol with
  | .shortfin => debugRoundRobinSlot round 1 4
  | .narwhal | .bullshark => debugRoundRobinSlot round 2 2
  | .mahiMahi | .mahiMahi4 | .mahiMahi5 => debugRoundRobinSlot round 1 1
  | .wahoo => .ok round

variable [Crypto]

def debugLeaderAuthority (leaderRound coinRound offset : ℕ) (dag : Dag) :
    Except String (Option PublicKey) := do
  let value ← match c.consensusProtocol with
    | .roundRobin => (c.debugRoundRobinCoin leaderRound).map some
    | .pseudoRandom => .ok (some (c.coinCommittee.pseudoRandom coinRound))
    | .commonCoin =>
      .ok ((dag.lookup coinRound).bind fun _ =>
        c.thresholdCoinFromCertificates coinRound (roundCertificates dag coinRound))
  return value.map fun value => c.coinCommittee.leader value offset

def debugLeader (round coinRound : ℕ) (dag : Dag) : Except String (Option (Digest × Certificate)) :=
  match dag.lookup round with
  | none => .ok none
  | some byRound => do
    let leader ← c.debugLeaderAuthority round coinRound 0 dag
    return leader.bind fun leader => byRound.lookup leader

end Consensus

variable [Crypto] (consensus : Consensus)

/-- The loop of `order_leaders`: the two protocols differ in the coin round of a leader round. -/
def debugPastLeaders (coinRound : ℕ → ℕ) (dag : Dag) :
    Certificate → List ℕ → Except String (List Certificate)
  | _, [] => .ok []
  | current, r :: rounds => do
    match ← consensus.debugLeader r (coinRound r) dag with
    | none => debugPastLeaders coinRound dag current rounds
    | some (_, prevLeader) =>
      if ← Narwhal.linked current prevLeader dag then
        let toCommit ← debugPastLeaders coinRound dag prevLeader rounds
        return prevLeader :: toCommit
      else debugPastLeaders coinRound dag current rounds

def debugOrderLeaders (coinRound : ℕ → ℕ) (leader : Certificate) (state : State) :
    Except String (List Certificate) := do
  let last ← subRound leader.round 2
  let past ← debugPastLeaders consensus coinRound state.dag leader
    (Narwhal.pastRounds (state.lastCommittedRound + 2) last)
  return leader :: past

/-- The loop of `order_dag` computes `x.round() - 1` for every parent of what it takes. -/
def checkSequenced (leader : Certificate) (state : State) : Except String Unit :=
  (Worklist.dfs (Narwhal.orderDagNext state) (Narwhal.dagSize state.dag + 1) [leader] []).forM
    fun x => if x.header.parents.toList = [] then .ok () else do
      let _ ← subRound x.round 1

/-- Order the sub-dag of each leader with `orderDag` and commit it. -/
def debugCommitLeaders (orderDag : Certificate → State → List Certificate) :
    List Certificate → State → Except String (State × List Certificate)
  | [], state => .ok (state, [])
  | leader :: leaders, state => do
    checkSequenced leader state
    let ordered := orderDag leader state
    let rest ← debugCommitLeaders orderDag leaders
      (ordered.foldl (fun state x => state.update x consensus.gcDepth) state)
    return (rest.1, ordered ++ rest.2)

/-- The end of the loop body: the leader is committed if the certificates of `supportRound`
support it. -/
def debugCommit (coinRound : ℕ → ℕ) (orderDag : Certificate → State → List Certificate)
    (state : State) (leaderDigest : Digest) (leader : Certificate) (supportRound : ℕ) :
    Except String (State × List Certificate) :=
  match state.dag.lookup supportRound with
  | none => .error "We should have the whole history by now"
  | some authorities =>
    if Narwhal.support consensus authorities leaderDigest <
        consensus.committee.validityThreshold then .ok (state, [])
    else do
      let leaders ← debugOrderLeaders consensus coinRound leader state
      debugCommitLeaders consensus orderDag leaders.reverse state

namespace Narwhal

/-- The body of the loop of `run`. -/
def debugStep (state : State) (certificate : Certificate) :
    Except String (State × List Certificate) := do
  let state := state.insertCertificate certificate
  let r ← subRound certificate.round 1
  if r % 2 ≠ 0 ∨ r < 4 then .ok (state, [])
  else
    let leaderRound ← subRound r 2
    if leaderRound ≤ state.lastCommittedRound then .ok (state, [])
    else
      match ← consensus.debugLeader leaderRound r state.dag with
      | none => .ok (state, [])
      | some (leaderDigest, leader) =>
        let supportRound ← subRound r 1
        debugCommit consensus (· + 2) orderDag state leaderDigest leader supportRound

/-- The state after some certificates, none after a panic, and the sequence sent to `tx_output`. -/
def debugRun (certificates : List Certificate) : Option State × List Certificate :=
  PrefixLog.run (fun state certificate => (debugStep consensus state certificate).toOption)
    (State.new consensus.genesis) certificates

end Narwhal

namespace Bullshark

/-- The body of the loop of `run`. -/
def debugStep (state : State) (certificate : Certificate) :
    Except String (State × List Certificate) := do
  let state := state.insertCertificate certificate
  let r ← subRound certificate.round 1
  if r % 2 ≠ 0 ∨ r < 2 then .ok (state, [])
  else if r ≤ state.lastCommittedRound then .ok (state, [])
  else
    match ← consensus.debugLeader r r state.dag with
    | none => .ok (state, [])
    | some (leaderDigest, leader) =>
      debugCommit consensus id (fun leader state => orderDag leader state consensus.gcDepth) state
        leaderDigest leader certificate.round

/-- The state after some certificates, none after a panic, and the sequence sent to `tx_output`. -/
def debugRun (certificates : List Certificate) : Option State × List Certificate :=
  PrefixLog.run (fun state certificate => (debugStep consensus state certificate).toOption)
    (State.new consensus.genesis) certificates

end Bullshark

end NovelDag
