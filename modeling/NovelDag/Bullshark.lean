import NovelDag.Narwhal

/-!
# Bullshark consensus

Leader at round `r`, support from its children of round `r + 1`, and the linked past leaders and the
sub-dag of each as in Narwhal, less what the garbage collection has passed.
-/

namespace NovelDag

namespace Bullshark

open Narwhal (orderDagNext dagSize linked pastRounds support)

variable [Crypto]

/-- Flatten the dag referenced by the input certificate. -/
def orderDag (leader : Certificate) (state : State) (gcDepth : ℕ) : List Certificate :=
  ((Worklist.dfs (orderDagNext state) (dagSize state.dag + 1) [leader] []).filter fun x =>
    decide (state.lastCommittedRound ≤ x.round + gcDepth)).insertionSort fun x y => x.round ≤ y.round

variable (consensus : Consensus)

/-- The past leaders of the given rounds linked to the current leader, latest first. -/
def pastLeaders (dag : Dag) : Certificate → List ℕ → Except String (List Certificate)
  | _, [] => .ok []
  | current, r :: rounds => do
    match ← consensus.leader r r dag with
    | none => pastLeaders dag current rounds
    | some (_, prevLeader) =>
      if ← linked current prevLeader dag then
        let toCommit ← pastLeaders dag prevLeader rounds
        return prevLeader :: toCommit
      else pastLeaders dag current rounds

/-- Order the past leaders that we didn't already commit. -/
def orderLeaders (leader : Certificate) (state : State) : Except String (List Certificate) := do
  let past ← pastLeaders consensus state.dag leader
    (pastRounds (state.lastCommittedRound + 2) (leader.round - 2))
  return leader :: past

/-- Order the sub-dag of each leader and commit it. -/
def commitLeaders : List Certificate → State → State × List Certificate
  | [], state => (state, [])
  | leader :: leaders, state =>
    let ordered := orderDag leader state consensus.gcDepth
    let rest := commitLeaders leaders
      (ordered.foldl (fun state x => state.update x consensus.gcDepth) state)
    (rest.1, ordered ++ rest.2)

/-- The body of the loop of `run`: receive one certificate, and return what is sent. -/
def step (state : State) (certificate : Certificate) : Except String (State × List Certificate) :=
  let state := state.insertCertificate certificate
  match certificate.round with
  | 0 => .ok (state, []) -- `round - 1` wraps to an odd number
  | r + 1 =>
    if r % 2 ≠ 0 ∨ r < 2 then .ok (state, [])
    else if r ≤ state.lastCommittedRound then .ok (state, [])
    else do
      match ← consensus.leader r r state.dag with
      | none => return (state, [])
      | some (leaderDigest, leader) =>
        match state.dag.lookup (r + 1) with
        | none => throw "We should have the whole history by now"
        | some authorities =>
          if support consensus authorities leaderDigest < consensus.committee.validityThreshold then
            return (state, [])
          else
            let leaders ← orderLeaders consensus leader state
            return commitLeaders consensus leaders.reverse state

/-- The state after some certificates, none after a panic, and the sequence sent to `tx_output`. -/
def run (certificates : List Certificate) : Option State × List Certificate :=
  PrefixLog.run (fun state certificate => (step consensus state certificate).toOption)
    (State.new consensus.genesis) certificates

end Bullshark

end NovelDag
