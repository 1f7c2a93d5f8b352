import NovelDag.Consensus
import NovelDag.Lib.Worklist

/-!
# Narwhal consensus

Leader at round `r - 2`, support from its children of round `r - 1`, and ordering of the linked
past leaders, one certificate received after another.
-/

namespace NovelDag

namespace Narwhal

variable [Crypto]

/-- What the loop of `order_dag` pushes for `x`: its parents of the round before that are still in
the DAG, less those at the last committed round of their author. -/
def orderDagNext (state : State) (x : Certificate) : List (Digest × Certificate) :=
  match x.round with
  | 0 => [] -- `x.round() - 1` wraps to a round the DAG does not have
  | r + 1 => x.header.parents.toList.filterMap fun parent =>
    ((state.dag.lookup r).bind fun authorities =>
      authorities.values.find? fun e => decide (e.1 = parent)).filter fun e =>
        decide (state.lastCommitted.lookup e.2.origin ≠ some e.2.round)

/-- The number of certificates in the DAG. -/
def dagSize (dag : Dag) : ℕ := (dag.values.map fun authorities => authorities.entries.length).sum

/-- Flatten the dag referenced by the input certificate. -/
def orderDag (leader : Certificate) (state : State) : List Certificate :=
  (Worklist.dfs (orderDagNext state) (dagSize state.dag + 1) [leader] []).insertionSort
    fun x y => x.round ≤ y.round

/-- One round of `linked`: the certificates of round `r` that `parents` reference. -/
def linkedStep (dag : Dag) (parents : List Certificate) (r : ℕ) :
    Except String (List Certificate) :=
  match dag.lookup r with
  | none => .error "We should have the whole history by now"
  | some authorities =>
    .ok ((authorities.values.filter fun e =>
      parents.any fun x => decide (e.1 ∈ x.header.parents)).map Prod.snd)

/-- Checks if there is a path between two leaders. -/
def linked (leader prevLeader : Certificate) (dag : Dag) : Except String Bool := do
  let rounds := (List.range' prevLeader.round (leader.round - prevLeader.round)).reverse
  let parents ← rounds.foldlM (linkedStep dag) [leader]
  return parents.any fun x => x.partialEq prevLeader

/-- `step_by(2)`. -/
def everyOther {α : Type*} : List α → List α
  | [] => []
  | [a] => [a]
  | a :: _ :: l => a :: everyOther l

/-- The rounds between `lo` and `hi`, from the highest down in steps of two. -/
def pastRounds (lo hi : ℕ) : List ℕ := everyOther (List.range' lo (hi + 1 - lo)).reverse

variable (consensus : Consensus)

/-- The past leaders of the given rounds linked to the current leader, latest first. -/
def pastLeaders (dag : Dag) : Certificate → List ℕ → Except String (List Certificate)
  | _, [] => .ok []
  | current, r :: rounds => do
    match ← consensus.leader r (r + 2) dag with
    | none => pastLeaders dag current rounds
    | some (_, prevLeader) =>
      if ← linked current prevLeader dag then
        let toCommit ← pastLeaders dag prevLeader rounds
        return prevLeader :: toCommit
      else pastLeaders dag current rounds

/-- Order the past leaders that we didn't already commit. -/
def orderLeaders (leader : Certificate) (state : State) : Except String (List Certificate) := do
  let past ← pastLeaders consensus state.dag leader
    (pastRounds (state.lastCommittedRound + 2) (leader.round - 2))
  return leader :: past

/-- Order the sub-dag of each leader and commit it. -/
def commitLeaders : List Certificate → State → State × List Certificate
  | [], state => (state, [])
  | leader :: leaders, state =>
    let ordered := orderDag leader state
    let rest := commitLeaders leaders
      (ordered.foldl (fun state x => state.update x consensus.gcDepth) state)
    (rest.1, ordered ++ rest.2)

/-- The stake of the certificates of round `r` that reference `digest`. -/
def support (authorities : FinMap PublicKey (Digest × Certificate)) (digest : Digest) : ℕ :=
  ((authorities.values.filter fun e => decide (digest ∈ e.2.header.parents)).map fun e =>
    consensus.committee.stake e.2.origin).sum

/-- The body of the loop of `run`: receive one certificate, and return what is sent. -/
def step (state : State) (certificate : Certificate) : Except String (State × List Certificate) :=
  let state := state.insertCertificate certificate
  match certificate.round with
  | 0 => .ok (state, []) -- `round - 1` wraps to an odd number
  | r + 1 =>
    if r % 2 ≠ 0 ∨ r < 4 then .ok (state, [])
    else if r - 2 ≤ state.lastCommittedRound then .ok (state, [])
    else do
      match ← consensus.leader (r - 2) r state.dag with
      | none => return (state, [])
      | some (leaderDigest, leader) =>
        match state.dag.lookup (r - 1) with
        | none => throw "We should have the whole history by now"
        | some authorities =>
          if support consensus authorities leaderDigest < consensus.committee.validityThreshold then
            return (state, [])
          else
            let leaders ← orderLeaders consensus leader state
            return commitLeaders consensus leaders.reverse state

/-- The state after some certificates, none after a panic, and the sequence sent to `tx_output`. -/
def run (certificates : List Certificate) : Option State × List Certificate :=
  PrefixLog.run (fun state certificate => (step consensus state certificate).toOption)
    (State.new consensus.genesis) certificates

end Narwhal

end NovelDag
