import NovelDag.Consensus
import NovelDag.Lib.Worklist

/-!
# Shortfin consensus

Waves of four rounds. Once the boundary round of a wave has ended, the leader three rounds below is
checked for a chain of embedded QCs, and the certified blocks that the chain and the anchored blocks
reach are output. Structural records come first and are upgraded when their QC is known.
-/

namespace NovelDag

namespace Shortfin

variable [Crypto]

def wave : ℕ := 4

/-- Records by certificate digest: every variant an author signed for a round. -/
abbrev ShortfinRecords := FinMap Digest Certificate

/-- A stored record, replaced by the same record with votes if it has none. -/
def upgrade (stored certificate : Certificate) : Certificate :=
  if stored.votes.isEmpty && !certificate.votes.isEmpty then certificate else stored

def insertRecord (state : State) (records : ShortfinRecords) (certificate : Certificate) :
    State × ShortfinRecords :=
  let digest := certificate.digest
  let records := records.alter digest fun stored =>
    stored.elim certificate fun stored => upgrade stored certificate
  let byAuthor := (state.dag.lookup certificate.round).getD ∅
  let byAuthor := match byAuthor.lookup certificate.origin with
    | some (storedDigest, stored) =>
      if storedDigest = digest then
        byAuthor.insert certificate.origin (storedDigest, upgrade stored certificate)
      else byAuthor
    | none => byAuthor.insert certificate.origin (digest, certificate)
  ({ state with dag := state.dag.insert certificate.round byAuthor }, records)

def recordsAtRound (records : ShortfinRecords) (round : ℕ) : List Certificate :=
  records.values.filter fun certificate => decide (certificate.round = round)

/-- We have a block of the round, and so has a quorum of authors. -/
def roundEnded (round : ℕ) (consensus : Consensus) (state : State) : Bool :=
  let ourCertExists := (state.dag.lookup round).elim false fun byAuth =>
    (byAuth.lookup consensus.name).isSome
  ourCertExists && consensus.roundHasQuorum round state.dag

/-! ## The chain of the leader -/

inductive ChainError
  | leaderUnavailable
  | missingB2
  | missingB1
  | qcChainInvalid
  deriving DecidableEq

/-- The records of the leader in a round, by digest. -/
def chainCandidates (records : ShortfinRecords) (leader : PublicKey) (round : ℕ) :
    List Certificate :=
  ((recordsAtRound records round).filter fun certificate =>
    decide (certificate.origin = leader)).insertionSort fun x y => x.digest ≤ y.digest

/-- The first `b3`, `b2` and `b1` whose QCs link them. -/
def findChain (commitRound : ℕ) (b3s b2s b1s : List Certificate) :
    Option (Certificate × Certificate × Certificate) :=
  b3s.findSome? fun b3 => b2s.findSome? fun b2 =>
    if Consensus.embeddedQcLinks b2 b3 commitRound then
      (b1s.find? fun b1 => Consensus.embeddedQcLinks b1 b2 commitRound).map fun b1 => (b3, b2, b1)
    else none

def verifyLeaderChain (consensus : Consensus) (commitRound : ℕ) (state : State)
    (records : ShortfinRecords) :
    Except String (Except ChainError (Certificate × Certificate × Certificate)) := do
  let leaderRound := commitRound - 3
  match ← consensus.leaderAuthorityFromCertificates leaderRound commitRound 0
    (Consensus.roundCertificates state.dag commitRound) with
  | none => return .error .leaderUnavailable
  | some leader =>
    let b3Candidates := chainCandidates records leader leaderRound
    let b2Candidates := chainCandidates records leader (leaderRound + 1)
    let b1Candidates := chainCandidates records leader (leaderRound + 2)
    return if b3Candidates.isEmpty then .error .leaderUnavailable
      else if b2Candidates.isEmpty then .error .missingB2
      else if b1Candidates.isEmpty then .error .missingB1
      else match findChain commitRound b3Candidates b2Candidates b1Candidates with
        | some chain => .ok chain
        | none => .error .qcChainInvalid

/-! ## The blocks of a wave -/

/-- The round is above the last one committed for the author. -/
def uncommitted (lastCommitted : FinMap PublicKey ℕ) (certificate : Certificate) : Bool :=
  (lastCommitted.lookup certificate.origin).all fun r => decide (r < certificate.round)

/-- The records `links` names that the index has. -/
def linkedRecords (index : ShortfinRecords) (links : SortedSet Digest) : List Certificate :=
  links.toList.filterMap index.lookup

/-- The ids of what the seeds reach through `parents` and `parents_2`. -/
def causalReachability (seeds : List Certificate) (index : ShortfinRecords)
    (lastCommitted : FinMap PublicKey ℕ) : List Digest :=
  let floor := (seeds.map Certificate.round).min?.getD 0 - 100
  let links (cert : Certificate) : List Certificate :=
    linkedRecords index cert.header.parents ++ linkedRecords index cert.header.parents2
  Worklist.reach (fun cert => cert.header.id)
    (fun cert => decide (cert.round < floor) || !uncommitted lastCommitted cert)
    (fun reachable cert => (links cert).filter fun parent => decide (parent.header.id ∉ reachable))
    (seeds.length + (seeds.length + index.entries.length) *
      ((seeds ++ index.values).map fun cert => (links cert).length).sum)
    seeds.reverse []

/-- The number of authors of boundary records that reference a record. -/
def anchored (records : ShortfinRecords) (commitRound : ℕ) (digest : Digest) : ℕ :=
  (((recordsAtRound records commitRound).filter fun certificate =>
    decide (digest ∈ certificate.header.parents)).map Certificate.origin).dedup.length

/-- Referenced by boundary records of enough authors. -/
def isAnchored (records : ShortfinRecords) (commitRound validityThreshold : ℕ)
    (certificate : Certificate) : Bool :=
  let count := anchored records commitRound certificate.digest
  decide (0 < count ∧ validityThreshold ≤ count)

def collectWave (commitRound : ℕ) (state : State) (validityThreshold : ℕ)
    (leaderBlocks : List Certificate) (records : ShortfinRecords) : List Certificate :=
  let anchoredR1 := (recordsAtRound records (commitRound - 1)).filter fun certificate =>
    isAnchored records commitRound validityThreshold certificate
  let seeds := leaderBlocks ++ anchoredR1
  let index := records.retain fun _ certificate =>
    decide (certificate.round < commitRound) && uncommitted state.lastCommitted certificate
  let reachable := causalReachability seeds index state.lastCommitted
  let certifiedTargets : List Digest :=
    ((index.values.filter fun cert => decide (cert.header.id ∈ reachable)) ++
      recordsAtRound records commitRound).filterMap fun cert =>
        cert.header.qc.map EmbeddedQc.target
  let blocks := index.values.filter fun cert =>
    (decide (cert.header.id ∈ certifiedTargets) && !cert.votes.isEmpty) &&
      if cert.round = commitRound - 1 then isAnchored records commitRound validityThreshold cert
      else decide (cert.header.id ∈ reachable)
  blocks.insertionSort fun x y => toLex (x.round, x.header.id) ≤ toLex (y.round, y.header.id)

/-! ## The main loop -/

structure ShortfinState where
  state : State
  records : ShortfinRecords
  processedBoundaries : List ℕ

def ShortfinState.new (genesis : List Certificate) : ShortfinState where
  state := State.new genesis
  records := FinMap.ofList (genesis.map fun certificate => (certificate.digest, certificate))
  processedBoundaries := []

variable (consensus : Consensus)

/-- The body of the loop up to the rule of the leader: the state, and at a boundary that commits its
round and the chain. -/
def receive (s : ShortfinState) (certificate : Certificate) :
    Except String (ShortfinState × Option (ℕ × Certificate × Certificate × Certificate)) := do
  let cutoff := s.state.lastCommittedRound - consensus.gcDepth
  let processedBoundaries := s.processedBoundaries.filter fun r => decide (cutoff ≤ r)
  let round := certificate.round
  if !uncommitted s.state.lastCommitted certificate then
    return ({ s with processedBoundaries }, none)
  let (state, records) := insertRecord s.state s.records certificate
  let s : ShortfinState := { state, records, processedBoundaries }
  if round < wave ∨ round % wave ≠ 0 ∨ round ∈ processedBoundaries then return (s, none)
  if !roundEnded round consensus state then return (s, none)
  if round - 3 ≤ state.lastCommittedRound then return (s, none)
  match ← verifyLeaderChain consensus round state records with
  | .error _ => return (s, none)
  | .ok chain =>
    return ({ s with processedBoundaries := round :: processedBoundaries }, some (round, chain))

/-- The rest of the body: collect and commit the wave. -/
def commitWave (s : ShortfinState) (commitRound : ℕ) (b3 b2 b1 : Certificate) :
    ShortfinState × List Certificate :=
  let sequence := collectWave commitRound s.state consensus.committee.validityThreshold [b3, b2, b1]
    s.records
  let state := sequence.foldl (fun state x => state.update x consensus.gcDepth) s.state
  let minRound := state.lastCommittedRound - consensus.gcDepth
  let records := s.records.retain fun _ certificate => decide (minRound ≤ certificate.round)
  ({ s with state, records }, sequence)

/-- The body of the loop of `run`: receive one certificate, and return what is sent. -/
def step (s : ShortfinState) (certificate : Certificate) :
    Except String (ShortfinState × List Certificate) := do
  match ← receive consensus s certificate with
  | (s, none) => return (s, [])
  | (s, some (commitRound, b3, b2, b1)) => return commitWave consensus s commitRound b3 b2 b1

/-- The state after some certificates, none after a panic, and the sequence sent to `tx_output`. -/
def run (certificates : List Certificate) : Option ShortfinState × List Certificate :=
  PrefixLog.run (fun s certificate => (step consensus s certificate).toOption)
    (ShortfinState.new consensus.genesis) certificates

end Shortfin

end NovelDag
