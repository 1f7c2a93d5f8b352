import NovelDag.Consensus
import NovelDag.CoreState
import NovelDag.Lib.Fallible

/-!
# The proposer

The `Proposer` task with Byzantine behaviour switched off. Its state is the one in which it awaits,
after it has looked whether to propose; an event is what it is given there. As logs the state holds
what was received and the headers sent to the core. The threshold coin is a parameter, without its
caches, which only give back what has been computed. Benchmark diagnostics are left out.
-/

namespace NovelDag

open Fallible

/-- `Digest::size`. -/
def Digest.size (_ : Digest) : ℕ := 32

/-- `Header::new`. -/
def Header.new [Crypto] (author : PublicKey) (round : ℕ) (payload : SortedMap Digest ℕ)
    (parents parents2 : SortedSet Digest) (qc : Option EmbeddedQc) (coinShare : List UInt8)
    (benchmarkInvalidPayload : Bool) : Header :=
  let header : Header :=
    { author, round, payload, parents, parents2, qc, coinShare, benchmarkInvalidPayload }
  let id := header.digest
  { header with id, signature := Crypto.sign author id }

/-- What `ThresholdCoin::make_share` and `ThresholdCoin::recover` answer. -/
structure ProposerCoin where
  makeShare : PublicKey → ℕ → Option (List UInt8)
  recover : ℕ → List (PublicKey × List UInt8) → Option ℕ

structure ProposerConfig where
  name : PublicKey
  dagProtocol : DagProtocol
  committee : Committee
  consensusProtocol : ConsensusProtocol
  headerSize : ℕ
  coinCommittee : CoinCommittee
  coin : ProposerCoin

structure Proposer where
  round : ℕ
  parents1 : List Digest
  parents2 : List Digest := []
  lastQc : Option EmbeddedQc := none
  lastParentCerts : List Certificate
  lastLeader : Option Certificate := none
  digests : List (Digest × ℕ) := []
  payloadSize : ℕ := 0
  /-- The variables of `run`. -/
  timerExpired : Bool := false
  advance : Bool := true
  /-- The signals received from the core. -/
  signals : List ProposerSignal := []
  /-- The digests received from our workers. -/
  received : List (Digest × ℕ) := []
  /-- The headers sent to the core. -/
  toCore : List Header := []

namespace ProposerConfig

variable (c : ProposerConfig)

/-- The coin that `spawn` sets up in common-coin mode. -/
def thresholdCoin : Option ProposerCoin :=
  if c.consensusProtocol = .commonCoin ∧ c.dagProtocol ≠ .wahoo then some c.coin else none

/-! ## Headers -/

def carriesCoinShare (dagProtocol : DagProtocol) (round : ℕ) : Bool :=
  match dagProtocol with
  | .shortfin => round % 4 = 0
  | .narwhal => 4 ≤ round ∧ round % 2 = 0
  | .bullshark => round % 2 = 0
  | .mahiMahi | .mahiMahi5 => 5 ≤ round
  | .mahiMahi4 => 4 ≤ round
  | .wahoo => false

def coinShare (round : ℕ) : List UInt8 :=
  ((c.thresholdCoin.filter fun _ => carriesCoinShare c.dagProtocol round).bind fun coin =>
    coin.makeShare c.name round).getD []

/-- The loop over the digests: how many a header takes, and their size. -/
def takeDigests (headerSize : ℕ) : ℕ → ℕ → List (Digest × ℕ) → ℕ × ℕ
  | takeCount, selectedSize, [] => (takeCount, selectedSize)
  | takeCount, selectedSize, (digest, _) :: digests =>
    if 0 < takeCount ∧ headerSize ≤ selectedSize then (takeCount, selectedSize)
    else takeDigests headerSize (takeCount + 1) (selectedSize + digest.size) digests

/-- The header of the round, with a payload. -/
def header [Crypto] (s : Proposer) (payload : SortedMap Digest ℕ) : Header :=
  Header.new c.name s.round payload (SortedSet.ofList s.parents1) ∅
    (if c.dagProtocol.isShortfinFamily then s.lastQc else none) (c.coinShare s.round) false

def makeHeader [Crypto] (s : Proposer) : Proposer :=
  let (takeCount, selectedSize) := takeDigests c.headerSize 0 0 s.digests
  { s with
    digests := s.digests.drop takeCount
    payloadSize := s.payloadSize - selectedSize
    parents1 := []
    toCore := s.toCore ++ [c.header s (SortedMap.ofList (s.digests.take takeCount))] }

/-! ## Bullshark helpers -/

def roundRobinCoin (round : ℕ) : Except String ℕ :=
  if c.dagProtocol = .bullshark then roundRobinSlot round 2 2 else .ok round

def thresholdCoinFromParents (s : Proposer) : Option ℕ :=
  if s.lastParentCerts.isEmpty then none
  else if (s.lastParentCerts.map fun x => c.committee.stake x.origin).sum <
      c.committee.quorumThreshold then none
  else do
    let coin ← c.thresholdCoin
    coin.recover s.round (s.lastParentCerts.filterMap fun x =>
      if x.header.coinShare.isEmpty then none else some (x.origin, x.header.coinShare))

/-- The certificate of the leader among the parents, for a value of the coin. -/
def findLeader (s : Proposer) (value : ℕ) : Option Certificate :=
  s.lastParentCerts.find? fun x => decide (x.origin = c.coinCommittee.leader value 0)

/-- `update_leader`: the last leader, if there is one. -/
def updateLeader [Crypto] (s : Proposer) : Except String (Option Certificate) :=
  match c.consensusProtocol with
  | .roundRobin => (c.roundRobinCoin s.round).map (c.findLeader s)
  | .pseudoRandom => .ok (c.findLeader s (c.coinCommittee.pseudoRandom s.round))
  | .commonCoin => .ok ((c.thresholdCoinFromParents s).bind (c.findLeader s))

/-- The stake of the parents that vote for a leader, and of those that do not. -/
def leaderVotes [Crypto] (s : Proposer) (leader : Certificate) : ℕ × ℕ :=
  let (votes, noVotes) := s.lastParentCerts.partition fun x =>
    decide (leader.digest ∈ x.header.parents)
  ((votes.map fun x => c.committee.stake x.origin).sum,
    (noVotes.map fun x => c.committee.stake x.origin).sum)

def enoughVotes [Crypto] (s : Proposer) : Bool :=
  match s.lastLeader with
  | none => true
  | some leader =>
    let (votesForLeader, noVotes) := c.leaderVotes s leader
    decide (c.committee.quorumThreshold ≤ votesForLeader) ||
      decide (c.committee.validityThreshold ≤ noVotes)

/-! ## The main loop -/

/-- The top of the loop: make a header if it is time. -/
def propose [Crypto] (s : Proposer) : Proposer :=
  let enoughDigests := decide (c.headerSize ≤ s.payloadSize)
  match c.dagProtocol with
  | .shortfin =>
    let enoughQc := decide (s.round < 2) || s.lastQc.isSome
    if (s.timerExpired || enoughDigests) && !s.parents1.isEmpty && enoughQc then
      { c.makeHeader s with timerExpired := false }
    else s
  | .narwhal | .mahiMahi | .mahiMahi4 | .mahiMahi5 =>
    if (s.timerExpired || enoughDigests) && !s.parents1.isEmpty then
      { c.makeHeader s with timerExpired := false }
    else s
  | .bullshark | .wahoo =>
    if (s.timerExpired || (enoughDigests && s.advance)) && !s.lastParentCerts.isEmpty then
      let s := { s with
        round := s.round + 1
        parents1 := s.lastParentCerts.map Certificate.digest
        lastParentCerts := [] }
      { c.makeHeader s with timerExpired := false }
    else s

/-- The parents of a Bullshark block, with those of a signal. -/
def mergeParents (signal : ProposerSignal) (s : Proposer) : Proposer :=
  if s.round < signal.round then
    { s with round := signal.round, lastParentCerts := signal.certificates1 }
  else if signal.round < s.round then s
  else { s with lastParentCerts := s.lastParentCerts ++ signal.certificates1 }

/-- Can a Bullshark block advance to the next round? -/
def updateAdvance [Crypto] (s : Proposer) : Except String Proposer :=
  if s.round % 2 = 0 then do
    let lastLeader ← c.updateLeader s
    return { s with lastLeader, advance := lastLeader.isSome }
  else .ok { s with advance := c.enoughVotes s }

def handleSignal [Crypto] (signal : ProposerSignal) (s : Proposer) : Except String Proposer :=
  match c.dagProtocol with
  | .shortfin =>
    if signal.round < s.round then .ok s
    else .ok { s with
      round := signal.round
      parents1 := if signal.parents1.isEmpty then s.parents1 else signal.parents1
      parents2 := if signal.parents2.isEmpty then s.parents2 else signal.parents2
      lastQc := if signal.qc.isSome then signal.qc else s.lastQc }
  | .narwhal | .mahiMahi | .mahiMahi4 | .mahiMahi5 =>
    if signal.round < s.round then .ok s
    else .ok { s with round := signal.round, parents1 := signal.parents1 }
  | .bullshark | .wahoo => c.updateAdvance (mergeParents signal s)

/-- What the proposer awaits. -/
inductive Event
  | signal (signal : ProposerSignal)
  | digest (digest : Digest) (workerId : ℕ)
  | timer

/-- The branches of the `select`. -/
def handle [Crypto] (s : Proposer) : Event → Except String Proposer
  | .signal signal => c.handleSignal signal { s with signals := s.signals ++ [signal] }
  | .digest digest workerId =>
    .ok { s with
      payloadSize := s.payloadSize + digest.size
      digests := s.digests ++ [(digest, workerId)]
      received := s.received ++ [(digest, workerId)] }
  | .timer => .ok { s with timerExpired := true }

/-- A turn of the loop, from one `select` to the next. -/
def step [Crypto] (s : Proposer) (event : Event) : Except String Proposer :=
  (c.handle s event).map c.propose

/-- The state `spawn` starts from. -/
def spawn [Crypto] : Proposer where
  round := if c.dagProtocol = .bullshark then 0 else 1
  parents1 := (Certificate.genesis c.committee).map Certificate.digest
  lastParentCerts :=
    if c.dagProtocol = .bullshark then Certificate.genesis c.committee else []

/-- The state at the first `select`. -/
def init [Crypto] : Proposer := c.propose c.spawn

def run [Crypto] (events : List Event) : Except String Proposer := events.foldlM c.step c.init

end ProposerConfig

end NovelDag
