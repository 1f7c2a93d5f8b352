import NovelDag.WahooPb
import NovelDag.LeaderLink
import NovelDag.Consensus
import NovelDag.Lib.Handler
import NovelDag.Lib.HashOrder

/-!
# The Wahoo node

The task of a Wahoo node with Byzantine behaviour switched off: its blocks, votes, certificates and
proofs of delivery, its DAG, how it moves from round to round, and what it commits. What it sends
and stores is written into a trace, each entry with the DAG at that moment. What serves benchmarks
only is left out.
-/

namespace NovelDag.Wahoo

open Fallible

structure WahooDone where
  doneSender : PublicKey
  blockSender : PublicKey
  done : List (PublicKey × List UInt8)
  hash : Digest
  round : ℕ

structure WahooElect where
  sender : PublicKey
  round : ℕ
  partialSig : List UInt8

structure WahooReady where
  readySender : PublicKey
  blockSender : PublicKey
  round : ℕ
  hash : Digest
  partialSig : List UInt8

inductive WahooMessage
  | block (b : Header)
  | vote (v : Vote)
  | pbcCertificate (c : Certificate)
  | epbcCertificate (c : Certificate)
  | elect (e : WahooElect)
  | ready (r : WahooReady)
  | done (d : WahooDone)
  | reVote

/-- The blocks by round and author. -/
abbrev Blocks := FinMap ℕ (FinMap PublicKey Header)

namespace Blocks

def level (blocks : Blocks) (round : ℕ) : FinMap PublicKey Header := (blocks.lookup round).getD ∅

def get (blocks : Blocks) (round : ℕ) (name : PublicKey) : Option Header :=
  (blocks.level round).lookup name

def put (blocks : Blocks) (block : Header) : Blocks :=
  blocks.insert block.round ((blocks.level block.round).insert block.author block)

theorem level_put (blocks : Blocks) (block : Header) (round : ℕ) :
    (blocks.put block).level round = if round = block.round then
      (blocks.level block.round).insert block.author block else blocks.level round := by
  unfold level put
  rw [FinMap.lookup_insert_ite]
  split_ifs <;> rfl

theorem get_put (blocks : Blocks) (block : Header) (round : ℕ) (name : PublicKey) :
    (blocks.put block).get round name =
      if round = block.round ∧ name = block.author then some block else blocks.get round name := by
  unfold get
  rw [level_put]
  by_cases hr : round = block.round
  · rw [if_pos hr, FinMap.lookup_insert_ite, hr]
    simp only [true_and]
  · rw [if_neg hr, if_neg fun h => hr h.1]

end Blocks

structure Chain where
  /-- Last committed leader round. -/
  round : ℕ := 0
  blocks : FinMap Digest Header := ∅

/-- What a node does. -/
inductive Effect
  | sendVote (target : PublicKey) (vote : Vote)
  /-- The vote on its own block, which it takes itself. -/
  | ownVote (vote : Vote)
  | broadcastCertificate (certificate : Certificate)
  | broadcastHeader (header : Header)
  | broadcastElect (elect : WahooElect)
  | broadcastDone (done : WahooDone)
  | broadcastRecp (recp : RecpMessage)
  | storeDone (done : WahooDone)
  | commit (block : Header)

structure Node where
  sentVotes : FinMap (ℕ × PublicKey × WahooVotePhase) (List Digest) := ∅
  dag : Blocks := ∅
  pendingBlocks : Blocks := ∅
  blocksByDigest : FinMap Digest Header := ∅
  epbcBlocks : Blocks := ∅
  epbcVotes : FinMap (ℕ × PublicKey) WahooVotesAggregator := ∅
  epbcDelivered : FinMap (ℕ × PublicKey) WahooVotePhase := ∅
  epbcCertSent : FinMap (ℕ × PublicKey × WahooVotePhase) Unit := ∅
  chain : Chain := {}
  leader : FinMap ℕ PublicKey := ∅
  done : FinMap ℕ (FinMap PublicKey WahooDone) := ∅
  elect : FinMap ℕ (FinMap PublicKey (List UInt8)) := ∅
  ready : FinMap (ℕ × PublicKey) (FinMap PublicKey (List UInt8)) := ∅
  recpPool : RecpPool := ∅
  round : ℕ := 1
  moveRound : FinMap ℕ ℕ := ∅
  nextRoundSignaled : Finset ℕ := ∅
  leaderElect : Finset ℕ := ∅
  blockSend : Finset ℕ := ∅
  doneSend : Finset ℕ := ∅
  pb : Pb := {}
  pendingDigests : List (Digest × ℕ) := []
  /-- How many times a hash map has been iterated. -/
  iterations : ℕ := 0
  trace : List (Effect × Blocks) := []

/-- The parameters of a node, and what it asks the coin and the threshold scheme for. -/
structure NodeConfig where
  name : PublicKey
  committee : Committee
  consensusProtocol : ConsensusProtocol
  coinCommittee : CoinCommittee
  /-- `elect_coin.recover`. -/
  recoverCoin : ℕ → List (PublicKey × List UInt8) → Option ℕ
  /-- `elect_coin.make_share` under the node's name. -/
  makeShare : ℕ → Option (List UInt8)
  makeRecpShare : ℕ → Digest → Option (List UInt8)
  headerSize : ℕ
  order : HashOrder

inductive Fault
  | panic (msg : String)
  | outOfFuel
  deriving DecidableEq

abbrev NodeM := Handler Fault Node

/-- The calls between the functions that await each other. -/
inductive Call
  | epbcVote (vote : Vote)
  | broadcastBlock (round : ℕ)
  | nextRound (round : ℕ)
  | updateDag (block : Header)
  | updateDagFromPending (round : ℕ)
  | retryPendingEpbc (round : ℕ)

namespace NodeConfig

variable (c : NodeConfig)

def nodeNum : ℕ := c.committee.names.length

def quorumNum : ℕ := (2 * c.nodeNum + 2) / 3

end NodeConfig

namespace Node

def emit (n : Node) (e : Effect) : Node := { n with trace := n.trace ++ [(e, n.dag)] }

/-! ## Commit pipeline -/

variable [Crypto]

/-- One block of a level: commit it unless that was done, and queue the parents not committed. -/
def commitBlock (round : ℕ) (leader : PublicKey) (r : ℕ)
    (p : Node × FinMap Digest Header) (e : Digest × Header) : Node × FinMap Digest Header :=
  let (n, nextLevel) := p
  let (h, b) := e
  let n :=
    if (n.chain.blocks.lookup h).isSome then n
    else
      let n := { n with chain := { n.chain with blocks := n.chain.blocks.insert h b } }
      if b.round = round ∧ b.author = leader then n else n.emit (.commit b)
  let nextLevel := if r = 0 then nextLevel else
    b.parents.toList.foldl (fun nextLevel digest =>
      match n.blocksByDigest.lookup digest with
      | none => nextLevel
      | some pb =>
        if (n.chain.blocks.lookup digest).isSome then nextLevel else nextLevel.insert digest pb)
      nextLevel
  (n, nextLevel)

/-- The blocks of a level in the order of its map, then the level below. -/
def commitLevels (order : HashOrder) (round : ℕ) (leader : PublicKey) :
    ℕ → Node → FinMap Digest Header → Node
  | r, n, level =>
    let entries := order.order n.iterations (level.entries.map fun e => (e.1, e.2))
    let (n, nextLevel) := entries.foldl (commitBlock round leader r)
      ({ n with iterations := n.iterations + 1 }, ∅)
    match r with
    | 0 => n
    | r + 1 => if nextLevel.entries.isEmpty then n else commitLevels order round leader r n nextLevel

def commitAncestorBlocks (order : HashOrder) (n : Node) (round : ℕ) : Node :=
  match n.leader.lookup round with
  | none => n
  | some leader =>
    match n.dag.get round leader with
    | none => n
    | some leaderBlock =>
      commitLevels order round leader round n (AList.singleton leaderBlock.digest leaderBlock)

/-- One block of a level: is it the leader of its round, and what are its parents. -/
def visitLeader (n : Node) (p : FinMap Digest Header × FinMap ℕ PublicKey) (b : Header) :
    FinMap Digest Header × FinMap ℕ PublicKey :=
  let (nextLevel, valid) := p
  let valid := if b.round % 2 = 1 ∧ n.leader.lookup b.round = some b.author then
    valid.insert b.round b.author else valid
  (b.parents.toList.foldl (fun nextLevel digest =>
    match n.blocksByDigest.lookup digest with
    | none => nextLevel
    | some pb => nextLevel.insert digest pb) nextLevel, valid)

/-- The leaders met on the way down to the committed rounds. -/
def validLeadersFrom (n : Node) : ℕ → FinMap Digest Header → FinMap ℕ PublicKey →
    FinMap ℕ PublicKey
  | 0, _, valid => valid
  | r + 1, level, valid =>
    if n.chain.round < r + 1 then
      let (nextLevel, valid) := level.values.foldl n.visitLeader (∅, valid)
      validLeadersFrom n r nextLevel valid
    else valid

def findValidLeader (n : Node) (round : ℕ) : FinMap ℕ PublicKey :=
  match n.leader.lookup round with
  | none => ∅
  | some leader =>
    match n.dag.get round leader with
    | none => ∅
    | some block => n.validLeadersFrom round (AList.singleton block.digest block) ∅

/-- Put a leader block into the chain. -/
def commitChain (n : Node) (round : ℕ) (block : Header) : Node :=
  { n with chain := { round, blocks := n.chain.blocks.insert block.digest block } }

/-- The leader of an odd round below, if it is valid. -/
def commitAncestorLeader (order : HashOrder) (valid : FinMap ℕ PublicKey) (n : Node) (r : ℕ) :
    Node :=
  match valid.lookup r, n.leader.lookup r with
  | some _, some leader =>
    match n.dag.get r leader with
    | none => n
    | some block => commitAncestorBlocks order ((n.commitChain r block).emit (.commit block)) r
  | _, _ => n

def tryToCommitAncestorLeader (order : HashOrder) (n : Node) (round : ℕ) : Node :=
  if round < 2 ∨ round - 2 ≤ n.chain.round then n
  else
    let valid := n.findValidLeader round
    ((List.range round).filter fun r => decide (r % 2 = 1)).foldl
      (commitAncestorLeader order valid) n

def tryToCommitLeader (order : HashOrder) (round : ℕ) (n : Node) : Node :=
  if round ≤ n.chain.round then n
  else
    match n.leader.lookup round with
    | none => n
    | some leader =>
      if (((n.done.lookup round).getD ∅).lookup leader).isNone then n
      else
        match n.dag.get round leader with
        | none => n
        | some block =>
          let n := n.tryToCommitAncestorLeader order round
          (commitAncestorBlocks order (n.commitChain round block) round).emit (.commit block)

/-! ## Storage -/

/-- Store a proof of delivery, the first for its block. -/
def storeDone (n : Node) (done : WahooDone) : Node :=
  let roundDone := (n.done.lookup done.round).getD ∅
  if (roundDone.lookup done.blockSender).isSome then n
  else
    { n with
      done := n.done.insert done.round (roundDone.insert done.blockSender done)
      moveRound := n.moveRound.alter done.round fun count => count.getD 0 + 1
    }.emit (.storeDone done)

def storeReady (n : Node) (ready : WahooReady) : Node :=
  { n with ready := n.ready.alter (ready.round, ready.blockSender) fun m =>
      (m.getD ∅).insert ready.readySender ready.partialSig }

def storeElect (n : Node) (elect : WahooElect) : Node :=
  { n with elect := n.elect.alter elect.round fun m =>
      (m.getD ∅).insert elect.sender elect.partialSig }

def storePendingBlock (n : Node) (block : Header) : Node :=
  { n with pendingBlocks := n.pendingBlocks.put block }

/-- Keep an odd-round proposal, the first of its author. -/
def storeEpbcBlock (n : Node) (block : Header) : Node :=
  if (n.epbcBlocks.get block.round block.author).isSome then n
  else { n with epbcBlocks := n.epbcBlocks.put block }

/-- A certificate replaces the proposal kept. -/
def storeEpbcCertificate (n : Node) (certificate : Certificate) : Node :=
  { n with epbcBlocks := n.epbcBlocks.put certificate.header }

def checkWhetherCanAddToDag (n : Node) (block : Header) : Bool :=
  if block.round = 0 then true
  else if block.parents = ∅ then (n.dag.lookup (block.round - 1)).isNone
  else block.parents.toList.all fun digest =>
    (n.blocksByDigest.lookup digest).any fun parent => decide (parent.round = block.round - 1)

/-- The block enters the DAG and the index of its digests. -/
def insertBlock (n : Node) (block : Header) : Node :=
  { n with
    blocksByDigest := n.blocksByDigest.insert block.digest block
    dag := n.dag.put block }

/-- One more block of an even round. -/
def countBlock (n : Node) (round : ℕ) : Node :=
  { n with moveRound := n.moveRound.alter round fun count => count.getD 0 + 1 }

def shouldSendVote (round : ℕ) (origin : PublicKey) (phase : WahooVotePhase) (blockId : Digest)
    (n : Node) : Bool × Node :=
  if (n.sentVotes.lookup (round, origin, phase)).getD [] = [] then
    (true, { n with sentVotes := n.sentVotes.insert (round, origin, phase) [blockId] })
  else (false, n)

/-- What `handle_epbc_vote` does with a vote before it sends a certificate. -/
def appendEpbcVote (committee : Committee) (vote : Vote) (n : Node) :
    Option WahooQuorum × Node :=
  let key := (vote.round, vote.origin)
  match n.epbcBlocks.get vote.round vote.origin with
  | none => (none, n)
  | some header =>
    let aggregator := (n.epbcVotes.lookup key).getD {}
    match aggregator.append committee vote header with
    | .error _ => (none, { n with epbcVotes := n.epbcVotes.insert key aggregator })
    | .ok (aggregator, quorum) =>
      let n := { n with epbcVotes := n.epbcVotes.insert key aggregator }
      match quorum with
      | none | some { phase := .pbc, .. } => (none, n)
      | some q =>
        let sent := (vote.round, vote.origin, q.phase)
        if (n.epbcCertSent.lookup sent).isSome then (none, n)
        else (some q, { n with epbcCertSent := n.epbcCertSent.insert sent () })

/-! ## Block construction -/

/-- The digests of the blocks accepted in a round. -/
def selectPreviousBlocks (n : Node) (round : ℕ) : SortedSet Digest :=
  if round = 0 then ∅ else SortedSet.ofList ((n.dag.level round).values.map Header.digest)

/-- Take batch digests until the block is large enough. -/
def drainDigests (headerSize : ℕ) :
    List (Digest × ℕ) → ℕ → SortedMap Digest ℕ → SortedMap Digest ℕ × List (Digest × ℕ)
  | [], _, payload => (payload, [])
  | (digest, wid) :: pending, size, payload =>
    if size < headerSize ∨ payload.toList = [] then
      drainDigests headerSize pending (size + 32) (payload.insert digest wid)
    else (payload, (digest, wid) :: pending)

def newBlock [ThresholdBls] (c : NodeConfig) (n : Node) (round : ℕ) (parents : SortedSet Digest) :
    Header × Node :=
  let (payload, pendingDigests) := drainDigests c.headerSize n.pendingDigests 0 ∅
  let header : Header :=
    { author := c.name, round, parents, payload
      wahooTag := some (if round % 2 = 0 then .pbc else .epbcTf)
      leaderLink := if round % 2 = 1 then buildLeaderLink c.committee n.recpPool round else none }
  ({ header with id := header.digest }, { n with pendingDigests })

/-- The signed block of a round on all the blocks accepted in the round before. -/
def nextBlock [ThresholdBls] (c : NodeConfig) (round : ℕ) (n : Node) : Header × Node :=
  let (block, n) := n.newBlock c round (n.selectPreviousBlocks (round - 1))
  ({ block with signature := Crypto.sign c.name block.id },
    { n with blockSend := insert round n.blockSend })

end Node

/-! ## Handlers -/

namespace NodeConfig

variable [Crypto] (c : NodeConfig)

/-- The proof is by enough authorities that acknowledged the block or voted for its delivery. -/
def verifyDoneProof (done : WahooDone) : Bool :=
  let signs (author : PublicKey) (bytes : List UInt8) : Bool :=
    (Signature.fromBytes bytes).any fun sig =>
      let vote (phase : WahooVotePhase) : Vote :=
        { id := done.hash, round := done.round, voterRound := done.round,
          origin := done.blockSender, author, wahooPhase := some phase, signature := sig }
      Crypto.verifies sig done.hash author ||
        (Crypto.verifies sig (vote .tf).digest author ||
          Crypto.verifies sig (vote .ts2).digest author)
  decide (c.committee.stake done.doneSender ≠ 0 ∧ c.committee.stake done.blockSender ≠ 0 ∧
    (done.done.map Prod.fst).Nodup) &&
  (done.done.all fun e => decide (c.committee.stake e.1 ≠ 0) && signs e.1 e.2) &&
  decide (c.quorumNum ≤ done.done.length)

def emit (e : Effect) : NodeM Unit := modify fun n => n.emit e

/-- The entries of a hash map in the order the map is iterated this time. -/
def iterate {α : Type} (l : List α) : NodeM (List α) :=
  modifyGet fun n => (c.order.order n.iterations l, { n with iterations := n.iterations + 1 })

def commitLeader (round : ℕ) : NodeM Unit := modify fun n => n.tryToCommitLeader c.order round

/-- The value that elects the leader of a round, once the round has enough elects. -/
def electedValue (round : ℕ) (elects : FinMap PublicKey (List UInt8)) :
    Except String (Option ℕ) :=
  match c.consensusProtocol with
  | .roundRobin => (roundRobinSlot round 2 2).map some
  | .pseudoRandom => .ok (some (c.coinCommittee.pseudoRandom round))
  | .commonCoin => .ok (c.recoverCoin round (elects.entries.map fun e => (e.1, e.2)))

def tryToElectLeader (round : ℕ) : NodeM Unit := do
  let n ← get
  let elects := (n.elect.lookup round).getD ∅
  if round ∈ n.leaderElect ∨ (n.elect.lookup round).isNone ∨ elects.keys.length < c.quorumNum then
    pure ()
  else
    match c.electedValue round elects with
    | .error msg => throw (.panic msg)
    | .ok none => pure ()
    | .ok (some value) => do
      modify fun n => { n with
        leaderElect := insert round n.leaderElect
        leader := n.leader.insert (round - 1) (c.coinCommittee.leader value 0) }
      c.commitLeader (round - 1)

def handleElect (elect : WahooElect) : NodeM Unit := do
  modify fun n => n.storeElect elect
  c.tryToElectLeader elect.round

def broadcastElect (round : ℕ) : NodeM Unit := do
  let elect : WahooElect :=
    { sender := c.name, round, partialSig := (c.makeShare round).getD [] }
  c.handleElect elect
  emit (.broadcastElect elect)

def broadcastSelfRecps (prevRound : ℕ) : NodeM Unit := do
  let n ← get
  let blocks ← c.iterate (n.dag.level prevRound).values
  blocks.forM fun block =>
    match c.makeRecpShare prevRound block.digest with
    | none => pure ()
    | some share => do
      let recp : RecpMessage :=
        { blockHash := block.digest, round := prevRound, author := c.name, share }
      modify fun n => { n with recpPool := handleRecp c.committee n.recpPool recp }
      emit (.broadcastRecp recp)

variable (call : Call → NodeM Unit)

def tryToNextRound (round : ℕ) : NodeM Unit := do
  let n ← get
  if round = n.round ∧ c.quorumNum ≤ (n.moveRound.lookup round).getD 0 ∧
      round ∉ n.nextRoundSignaled then do
    modify fun n => { n with
      nextRoundSignaled := insert round n.nextRoundSignaled
      round := round + 1 }
    call (.broadcastBlock (round + 1))
    call (.nextRound (round + 1))
  else pure ()

def handleDone (done : WahooDone) : NodeM Unit :=
  if c.verifyDoneProof done then do
    modify fun n => n.storeDone done
    c.tryToNextRound call done.round
    c.commitLeader done.round
  else pure ()

def sendEpbcVote (round : ℕ) (blockId : Digest) (blockSender : PublicKey)
    (phase : WahooVotePhase) : NodeM Unit := do
  let send ← modifyGet (Node.shouldSendVote round blockSender phase blockId)
  if send then
    let vote : Vote := { id := blockId, round, voterRound := round, origin := blockSender,
                         author := c.name, wahooPhase := some phase }
    let vote := { vote with signature := Crypto.sign c.name vote.digest }
    if blockSender = c.name then do
      emit (.ownVote vote)
      call (.epbcVote vote)
    else emit (.sendVote blockSender vote)
  else pure ()

/-- The TS1 and TF shares on a valid proposal. -/
def sendEpbcShares (block : Header) : NodeM Unit := do
  c.sendEpbcVote call block.round block.digest block.author .ts1
  c.sendEpbcVote call block.round block.digest block.author .tf

/-- Deliver the block of a TS2 or TF certificate, once for each round and author. -/
def deliverEpbc (certificate : Certificate) (phase : WahooVotePhase) : NodeM Unit := do
  let key := (certificate.round, certificate.origin)
  let already ← modifyGet fun n => ((n.epbcDelivered.lookup key).isSome,
    { n with epbcDelivered := n.epbcDelivered.insert key phase })
  if already then pure ()
  else do
    call (.updateDag certificate.header)
    let done : WahooDone :=
      { doneSender := c.name, blockSender := certificate.origin
        done := certificate.votes.map fun v => (v.author, v.signature.toBytes)
        hash := certificate.header.id, round := certificate.round }
    c.handleDone call done
    if certificate.origin = c.name then emit (.broadcastDone done) else pure ()

def handleEpbcCertificate (certificate : Certificate) : NodeM Unit :=
  match certificate.votes.head?.bind Vote.wahooPhase with
  | none => pure ()
  | some phase => do
    modify fun n => n.storeEpbcCertificate certificate
    match phase with
    | .ts1 =>
      c.sendEpbcVote call certificate.round certificate.header.id certificate.origin .ts2
    | .ts2 | .tf => c.deliverEpbc call certificate phase
    | .pbc => pure ()

def handleEpbcVote (vote : Vote) : NodeM Unit := do
  let quorum ← modifyGet (Node.appendEpbcVote c.committee vote)
  match quorum with
  | none => pure ()
  | some q => do
    emit (.broadcastCertificate q.certificate)
    c.handleEpbcCertificate call q.certificate

def handleFastBlock (block : Header) : NodeM Unit := do
  modify fun n => n.storeEpbcBlock block
  let n ← get
  if n.checkWhetherCanAddToDag block then c.sendEpbcShares call block else pure ()

def dispatchPbAction (action : PbAction) : NodeM Unit :=
  match action with
  | .sendVote target vote =>
    match vote.wahooPhase with
    | none => throw (.panic "PB vote action must carry a phase")
    | some phase => do
      let send ← modifyGet (Node.shouldSendVote vote.round vote.origin phase vote.id)
      if send then emit (.sendVote target { vote with signature := Crypto.sign c.name vote.digest })
      else pure ()
  | .broadcastCertificate certificate => emit (.broadcastCertificate certificate)
  | .outputBlock block => call (.updateDag block)

/-- Let PB handle something and execute the actions it returns. -/
def runPb (f : Pb → Pb × List PbAction) : NodeM Unit := do
  let actions ← modifyGet fun n => ((f n.pb).2, { n with pb := (f n.pb).1 })
  actions.forM (c.dispatchPbAction call)

/-- The shares on the blocks of the wave before, in the odd rounds from 3 on. -/
def broadcastRecpsFor (round : ℕ) : NodeM Unit :=
  if 3 ≤ round ∧ round % 2 = 1 then c.broadcastSelfRecps (round - 2) else pure ()

/-- The node takes its own block as it takes those of others, and elects in even rounds. -/
def handleOwnBlock (round : ℕ) (block : Header) : NodeM Unit :=
  if round % 2 = 0 then do
    modify fun n => { n with pb := n.pb.storeBlockMsg block }
    c.runPb call fun pb => pb.handleBlock c.name block
    c.broadcastElect round
  else c.handleFastBlock call block

def broadcastBlock [ThresholdBls] (round : ℕ) : NodeM Unit := do
  let block ← modifyGet (Node.nextBlock c round)
  c.broadcastRecpsFor round
  emit (.broadcastHeader block)
  c.handleOwnBlock call round block

/-- A block that has entered the DAG counts towards the next round, or may be committed. -/
def advance (block : Header) : NodeM Unit :=
  if block.round % 2 = 0 then do
    modify fun n => n.countBlock block.round
    c.tryToNextRound call block.round
  else c.commitLeader block.round

def tryToUpdateDag (block : Header) : NodeM Unit := do
  let n ← get
  if n.checkWhetherCanAddToDag block then do
    modify fun n => n.insertBlock block
    c.advance call block
    call (.updateDagFromPending (block.round + 1))
    call (.retryPendingEpbc (block.round + 1))
  else modify fun n => n.storePendingBlock block

def retryPendingEpbc (round : ℕ) : NodeM Unit := do
  let n ← get
  let blocks ← c.iterate (n.epbcBlocks.level round).values
  (blocks.filter fun block => n.checkWhetherCanAddToDag block).forM (c.sendEpbcShares call)

def tryToUpdateDagFromPending (round : ℕ) : NodeM Unit := do
  let drained ← modifyGet fun n => ((n.pendingBlocks.level round).values,
    { n with pendingBlocks := n.pendingBlocks.erase round })
  let drained ← c.iterate drained
  drained.forM fun block => call (.updateDag block)

def handleReady (ready : WahooReady) : NodeM Unit := do
  modify fun n => n.storeReady ready
  let n ← get
  let shares := (n.ready.lookup (ready.round, ready.blockSender)).getD ∅
  if ready.blockSender = c.name ∧ c.nodeNum ≤ shares.keys.length ∧ ready.round ∉ n.doneSend then do
    modify fun n => { n with doneSend := insert ready.round n.doneSend }
    let proof ← c.iterate (shares.entries.map fun e => (e.1, e.2))
    let done : WahooDone :=
      { doneSender := c.name, blockSender := ready.blockSender, done := proof
        hash := ready.hash, round := ready.round }
    c.handleDone call done
    emit (.broadcastDone done)
  else pure ()

def handleMessage (message : WahooMessage) : NodeM Unit :=
  match message with
  | .block b =>
    if b.round % 2 = 0 then c.runPb call fun pb => pb.handleBlock c.name b
    else c.handleFastBlock call b
  | .vote v =>
    if v.round % 2 = 0 then c.runPb call fun pb => pb.handleVote c.committee v
    else c.handleEpbcVote call v
  | .pbcCertificate cert => c.runPb call fun pb => pb.handleCertificate cert
  | .epbcCertificate cert => c.handleEpbcCertificate call cert
  | .elect e => c.handleElect e
  | .ready r => c.handleReady call r
  | .done d => c.handleDone call d
  | .reVote => pure ()

end NodeConfig

/-! ## The task -/

/-- What the task of a node takes from its channels. -/
inductive Input
  | message (m : WahooMessage)
  | worker (digest : Digest) (wid : ℕ)
  | recp (r : RecpMessage)

/-- What the receiver of a node has checked of a message before the node gets it. That its sender
also signed the envelope of an elect, a ready or a done message is left out. -/
def WahooMessage.Received [Crypto] [ThresholdBls] (committee : Committee) : WahooMessage → Prop
  | .block b => 0 < committee.stake b.author ∧ b.id = b.digest ∧
      Crypto.verifies b.signature b.id b.author = true ∧
        (3 ≤ b.round → b.round % 2 = 1 → ∀ link ∈ b.leaderLink,
          link.verifyWithCrypto committee (b.round - 2) = .ok ())
  | .vote v => v.verify committee = .ok ()
  | .pbcCertificate cert => verifyWahooCertificate committee cert = .ok () ∧
      cert.votes.head?.bind Vote.wahooPhase = some .pbc
  | .epbcCertificate cert => verifyWahooCertificate committee cert = .ok () ∧
      cert.votes.head?.bind Vote.wahooPhase ≠ some .pbc
  | .elect e => 0 < committee.stake e.sender
  | .ready r => 0 < committee.stake r.readySender
  | .done d => 0 < committee.stake d.doneSender
  | .reVote => True

def Input.Received [Crypto] [ThresholdBls] (committee : Committee) : Input → Prop
  | .message m => m.Received committee
  | .worker .. => True
  | .recp r => 0 < committee.stake r.author

namespace NodeConfig

variable [Crypto] [ThresholdBls] (c : NodeConfig)

/-- What a call does, over what the calls it makes do. -/
def body (call : Call → NodeM Unit) : Call → NodeM Unit
  | .epbcVote vote => c.handleEpbcVote call vote
  | .broadcastBlock round => c.broadcastBlock call round
  | .nextRound round => c.tryToNextRound call round
  | .updateDag block => c.tryToUpdateDag call block
  | .updateDagFromPending round => c.tryToUpdateDagFromPending call round
  | .retryPendingEpbc round => c.retryPendingEpbc call round

def perform (fuel : ℕ) (call : Call) : NodeM Unit := Handler.tie c.body .outOfFuel fuel call

def handleInput (fuel : ℕ) : Input → NodeM Unit
  | .message m => c.handleMessage (c.perform fuel) m
  | .worker digest wid =>
    modify fun n => { n with pendingDigests := n.pendingDigests ++ [(digest, wid)] }
  | .recp r => modify fun n => { n with recpPool := handleRecp c.committee n.recpPool r }

/-- The task of a node: its first block, then the inputs one by one until one of them fails. -/
def run (fuel : ℕ) (inputs : List Input) : NodeM Unit := do
  c.perform fuel (.broadcastBlock 1)
  inputs.forM (c.handleInput fuel)

end NodeConfig

end NovelDag.Wahoo
