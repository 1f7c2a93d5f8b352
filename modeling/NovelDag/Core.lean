import NovelDag.CoreState

/-!
# The core of a primary

The `Core` task with Byzantine behaviour switched off: how it processes headers, votes and
certificates, what it asks the synchronizer for, when it signals the proposer, and how it cleans up.
Headers, votes and certificates are processed by functions that await each other, so each is written
over a handler for the calls it makes.
-/

namespace NovelDag

open Fallible Handler

inductive CoreFault
  | dag (e : DagError)
  | panic (msg : String)
  | outOfFuel

abbrev CoreTask := Handler CoreFault Core

/-- The parameters of the task. -/
structure CoreConfig where
  name : PublicKey
  committee : Committee
  dagProtocol : DagProtocol
  gcDepth : ℕ
  order : HashOrder
  /-- The batches the payload receiver stores between two looks at the store. -/
  payloads : ℕ → Finset (Digest × ℕ)

/-- The calls between the functions that await each other. -/
inductive CoreCall
  | header (header : Header)
  | vote (vote : Vote)
  | certificate (certificate : Certificate)

namespace CoreTask

/-- A check of the code, in a handler. -/
def check {α : Type} : Except DagError α → CoreTask α
  | .ok a => pure a
  | .error e => throw (.dag e)

/-- `.expect(msg)`. -/
def expect (msg : String) (m : CoreTask Unit) : CoreTask Unit :=
  tryCatch m fun
    | .dag _ => throw (.panic msg)
    | e => throw e

/-- A failure is logged and nothing else. -/
def logged (m : CoreTask Unit) : CoreTask Unit :=
  tryCatch m fun
    | .dag _ => pure ()
    | e => throw e

end CoreTask

open CoreTask

namespace CoreConfig

variable (c : CoreConfig)

/-- The entries of a hash map in the order the map is iterated this time. -/
def iterate {α : Type} (l : List α) : CoreTask (List α) :=
  modifyGet fun s => (c.order.order s.iterations l, { s with iterations := s.iterations + 1 })

variable [Crypto]

def genesis : List Certificate := Certificate.genesis c.committee

def isGenesis (digest : Digest) : Bool := c.genesis.any fun g => decide (g.digest = digest)

/-! ## Synchronizer -/

/-- Look at the store again, with what the payload receiver has put there. -/
def receivePayloads : CoreTask Unit :=
  modify fun s => { s with
    batches := s.batches ∪ c.payloads s.iterations
    iterations := s.iterations + 1 }

def missingPayloadFor (payloadHeader deliver : Header) : CoreTask Bool :=
  if payloadHeader.author = c.name then pure false -- We don't store the payload of our own workers.
  else do
    c.receivePayloads
    let s ← get
    let missing := payloadHeader.payload.toList.filter fun key => decide (key ∉ s.batches)
    if missing.isEmpty then pure false
    else do
      modify fun s => s.sendHeaderWaiter (.syncBatches missing deliver)
      pure true

def missingPayload (header : Header) : CoreTask Bool := c.missingPayloadFor header header

/-- A parent that need not be read from the store. -/
def cachedParent (s : Core) (digest : Digest) : Option Certificate :=
  (c.genesis.find? fun g => decide (g.digest = digest)).or (s.certificateCache.lookup digest)

/-- Read parents from the store: those found, and the digests missing. -/
def readParents : List Digest → CoreTask (List Certificate × List Digest)
  | [] => pure ([], [])
  | digest :: digests => do
    let s ← get
    match s.store.lookup digest with
    | none => do
      let (found, missing) ← readParents digests
      pure (found, digest :: missing)
    | some (.header _) => throw (.dag .serializationError)
    | some (.certificate certificate) => do
      check (certificate.verify c.committee c.dagProtocol)
      modify fun s => s.cacheAt digest certificate
      let (found, missing) ← readParents digests
      pure (certificate :: found, missing)

/-- One of the two loops of `get_parents`. -/
def getParentsOf (digests : List Digest) : CoreTask (List Certificate × List Digest) := do
  let s ← get
  let cached := digests.filterMap (c.cachedParent s)
  let (found, missing) ← c.readParents (digests.filter fun d => (c.cachedParent s d).isNone)
  pure (cached ++ found, missing)

def getParents (header : Header) : CoreTask (List Certificate × List Certificate) := do
  let (parents1, missing1) ← c.getParentsOf header.parents.toList
  let (parents2, missing2) ← c.getParentsOf
    (if c.dagProtocol.isShortfinFamily then header.parents2.toList else [])
  if (missing1 ++ missing2).isEmpty then pure (parents1, parents2)
  else do
    modify fun s => s.sendHeaderWaiter (.syncParents (missing1 ++ missing2) header)
    pure ([], [])

/-- The certificate of a digest is a genesis certificate, cached or in the store. -/
def available (s : Core) (digest : Digest) : Bool :=
  c.isGenesis digest || (s.certificateCache.lookup digest).isSome ||
    (s.store.lookup digest).isSome

def deliverCertificate (certificate : Certificate) : CoreTask Bool := do
  let s ← get
  let digests := certificate.header.parents.toList ++
    (if c.dagProtocol.isShortfinFamily then certificate.header.parents2.toList else [])
  if digests.all (c.available s) then pure true
  else do
    modify fun s => s.sendCertificateWaiter certificate
    pure false

/-! ## Signals -/

def roundDigests (s : Core) (round : ℕ) : List Digest × Core :=
  let byAuthority := (s.certificatesByRound.lookup round).getD ∅
  (c.order.order s.iterations (byAuthority.values.map Certificate.digest),
    { s with iterations := s.iterations + 1 })

/-- The later of two certificates, the second of two of one round. -/
def laterRound (best : Option Certificate) (certificate : Certificate) : Option Certificate :=
  match best with
  | some b => if certificate.round < b.round then some b else some certificate
  | none => some certificate

def latestRefDigests (s : Core) : List Digest :=
  c.committee.names.filterMap fun name =>
    let certificates := s.certificatesByRound.values.filterMap fun byAuthority =>
      byAuthority.lookup name
    (certificates.foldl laterRound none).map Certificate.digest

/-- One pending weak reference: carried unless it is covered, and pending no more. -/
def carryWeakRef (roots : List Certificate) (p : SortedSet Digest × Core)
    (slot : ℕ ×ₗ PublicKey ×ₗ Digest) : SortedSet Digest × Core :=
  let (parents, s) := p
  let digest := (ofLex (ofLex slot).2).2
  let remove (s : Core) : Core :=
    { s with mahiPendingWeakRefs := s.mahiPendingWeakRefs.filter fun x => decide (x ≠ slot) }
  match s.certificatesByDigest.lookup digest with
  | none => (parents, remove s)
  | some candidate =>
    if digest ∈ parents then (parents, remove s)
    else
      let (covered, s) := s.historyContainsHeaderFromRoots roots candidate.header.id
        candidate.origin candidate.round
      (if covered then parents else parents.insert digest, remove s)

def mahiParentDigests (s : Core) (strong : List Digest) (round : ℕ) : List Digest × Core :=
  let roots := strong.filterMap fun digest => s.certificatesByDigest.lookup digest
  let pending := s.mahiPendingWeakRefs.toList.filter fun slot => decide ((ofLex slot).1 ≤ round)
  let (parents, s) := pending.foldl (carryWeakRef roots) (SortedSet.ofList strong, s)
  (parents.toList, s)

/-- The stake of the authors of a round. -/
def roundWeight (byAuthority : FinMap PublicKey Certificate) : ℕ :=
  (byAuthority.keys.map c.committee.stake).sum

def embeddedQc (certificate : Certificate) : EmbeddedQc where
  target := certificate.header.id
  round := certificate.round
  votes := certificate.votes

/-- Signal the round after the next round to signal. -/
def signalRound (s : Core) (parents1 parents2 : List Digest) (qc : Option EmbeddedQc) : Core :=
  let s := s.sendProposer { round := s.nextRoundToSignal + 1, parents1, parents2, qc }
  { s with nextRoundToSignal := s.nextRoundToSignal + 1 }

/-- The body of the loop of `try_signal_proposer`, none where it breaks. -/
def signalStep (s : Core) : Option Core :=
  let round := s.nextRoundToSignal
  match s.certificatesByRound.lookup round with
  | none => none
  | some byAuthority =>
    if c.roundWeight byAuthority < c.committee.quorumThreshold then none
    else
      let (parents1, s) := c.roundDigests s round
      if parents1.isEmpty then none
      else if c.dagProtocol.isMahiMahi then
        let (parents1, s) := mahiParentDigests s parents1 round
        some (signalRound s parents1 [] none)
      else if c.dagProtocol.isShortfinFamily then
        match (byAuthority.lookup c.name).filter fun own => !own.votes.isEmpty with
        | none => none
        | some own =>
          let s := signalRound s (c.latestRefDigests s) [] (some (embeddedQc own))
          some { s with localRound := max s.localRound (round + 1) }
      else
        let (parents2, s) := c.roundDigests s (round - 1)
        let previous := (s.certificatesByRound.lookup (round - 1)).getD ∅
        if 2 ≤ round ∧ c.roundWeight previous < c.committee.quorumThreshold then none
        else
          match byAuthority.lookup c.name with
          | none => none
          | some own => some (signalRound s parents1 parents2 (some (embeddedQc own)))

/-- Each step needs the certificates of another round. -/
def signalLoop : ℕ → Core → Core
  | 0, s => s
  | fuel + 1, s =>
    match c.signalStep s with
    | none => s
    | some s => signalLoop fuel s

def trySignalProposer (s : Core) : Core :=
  c.signalLoop (s.certificatesByRound.entries.length + 1) s

/-- Send a QC-only follow-up signal when our own certificate arrives late. -/
def sendQcSignal (certificate : Certificate) (s : Core) : Core :=
  let targetRound := certificate.round + 1
  if targetRound ∈ s.pendingQcSignals then
    { s with pendingQcSignals := s.pendingQcSignals.erase targetRound }.sendProposer
      { round := targetRound, parents1 := [], qc := some (embeddedQc certificate) }
  else s

/-! ## Voting -/

/-- Vote for a header unless it or another of its author and round has a vote. -/
def voteForHeader (call : CoreCall → CoreTask Unit) (header : Header) : CoreTask Unit := do
  let s ← get
  if (s.votedHeaders.lookup header.id).isSome ∨ s.hasVoted header then pure ()
  else do
    modify fun s => s.recordVote header
    let voterRound := if c.dagProtocol.isShortfinFamily then s.localRound else header.round
    let vote := Vote.new header voterRound c.name
    modify fun s => s.signVote vote
    if vote.origin = c.name then expect "Failed to process our own vote" (call (.vote vote))
    else if header.author ∈ c.committee.names then
      modify fun s => s.send [header.author] (.vote vote)
    else throw (.panic "Author of valid header is not in the committee")

/-- The other members. -/
def others : List PublicKey := c.committee.names.filter fun name => decide (name ≠ c.name)

def processVote (call : CoreCall → CoreTask Unit) (vote : Vote) : CoreTask Unit := do
  let s ← get
  match s.ownHeaders.lookup vote.id with
  | none => throw (.dag (.unexpectedVote vote.id))
  | some header => do
    let assembled ← modifyGet fun s => s.appendVote c.committee vote header
    match assembled with
    | none => pure ()
    | some certificate => do
      modify fun s => if c.dagProtocol.isUncertifiedDag then s
        else s.send c.others (.certificate certificate)
      expect "Failed to process valid certificate" (call (.certificate certificate))

/-- Process the votes that count by now, and return the others. -/
def retryVotes (call : CoreCall → CoreTask Unit) : List Vote → CoreTask (List Vote)
  | [] => pure []
  | vote :: votes => do
    let s ← get
    if s.votePending vote then do
      let stillPending ← retryVotes call votes
      pure (vote :: stillPending)
    else do
      call (.vote vote)
      retryVotes call votes

def retryPending (call : CoreCall → CoreTask Unit) (entry : Digest × List Vote) :
    CoreTask Unit := do
  let stillPending ← retryVotes call entry.2
  modify fun s => if stillPending.isEmpty then s
    else { s with pendingVotes := s.pendingVotes.insert entry.1 stillPending }

def processPendingVotes (call : CoreCall → CoreTask Unit) : CoreTask Unit := do
  let s ← get
  modify fun s => { s with pendingVotes := ∅ }
  let entries ← c.iterate (s.pendingVotes.entries.map fun e => (e.1, e.2))
  entries.forM (retryPending call)

/-! ## Shortfin records -/

/-- Store a certificate and let the indexes know it. -/
def recordCertificate (certificate : Certificate) (s : Core) : Core :=
  (((s.storeCertificate certificate).cacheCertificate certificate).insertByRound
    certificate).indexCertificate certificate

/-- Deliver a record to the indexes and to consensus. -/
def deliverRecord (call : CoreCall → CoreTask Unit) (certificate : Certificate)
    (isCertificated : Bool) : CoreTask Unit := do
  modify (recordCertificate certificate)
  c.processPendingVotes call
  modify c.trySignalProposer
  modify fun s => if isCertificated && decide (certificate.origin = c.name) then
    sendQcSignal certificate s else s
  modify fun s => s.sendConsensus certificate

def emitShortfinRecord (call : CoreCall → CoreTask Unit) (id : Digest) : CoreTask Unit := do
  let s ← get
  match s.shortfinStates.lookup id, s.headersById.lookup id with
  | some state, some header =>
    let isCertificated := decide (state = .certificated)
    if id ∉ s.shortfinStructuralSent ∨ (isCertificated ∧ id ∉ s.shortfinCertifiedSent) then do
      modify fun s => s.markSent id isCertificated
      let votes := if isCertificated then (s.shortfinQcs.lookup id).getD [] else []
      c.deliverRecord call { header, votes } isCertificated
    else pure ()
  | _, _ => pure ()

/-! ## Headers -/

/-- A Shortfin header that was admitted before: has its payload come? -/
def resumeHeader (call : CoreCall → CoreTask Unit) (header : Header) : CoreTask Unit := do
  let s ← get
  if s.shortfinPayloadAvailable header.id then pure ()
  else do
    let missing ← c.missingPayload header
    if missing then pure ()
    else do
      modify fun s => s.markShortfinPayloadAvailable header.id
      c.voteForHeader call header
      c.emitShortfinRecord call header.id

/-- The loop over the parents in `validate_mahi_parents`: the stake of the authors of the round
before the header's. -/
def mahiParentStake (header : Header) :
    List Certificate → Finset PublicKey → ℕ → Except DagError ℕ
  | [], _, stake => .ok stake
  | parent :: parents, authors, stake => do
    ensure (parent.round < header.round) (.malformedHeader header.id)
    if parent.round + 1 = header.round ∧ parent.origin ∉ authors then
      mahiParentStake header parents (insert parent.origin authors)
        (stake + c.committee.stake parent.origin)
    else mahiParentStake header parents authors stake

def validateMahiParents (header : Header) (parents : List Certificate) : Except DagError Unit := do
  let previousRoundStake ← c.mahiParentStake header parents ∅ 0
  ensure (c.committee.quorumThreshold ≤ previousRoundStake) (.headerRequiresQuorum header.id)

/-- Every parent is of the round before, and their authors make a quorum. -/
def validateParents (header : Header) (parents : List Certificate) : Except DagError Unit := do
  ensure (parents.all fun x => decide (x.round + 1 = header.round)) (.malformedHeader header.id)
  ensure (c.committee.quorumThreshold ≤
      Weighted.weight c.committee.stake (parents.map Certificate.origin).toFinset)
    (.headerRequiresQuorum header.id)

/-- The voters of a QC by the round they voted in. -/
def votersByRound (votes : List Vote) : FinMap ℕ (Finset PublicKey) :=
  votes.foldl (fun voters vote =>
    voters.alter vote.voterRound fun names => insert vote.author (names.getD ∅)) ∅

/-- The voters of a round have a block there that the parents lead to, and that block had support. -/
def checkVoters (header : Header) (parents1 : List Certificate)
    (entry : ℕ × Finset PublicKey) : CoreTask Unit := do
  let authors ← modifyGet fun s => s.historyAuthorsAtRoundFromRoots parents1 entry.1
  check (ensure (decide (entry.2 ⊆ authors)) (.headerRequiresQuorum header.id))
  let support ← modifyGet fun s =>
    s.historySupportWeightFromRoots c.committee parents1 (entry.1 - 1)
  check (ensure (c.committee.quorumThreshold ≤ support) (.headerRequiresQuorum header.id))

/-- What a Shortfin header of round two or later shows about its embedded QC. -/
def checkQcHistory (header : Header) (parents1 : List Certificate) : CoreTask Unit := do
  match header.qc with
  | none => throw (.dag (.malformedHeader header.id))
  | some qc => do
    check (ensure (qc.round + 1 = header.round) (.malformedHeader header.id))
    let contains ← modifyGet fun s =>
      s.historyContainsHeaderFromRoots parents1 qc.target header.author qc.round
    check (ensure contains (.malformedHeader header.id))
    check (ensure (qc.votes.all fun vote => decide (0 < vote.voterRound))
      (.malformedHeader header.id))
    let entries ← c.iterate ((votersByRound qc.votes).entries.map fun e => (e.1, e.2))
    entries.forM (c.checkVoters header parents1)

def checkShortfin (header : Header) (parents1 parents2 : List Certificate) : CoreTask Unit := do
  let support ← modifyGet fun s =>
    s.historySupportWeightFromRoots c.committee parents1 (header.round - 1)
  check (ensure (c.committee.quorumThreshold ≤ support) (.headerRequiresQuorum header.id))
  check (ensure parents2.isEmpty (.malformedHeader header.id))
  if 2 ≤ header.round then c.checkQcHistory header parents1 else pure ()

/-- What the parents of a header must satisfy. -/
def checkParents (header : Header) (parents1 parents2 : List Certificate) : CoreTask Unit :=
  if header.round = 0 then pure ()
  else
    match c.dagProtocol with
    | .shortfin => c.checkShortfin header parents1 parents2
    | .mahiMahi | .mahiMahi4 | .mahiMahi5 => check (c.validateMahiParents header parents1)
    | .narwhal | .bullshark | .wahoo => check (c.validateParents header parents1)

/-- The payload of the QC target is here by now: vote for the target. -/
def makeTargetAvailable (call : CoreCall → CoreTask Unit) (id : Digest) (target : Header) :
    CoreTask Unit := do
  let s ← get
  if s.shortfinPayloadAvailable id then pure ()
  else do
    modify fun s => s.markShortfinPayloadAvailable id
    c.voteForHeader call target

/-- Learn the embedded QC and deliver its target; `false` if the payload of the target is missing. -/
def admitQcTarget (call : CoreCall → CoreTask Unit) (header : Header) : CoreTask Bool := do
  match header.qc with
  | none => pure true
  | some qc => do
    modify fun s => s.recordShortfinQc qc.target qc.votes
    let s ← get
    match s.headersById.lookup qc.target, s.shortfinStates.lookup qc.target with
    | some target, some _ => do
      let missing ← c.missingPayloadFor target header
      if missing then pure false
      else do
        c.makeTargetAvailable call qc.target target
        c.emitShortfinRecord call qc.target
        pure true
    | _, _ => throw (.dag (.malformedHeader header.id))

/-- Give a Shortfin header its state, and vote for it if its payload is here. -/
def admitBubble (call : CoreCall → CoreTask Unit) (header : Header) : CoreTask Unit := do
  modify fun s => s.orInsertBubble header.id
  let missing ← c.missingPayload header
  if missing then modify fun s => s.storeHeader header
  else do
    modify fun s => s.markShortfinPayloadAvailable header.id
    modify fun s => s.storeHeader header
    c.voteForHeader call header

def admitShortfin (call : CoreCall → CoreTask Unit) (header : Header) : CoreTask Unit := do
  modify fun s => s.insertHeader header
  let admitted ← c.admitQcTarget call header
  if admitted then c.admitBubble call header else pure ()

/-- Store a header whose payload is here, and vote for it where blocks are voted for. -/
def admitHeader (call : CoreCall → CoreTask Unit) (header : Header) : CoreTask Unit := do
  let missing ← c.missingPayload header
  if missing then pure ()
  else do
    modify fun s => s.storeHeader header
    if c.dagProtocol.isMahiMahi then pure () else c.voteForHeader call header

def processNewHeader (call : CoreCall → CoreTask Unit) (header : Header) : CoreTask Unit := do
  modify fun s => s.markProcessing header
  let (parents1, parents2) ← c.getParents header
  if parents1.isEmpty ∧ header.parents ≠ ∅ then pure ()
  else do
    c.checkParents header parents1 parents2
    if c.dagProtocol = .shortfin then c.admitShortfin call header else c.admitHeader call header

def processHeader (call : CoreCall → CoreTask Unit) (header : Header) : CoreTask Unit := do
  let s ← get
  if c.dagProtocol = .shortfin ∧ (s.shortfinStates.lookup header.id).isSome then
    c.resumeHeader call header
  else c.processNewHeader call header

/-! ## Certificates -/

/-- The header of a certificate was processed before. -/
def headerReady (s : Core) (header : Header) : Bool :=
  if c.dagProtocol = .shortfin then (s.shortfinStates.lookup header.id).isSome
  else s.isProcessing header

def ensureProcessed (call : CoreCall → CoreTask Unit) (header : Header) : CoreTask Unit := do
  let s ← get
  if c.headerReady s header then pure () else call (.header header)

/-- Send the parents for the next header once a round has a quorum of certificates. -/
def appendNarwhal (certificate : Certificate) (s : Core) : Core :=
  let (parents, aggregator) := ((s.certificatesAggregators.lookup certificate.round).getD {}).append
    c.committee certificate
  let s := { s with certificatesAggregators :=
    s.certificatesAggregators.insert certificate.round aggregator }
  match parents with
  | none => s
  | some parents1 => s.sendProposer { round := certificate.round + 1, parents1 }

/-- Send the certificates of a round that has a quorum. -/
def appendBullshark (certificate : Certificate) (s : Core) : Core :=
  let (parents, aggregator) :=
    ((s.certificatesVecAggregators.lookup certificate.round).getD {}).append c.committee certificate
  let s := { s with certificatesVecAggregators :=
    s.certificatesVecAggregators.insert certificate.round aggregator }
  match parents with
  | none => s
  | some parents => s.sendProposer
      { round := certificate.round, parents1 := parents.map Certificate.digest,
        certificates1 := parents }

def acceptCertificate (call : CoreCall → CoreTask Unit) (certificate : Certificate) :
    CoreTask Unit :=
  match c.dagProtocol with
  | .shortfin => c.emitShortfinRecord call certificate.header.id
  | .mahiMahi | .mahiMahi4 | .mahiMahi5 => do
    modify (recordCertificate certificate)
    modify fun s => s.recordMahiWeakRef certificate
    c.processPendingVotes call
    modify c.trySignalProposer
    modify fun s => s.sendConsensus certificate
  | .narwhal => do
    modify fun s => s.storeCertificate certificate
    modify (c.appendNarwhal certificate)
    modify fun s => s.sendConsensus certificate
  | .bullshark | .wahoo => do
    modify fun s => s.storeCertificate certificate
    modify (c.appendBullshark certificate)
    modify fun s => s.sendConsensus certificate

/-- A Shortfin certificate with votes tells a QC. -/
def learnQc (certificate : Certificate) (s : Core) : Core :=
  if c.dagProtocol = .shortfin ∧ certificate.votes ≠ [] then
    (s.insertHeader certificate.header).recordShortfinQc certificate.header.id certificate.votes
  else s

def processCertificate (call : CoreCall → CoreTask Unit) (certificate : Certificate) :
    CoreTask Unit := do
  modify (c.learnQc certificate)
  c.ensureProcessed call certificate.header
  let s ← get
  if c.dagProtocol = .shortfin ∧ (s.shortfinStates.lookup certificate.header.id).isNone then pure ()
  else do
    let delivered ← c.deliverCertificate certificate
    if delivered then c.acceptCertificate call certificate else pure ()

/-! ## The main loop -/

/-- The body of a call, over the calls it makes. -/
def body (call : CoreCall → CoreTask Unit) : CoreCall → CoreTask Unit
  | .header header => c.processHeader call header
  | .vote vote => c.processVote call vote
  | .certificate certificate => c.processCertificate call certificate

def perform : ℕ → CoreCall → CoreTask Unit := tie c.body .outOfFuel

/-- A block of an uncertified DAG is its header: process it as a certificate without votes. -/
def maybeSynthesizeUncertifiedCert (call : CoreCall → CoreTask Unit) (header : Header) :
    CoreTask Unit := do
  let s ← get
  if !c.dagProtocol.isUncertifiedDag ||
      (decide (c.dagProtocol = .shortfin) && (s.shortfinStates.lookup header.id).isNone) then
    pure ()
  else logged (call (.certificate { header, votes := [] }))

def handleHeader (call : CoreCall → CoreTask Unit) (header : Header) : CoreTask Unit := do
  call (.header header)
  c.maybeSynthesizeUncertifiedCert call header

/-- Start to collect the votes for our own header. -/
def startOwnHeader (header : Header) (s : Core) : Core :=
  { s with
    localRound := if c.dagProtocol.isShortfinFamily then max s.localRound header.round
      else s.localRound
    currentHeader := header
    ownHeaders := s.ownHeaders.insert header.id header
    votesAggregators := s.votesAggregators.alter header.id fun a => a.getD {} }

def processOwnHeader (call : CoreCall → CoreTask Unit) (header : Header) : CoreTask Unit := do
  modify (c.startOwnHeader header)
  c.handleHeader call header
  modify fun s => s.send c.others (.header header)

def sanitizeHeader (s : Core) (header : Header) : Except DagError Unit := do
  ensure (s.gcRound ≤ header.round) (.tooOld header.id header.round)
  let localRound :=
    if c.dagProtocol.isShortfinFamily then s.localRound else s.currentHeader.round
  ensure (header.round ≤ localRound + 10) (.tooOld header.id header.round)
  header.verify c.committee c.dagProtocol

def sanitizeVote (s : Core) (vote : Vote) : Except DagError Unit := do
  ensure (s.gcRound ≤ vote.round) (.tooOld vote.digest vote.round)
  match s.ownHeaders.lookup vote.id with
  | none => .error (.unexpectedVote vote.id)
  | some header => do
    ensure (vote.origin = header.author ∧ vote.round = header.round) (.unexpectedVote vote.id)
    ensure (!c.dagProtocol.isShortfinFamily || 0 < vote.voterRound) (.unexpectedVote vote.id)
    vote.verify c.committee

def sanitizeCertificate (s : Core) (certificate : Certificate) : Except DagError Unit := do
  ensure (s.gcRound ≤ certificate.round) (.tooOld certificate.digest certificate.round)
  certificate.verify c.committee c.dagProtocol

/-- `process_vote_when_countable`. -/
def processVoteWhenCountable (call : CoreCall → CoreTask Unit) (vote : Vote) : CoreTask Unit := do
  let s ← get
  if s.votePending vote then modify fun s => s.cachePendingVote vote else call (.vote vote)

def handleMessage (call : CoreCall → CoreTask Unit) : PrimaryMessage → CoreTask Unit
  | .header header => do
    let s ← get
    check (c.sanitizeHeader s header)
    c.handleHeader call header
  | .vote vote => do
    let s ← get
    check (c.sanitizeVote s vote)
    if c.dagProtocol.isShortfinFamily then processVoteWhenCountable call vote
    else call (.vote vote)
  | .certificate certificate => do
    let s ← get
    check (c.sanitizeCertificate s certificate)
    call (.certificate certificate)
  | _ => throw (.panic "Unexpected core message")

/-- Forget what lies before a round. -/
def cleanup (gcRound : ℕ) (s : Core) : Core :=
  let ownHeaders := s.ownHeaders.retain fun _ header => decide (gcRound ≤ header.round)
  let certificatesByRound := s.certificatesByRound.retain fun k _ => decide (gcRound ≤ k)
  let live := certificatesByRound.values.flatMap FinMap.values
  let isLive (digest : Digest) : Bool := live.any fun x => decide (x.digest = digest)
  let isLiveId (id : Digest) : Bool := live.any fun x => decide (x.header.id = id)
  { s with
    lastVoted := s.lastVoted.retain fun k _ => decide (gcRound ≤ k)
    votedHeaders := s.votedHeaders.retain fun _ round => decide (gcRound ≤ round)
    processing := s.processing.retain fun k _ => decide (gcRound ≤ k)
    ownHeaders
    votesAggregators := s.votesAggregators.retain fun id _ => (ownHeaders.lookup id).isSome
    certificatesAggregators := s.certificatesAggregators.retain fun k _ => decide (gcRound ≤ k)
    certificatesVecAggregators := s.certificatesVecAggregators.retain fun k _ =>
      decide (gcRound ≤ k)
    certificatesByRound
    certificatesByDigest := s.certificatesByDigest.retain fun digest _ => isLive digest
    headersById := s.headersById.retain fun id _ => isLiveId id
    historySupportCache := s.historySupportCache.retain fun key _ => isLive key.1
    historyIdCache := s.historyIdCache.retain fun key _ => isLive key.1
    mahiPendingWeakRefs := s.mahiPendingWeakRefs.filter fun slot =>
      decide (gcRound ≤ (ofLex slot).1) && isLive (ofLex (ofLex slot).2).2
    shortfinStates := s.shortfinStates.retain fun id _ => isLiveId id
    shortfinQcs := s.shortfinQcs.retain fun id _ => isLiveId id
    shortfinStructuralSent := s.shortfinStructuralSent.filter fun id => isLiveId id
    shortfinCertifiedSent := s.shortfinCertifiedSent.filter fun id => isLiveId id
    pendingVotes := s.pendingVotes.retain fun id _ => (ownHeaders.lookup id).isSome
    gcRound }

/-- The clean-up at the end of the loop. -/
def cleanupStep (s : Core) : Core :=
  if c.gcDepth < s.consensusRound then cleanup (s.consensusRound - c.gcDepth) s else s

/-- What the loop receives. The garbage collector sets the consensus round. -/
inductive Input
  | message (message : PrimaryMessage)
  | headerWaiter (header : Header)
  | certificateWaiter (certificate : Certificate)
  | proposer (header : Header)
  | consensusRound (round : ℕ)

/-- The calls between the functions add a vote of a member to the votes for one of our headers at
every third level. -/
def fuel (s : Core) : ℕ := 3 * ((s.ownHeaders.entries.length + 1) * c.committee.size) + 4

def dispatch (call : CoreCall → CoreTask Unit) : Input → CoreTask Unit
  | .message message => c.handleMessage call message
  | .headerWaiter header => c.handleHeader call header
  | .certificateWaiter certificate => call (.certificate certificate)
  | .proposer header => c.processOwnHeader call header
  | .consensusRound _ => pure ()

/-- Errors are logged, unless the storage failed. -/
def handleResult (m : CoreTask Unit) : CoreTask Unit :=
  tryCatch m fun
    | .dag .storeError => throw (.panic "Storage failure: killing node.")
    | .dag _ => pure ()
    | e => throw e

/-- One turn of the loop of `run`. -/
def handleInput : Input → CoreTask Unit
  | .consensusRound round => modify fun s => { s with consensusRound := round }
  | input => do
    let s ← get
    handleResult (c.dispatch (c.perform (c.fuel s)) input)
    modify c.cleanupStep

/-- The state `Core::spawn` starts from. -/
def init : Core where
  certificatesByRound :=
    FinMap.ofList [(0, FinMap.ofList (c.genesis.map fun g => (g.origin, g)))]
  certificatesByDigest := FinMap.ofList (c.genesis.map fun g => (g.digest, g))
  certificateCache := FinMap.ofList (c.genesis.map fun g => (g.digest, g))

/-- How a run on some inputs ends, and the state it leaves. -/
def run (inputs : List Input) : Except CoreFault Unit × Core :=
  exec (inputs.forM c.handleInput) c.init

end CoreConfig

end NovelDag
