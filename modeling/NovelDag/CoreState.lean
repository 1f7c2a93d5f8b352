import NovelDag.WahooNode

/-!
# The state of the primary's core

The messages between primaries and between the tasks of one primary, the aggregators of votes and
certificates, and the state of the `Core` task with the updates its handlers make. The state holds
the store, the cache of the synchronizer and, as logs, what was sent on each channel. Sync hints,
cancel handlers, network addresses and benchmark diagnostics are left out.
-/

namespace NovelDag

inductive PrimaryMessage
  | header (header : Header)
  | vote (vote : Vote)
  | certificate (certificate : Certificate)
  | certificatesRequest (missing : List Digest) (requestor : PublicKey)
  | wahoo (message : Wahoo.WahooMessage)
  | recp (recp : RecpMessage)

/-- What `Core` sends to the `Proposer`. -/
structure ProposerSignal where
  round : ℕ
  parents1 : List Digest
  parents2 : List Digest := []
  qc : Option EmbeddedQc := none
  certificates1 : List Certificate := []

/-- What the synchronizer sends to the `HeaderWaiter`. -/
inductive WaiterMessage
  | syncBatches (missing : List (Digest × ℕ)) (deliver : Header)
  | syncParents (missing : List Digest) (header : Header)

/-- The header the waiter delivers. -/
def WaiterMessage.deliver : WaiterMessage → Header
  | syncBatches _ deliver => deliver
  | syncParents _ header => header

/-! ## Aggregators -/

section Aggregators

/-- Aggregates votes for a particular header into a certificate. -/
structure VotesAggregator where
  weight : ℕ := 0
  votes : List Vote := []
  used : Finset PublicKey := ∅

/-- Aggregate certificates (by digest) and check if we reach a quorum. -/
structure CertificatesAggregator where
  weight : ℕ := 0
  certificates : List Digest := []
  used : Finset PublicKey := ∅

/-- Aggregate certificates (full values) and check if we reach a quorum. -/
structure CertificatesVecAggregator where
  weight : ℕ := 0
  certificates : List Certificate := []
  used : Finset PublicKey := ∅

variable (committee : Committee)

def VotesAggregator.append (a : VotesAggregator) (vote : Vote) (header : Header) :
    Option Certificate × VotesAggregator :=
  if vote.author ∈ a.used then (none, a)
  else
    let used := insert vote.author a.used
    let votes := a.votes ++ [vote]
    let weight := a.weight + committee.stake vote.author
    if committee.quorumThreshold ≤ weight then
      (some { header, votes }, { weight := 0, votes, used }) -- Ensures quorum is only reached once.
    else (none, { weight, votes, used })

def CertificatesAggregator.append [Crypto] (a : CertificatesAggregator)
    (certificate : Certificate) : Option (List Digest) × CertificatesAggregator :=
  if certificate.origin ∈ a.used then (none, a)
  else
    let used := insert certificate.origin a.used
    let certificates := a.certificates ++ [certificate.digest]
    let weight := a.weight + committee.stake certificate.origin
    if committee.quorumThreshold ≤ weight then
      (some certificates, { weight := 0, certificates := [], used })
    else (none, { weight, certificates, used })

/-- The weight is kept, so that every later certificate makes a quorum again. -/
def CertificatesVecAggregator.append (a : CertificatesVecAggregator)
    (certificate : Certificate) : Option (List Certificate) × CertificatesVecAggregator :=
  if certificate.origin ∈ a.used then (none, a)
  else
    let used := insert certificate.origin a.used
    let certificates := a.certificates ++ [certificate]
    let weight := a.weight + committee.stake certificate.origin
    if committee.quorumThreshold ≤ weight then
      (some certificates, { weight, certificates := [], used })
    else (none, { weight, certificates, used })

end Aggregators

/-! ## State -/

inductive ShortfinBlockState
  | bubble
  | uncertificated
  | certificated
  deriving DecidableEq

/-- What is stored under a digest. Batches have longer keys. -/
inductive StoreValue
  | header (header : Header)
  | certificate (certificate : Certificate)

/-- The certificates by round and author. -/
abbrev CertificatesByRound := FinMap ℕ (FinMap PublicKey Certificate)

abbrev SupportCache := FinMap (Digest × ℕ) (Finset PublicKey)

abbrev IdCache := FinMap (Digest × Digest) Bool

structure Core where
  gcRound : ℕ := 0
  lastVoted : FinMap ℕ (Finset PublicKey) := ∅
  votedHeaders : FinMap Digest ℕ := ∅
  processing : FinMap ℕ (Finset Digest) := ∅
  currentHeader : Header := {}
  localRound : ℕ := 1
  ownHeaders : FinMap Digest Header := ∅
  votesAggregators : FinMap Digest VotesAggregator := ∅
  certificatesAggregators : FinMap ℕ CertificatesAggregator := ∅
  certificatesVecAggregators : FinMap ℕ CertificatesVecAggregator := ∅
  certificatesByRound : CertificatesByRound := ∅
  certificatesByDigest : FinMap Digest Certificate := ∅
  headersById : FinMap Digest Header := ∅
  historySupportCache : SupportCache := ∅
  historyIdCache : IdCache := ∅
  /-- The slots of `mahi_pending_weak_refs`, whose value is the digest in the key. -/
  mahiPendingWeakRefs : SortedSet (ℕ ×ₗ PublicKey ×ₗ Digest) := ∅
  pendingVotes : FinMap Digest (List Vote) := ∅
  shortfinStates : FinMap Digest ShortfinBlockState := ∅
  shortfinQcs : FinMap Digest (List Vote) := ∅
  shortfinStructuralSent : Finset Digest := ∅
  shortfinCertifiedSent : Finset Digest := ∅
  nextRoundToSignal : ℕ := 1
  pendingQcSignals : Finset ℕ := ∅
  /-- The cache of the synchronizer. -/
  certificateCache : FinMap Digest Certificate := ∅
  store : FinMap Digest StoreValue := ∅
  /-- The keys of the batches in the store. -/
  batches : Finset (Digest × ℕ) := ∅
  /-- The variable the garbage collector writes. -/
  consensusRound : ℕ := 0
  /-- How often a hash map was iterated or the store was asked for batches. -/
  iterations : ℕ := 0
  toConsensus : List Certificate := []
  toProposer : List ProposerSignal := []
  toHeaderWaiter : List WaiterMessage := []
  toCertificateWaiter : List Certificate := []
  /-- The votes made with `Vote::new`. -/
  signedVotes : List Vote := []
  /-- The messages sent to other primaries, each with its receivers. -/
  network : List (List PublicKey × PrimaryMessage) := []

namespace Core

section Updates

variable (s : Core)

/-! ### Voting -/

def markProcessing (header : Header) : Core :=
  { s with processing :=
      s.processing.alter header.round fun ids => insert header.id (ids.getD ∅) }

def isProcessing (header : Header) : Bool :=
  decide (header.id ∈ (s.processing.lookup header.round).getD ∅)

def hasVoted (header : Header) : Bool :=
  decide (header.author ∈ (s.lastVoted.lookup header.round).getD ∅)

/-- Remember the vote for a header. -/
def recordVote (header : Header) : Core :=
  { s with
    lastVoted := s.lastVoted.alter header.round fun names => insert header.author (names.getD ∅)
    votedHeaders := s.votedHeaders.insert header.id header.round }

def signVote (vote : Vote) : Core := { s with signedVotes := s.signedVotes ++ [vote] }

def send (targets : List PublicKey) (message : PrimaryMessage) : Core :=
  { s with network := s.network ++ [(targets, message)] }

/-- `votes_aggregators.entry(id).or_insert_with(VotesAggregator::new).append(..)`. -/
def appendVote (committee : Committee) (vote : Vote) (header : Header) :
    Option Certificate × Core :=
  let (certificate, aggregator) :=
    ((s.votesAggregators.lookup header.id).getD {}).append committee vote header
  (certificate, { s with votesAggregators := s.votesAggregators.insert header.id aggregator })

/-- `vote_pending_reason` gives a reason. -/
def votePending (vote : Vote) : Bool :=
  decide (vote.voterRound ≠ 0) &&
    (((s.certificatesByRound.lookup vote.voterRound).getD ∅).lookup vote.author).isNone

def cachePendingVote (vote : Vote) : Core :=
  { s with pendingVotes := s.pendingVotes.alter vote.id fun votes => votes.getD [] ++ [vote] }

/-! ### Store and synchronizer -/

def storeHeader (header : Header) : Core :=
  { s with store := s.store.insert header.id (.header header) }

def cacheAt (digest : Digest) (certificate : Certificate) : Core :=
  { s with certificateCache := s.certificateCache.insert digest certificate }

def sendHeaderWaiter (message : WaiterMessage) : Core :=
  { s with toHeaderWaiter := s.toHeaderWaiter ++ [message] }

def sendCertificateWaiter (certificate : Certificate) : Core :=
  { s with toCertificateWaiter := s.toCertificateWaiter ++ [certificate] }

def sendConsensus (certificate : Certificate) : Core :=
  { s with toConsensus := s.toConsensus ++ [certificate] }

def sendProposer (signal : ProposerSignal) : Core :=
  { s with toProposer := s.toProposer ++ [signal] }

/-! ### Indexes -/

def insertHeader (header : Header) : Core :=
  { s with headersById := s.headersById.insert header.id header }

def insertByRound (certificate : Certificate) : Core :=
  { s with certificatesByRound := s.certificatesByRound.alter certificate.round fun byAuthority =>
      (byAuthority.getD ∅).insert certificate.origin certificate }

/-! ### Shortfin blocks -/

def shortfinPayloadAvailable (id : Digest) : Bool :=
  match s.shortfinStates.lookup id with
  | some .uncertificated | some .certificated => true
  | _ => false

def recordShortfinQc (id : Digest) (votes : List Vote) : Core :=
  let s := { s with shortfinQcs := s.shortfinQcs.alter id fun old => old.getD votes }
  if s.shortfinStates.lookup id = some .uncertificated then
    { s with shortfinStates := s.shortfinStates.insert id .certificated }
  else s

def markShortfinPayloadAvailable (id : Digest) : Core :=
  let state := if (s.shortfinQcs.lookup id).isSome then .certificated else .uncertificated
  { s with shortfinStates := s.shortfinStates.insert id state }

/-- `shortfin_states.entry(id).or_insert(ShortfinBlockState::Bubble)`. -/
def orInsertBubble (id : Digest) : Core :=
  { s with shortfinStates := s.shortfinStates.alter id fun state => state.getD .bubble }

/-- Remember that a record is delivered, and whether certified. -/
def markSent (id : Digest) (isCertificated : Bool) : Core :=
  { s with
    shortfinStructuralSent := insert id s.shortfinStructuralSent
    shortfinCertifiedSent :=
      if isCertificated then insert id s.shortfinCertifiedSent else s.shortfinCertifiedSent }

end Updates

section Digests

variable [Crypto] (s : Core)

def storeCertificate (certificate : Certificate) : Core :=
  { s with store := s.store.insert certificate.digest (.certificate certificate) }

def cacheCertificate (certificate : Certificate) : Core :=
  s.cacheAt certificate.digest certificate

def indexCertificate (certificate : Certificate) : Core :=
  { s with
    headersById := s.headersById.insert certificate.header.id certificate.header
    certificatesByDigest := s.certificatesByDigest.insert certificate.digest certificate }

def indexRoots (roots : List Certificate) : Core := roots.foldl indexCertificate s

def recordMahiWeakRef (certificate : Certificate) : Core :=
  if certificate.round = 0 then s
  else
    let slot := toLex (certificate.round, toLex (certificate.origin, certificate.digest))
    { s with mahiPendingWeakRefs := s.mahiPendingWeakRefs.insert slot }

end Digests

/-! ## History queries -/

section History

variable [Crypto]

/-- Ask for each parent, and collect the authors as long as there is an answer. -/
def reachParents (query : Digest → SupportCache → Option (Finset PublicKey) × SupportCache) :
    List Digest → Finset PublicKey → SupportCache → Option (Finset PublicKey) × SupportCache
  | [], authors, cache => (some authors, cache)
  | parent :: parents, authors, cache =>
    match query parent cache with
    | (none, cache) => (none, cache)
    | (some parentAuthors, cache) => reachParents query parents (authors ∪ parentAuthors) cache

/-- The parents of both kinds. -/
def allParents (certificate : Certificate) : List Digest :=
  certificate.header.parents.toList ++ certificate.header.parents2.toList

/-- The authors of a round reachable from a root, with the cache. `visiting` holds the digests on the
way from the first root, so that fuel above the number of certificates is enough. -/
def reachableAuthorsAtRound (certificates : FinMap Digest Certificate) (round : ℕ) :
    ℕ → Finset Digest → Digest → SupportCache → Option (Finset PublicKey) × SupportCache
  | 0, _, _, cache => (none, cache)
  | fuel + 1, visiting, root, cache =>
    match cache.lookup (root, round) with
    | some authors => (some authors, cache)
    | none =>
      if root ∈ visiting then (some ∅, cache)
      else
        match certificates.lookup root with
        | none => (none, cache)
        | some certificate =>
          let found :=
            if certificate.round = round then (some {certificate.origin}, cache)
            else if round < certificate.round then
              reachParents
                (reachableAuthorsAtRound certificates round fuel (insert root visiting))
                (allParents certificate) ∅ cache
            else (some ∅, cache)
          match found with
          | (none, cache) => (none, cache)
          | (some authors, cache) => (some authors, cache.insert (root, round) authors)

/-- The authors each root reaches at a round. -/
def authorsFromRoots (certificates : FinMap Digest Certificate) (round : ℕ) :
    List Certificate → Finset PublicKey → SupportCache → Finset PublicKey × SupportCache
  | [], authors, cache => (authors, cache)
  | root :: roots, authors, cache =>
    let (rootAuthors, cache) := reachableAuthorsAtRound certificates round
      (certificates.entries.length + 2) ∅ root.digest cache
    authorsFromRoots certificates round roots (authors ∪ rootAuthors.getD ∅) cache

def historyAuthorsAtRoundFromRoots (s : Core) (roots : List Certificate) (round : ℕ) :
    Finset PublicKey × Core :=
  let s := s.indexRoots roots
  let (authors, cache) :=
    authorsFromRoots s.certificatesByDigest round roots ∅ s.historySupportCache
  (authors, { s with historySupportCache := cache })

def historySupportWeightFromRoots (committee : Committee) (s : Core) (roots : List Certificate)
    (round : ℕ) : ℕ × Core :=
  let (authors, s) := s.historyAuthorsAtRoundFromRoots roots round
  (Weighted.weight committee.stake authors, s)

/-- Ask each parent, up to the first that holds the header or has no answer. -/
def searchParents (query : Digest → IdCache → Option Bool × IdCache) :
    List Digest → IdCache → Option Bool × IdCache
  | [], cache => (some false, cache)
  | parent :: parents, cache =>
    match query parent cache with
    | (none, cache) => (none, cache)
    | (some true, cache) => (some true, cache)
    | (some false, cache) => searchParents query parents cache

/-- Is the header `id` of an author and round in the history of a root? -/
def historyContainsHeaderFromRoot (certificates : FinMap Digest Certificate) (id : Digest)
    (origin : PublicKey) (minRound : ℕ) :
    ℕ → Finset Digest → Digest → IdCache → Option Bool × IdCache
  | 0, _, _, cache => (none, cache)
  | fuel + 1, visiting, root, cache =>
    match cache.lookup (root, id) with
    | some contains => (some contains, cache)
    | none =>
      if root ∈ visiting then (some false, cache)
      else
        match certificates.lookup root with
        | none => (none, cache)
        | some certificate =>
          let found :=
            if certificate.header.id = id ∧ certificate.origin = origin ∧
                certificate.round = minRound then (some true, cache)
            else if certificate.round < minRound then (some false, cache)
            else searchParents
              (historyContainsHeaderFromRoot certificates id origin minRound fuel
                (insert root visiting)) (allParents certificate) cache
          match found with
          | (none, cache) => (none, cache)
          | (some contains, cache) => (some contains, cache.insert (root, id) contains)

/-- Ask each root, up to the first that holds the header. -/
def containsFromRoots (certificates : FinMap Digest Certificate) (id : Digest)
    (origin : PublicKey) (round : ℕ) : List Certificate → IdCache → Bool × IdCache
  | [], cache => (false, cache)
  | root :: roots, cache =>
    match historyContainsHeaderFromRoot certificates id origin round
        (certificates.entries.length + 2) ∅ root.digest cache with
    | (some true, cache) => (true, cache)
    | (_, cache) => containsFromRoots certificates id origin round roots cache

def historyContainsHeaderFromRoots (s : Core) (roots : List Certificate) (id : Digest)
    (origin : PublicKey) (round : ℕ) : Bool × Core :=
  let s := s.indexRoots roots
  if roots.any fun root =>
      decide (root.header.id = id ∧ root.origin = origin ∧ root.round = round) then (true, s)
  else
    let (contains, cache) :=
      containsFromRoots s.certificatesByDigest id origin round roots s.historyIdCache
    (contains, { s with historyIdCache := cache })

end History

end Core

end NovelDag
