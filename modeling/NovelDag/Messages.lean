import NovelDag.Config
import NovelDag.Lib.Fallible
import NovelDag.Lib.SortedSet

/-!
# Headers, votes and certificates

The messages primaries exchange, the byte strings their digests hash, and the checks a receiver
makes before it uses one. A fixed text such as `b"WTAG"` is written as its four bytes.
-/

namespace NovelDag

open Encoding Fallible

inductive WahooTag
  | epbcTs1
  | epbcTs2
  | epbcTf
  | pbc
  | pbcVoteComplete
  deriving DecidableEq

def WahooTag.toByte : WahooTag → UInt8
  | epbcTs1 => 1
  | epbcTs2 => 2
  | epbcTf => 3
  | pbc => 4
  | pbcVoteComplete => 5

inductive WahooVotePhase
  | ts1
  | ts2
  | tf
  | pbc
  deriving DecidableEq

def WahooVotePhase.toByte : WahooVotePhase → UInt8
  | ts1 => 1
  | ts2 => 2
  | tf => 3
  | pbc => 4

@[ext] structure Vote where
  id : Digest := 0
  round : ℕ := 0
  voterRound : ℕ := 0
  origin : PublicKey := 0
  author : PublicKey := 0
  wahooPhase : Option WahooVotePhase := none
  signature : Signature := default
  deriving DecidableEq

@[ext] structure EmbeddedQc where
  target : Digest := 0
  round : ℕ := 0
  votes : List Vote := []
  deriving DecidableEq

@[ext] structure RecpMessage where
  blockHash : Digest := 0
  round : ℕ := 0
  author : PublicKey := 0
  share : List UInt8 := []
  deriving DecidableEq

inductive LeaderProof
  | exclusiveCommit (sig : List UInt8)
  | noCommit (recps : List RecpMessage)
  deriving DecidableEq

@[ext] structure LeaderLink where
  hash : Option Digest := none
  proof : LeaderProof := .noCommit []
  deriving DecidableEq

structure Header where
  author : PublicKey := 0
  round : ℕ := 0
  payload : SortedMap Digest ℕ := ∅
  parents : SortedSet Digest := ∅
  parents2 : SortedSet Digest := ∅
  qc : Option EmbeddedQc := none
  coinShare : List UInt8 := []
  wahooTag : Option WahooTag := none
  leaderLink : Option LeaderLink := none
  equivocationTag : ℕ := 0
  benchmarkInvalidPayload : Bool := false
  id : Digest := 0
  signature : Signature := default
  deriving DecidableEq

instance : Inhabited Header := ⟨{}⟩

structure Certificate where
  header : Header := {}
  votes : List Vote := []
  deriving DecidableEq

instance : Inhabited Certificate := ⟨{}⟩

inductive DagError
  | invalidSignature
  | storeError
  | serializationError
  | invalidHeaderId
  | malformedHeader (id : Digest)
  | unknownAuthority (name : PublicKey)
  | authorityReuse (name : PublicKey)
  | unexpectedVote (id : Digest)
  | certificateRequiresQuorum
  | headerRequiresQuorum (id : Digest)
  | tooOld (id : Digest) (round : ℕ)
  | invalidLeaderLink
  deriving DecidableEq

/-! ## Digests -/

section Digests

/-- What the digest of a header hashes for one vote of its embedded QC. -/
def Vote.embed (v : Vote) : List UInt8 :=
  v.id.bytes ++ (leBytes 8 v.round ++ (leBytes 8 v.voterRound ++ (v.origin.bytes ++
    (v.author.bytes ++ v.signature.toBytes))))

def RecpMessage.embed (r : RecpMessage) : List UInt8 :=
  r.blockHash.bytes ++ (leBytes 8 r.round ++ (r.author.bytes ++ r.share))

def EmbeddedQc.embed (qc : EmbeddedQc) : List UInt8 :=
  qc.target.bytes ++ (leBytes 8 qc.round ++ qc.votes.flatMap Vote.embed)

def LeaderProof.embed : LeaderProof → List UInt8
  | .exclusiveCommit sig => [87, 76, 80, 69] ++ sig -- b"WLPE"
  | .noCommit recps => -- b"WLPN"
    [87, 76, 80, 78] ++ (leBytes 4 recps.length ++ recps.flatMap RecpMessage.embed)

def LeaderLink.embed (ll : LeaderLink) : List UInt8 :=
  [87, 76, 76, 78] ++ -- b"WLLN", then b"WLLH"
    ((ll.hash.elim [] fun h => [87, 76, 76, 72] ++ h.bytes) ++ ll.proof.embed)

namespace Header

variable (h : Header)

/-- The byte string `Header::digest` feeds to SHA-512, one entry for each group of updates. -/
def encode : List UInt8 := List.flatten
  [h.author.bytes,
    leBytes 8 h.round,
    h.payload.toList.flatMap fun e => e.1.bytes ++ leBytes 4 e.2,
    h.parents.toList.flatMap Digest.bytes,
    h.parents2.toList.flatMap Digest.bytes,
    h.qc.elim [] EmbeddedQc.embed,
    h.coinShare,
    h.wahooTag.elim [] fun tag => [87, 84, 65, 71, tag.toByte], -- b"WTAG"
    h.leaderLink.elim [] LeaderLink.embed,
    if h.equivocationTag ≠ 0 then [69, 81, 86, 67] ++ leBytes 8 h.equivocationTag else [], -- b"EQVC"
    if h.benchmarkInvalidPayload then [66, 73, 78, 86] else []] -- b"BINV"

end Header

def Header.digest [Crypto] (h : Header) : Digest := Crypto.sha512 h.encode

def Vote.digest [Crypto] (v : Vote) : Digest := Crypto.sha512 <| List.flatten
  [v.id.bytes, leBytes 8 v.round, leBytes 8 v.voterRound, v.origin.bytes,
    v.wahooPhase.elim [] fun phase => [87, 86, 80, 72, phase.toByte]] -- b"WVPH"

/-- `Vote::new`: the vote of `author` on a header, made in its round `voterRound`. -/
def Vote.new [Crypto] (header : Header) (voterRound : ℕ) (author : PublicKey) : Vote :=
  let vote : Vote :=
    { id := header.id, round := header.round, voterRound, origin := header.author, author }
  { vote with signature := Crypto.sign author vote.digest }

namespace Certificate

variable (cert : Certificate)

abbrev round : ℕ := cert.header.round

abbrev origin : PublicKey := cert.header.author

/-- `PartialEq for Certificate`. -/
def partialEq (other : Certificate) : Bool :=
  decide (cert.header.id = other.header.id ∧ cert.round = other.round ∧
    cert.origin = other.origin)

def genesis (committee : Committee) : List Certificate :=
  committee.names.map fun name => { header := { author := name } }

end Certificate

def Certificate.digest [Crypto] (cert : Certificate) : Digest := Crypto.sha512 <| List.flatten
  [cert.header.id.bytes, leBytes 8 cert.round, cert.origin.bytes]

/-- The certificate of an author in a round on the certificates of the round before whose authors
are listed, out of those known. -/
def Certificate.on [Crypto] (known : List Certificate) (round author : ℕ) (parents : List ℕ) :
    Certificate :=
  let header : Header :=
    { author := ⟨Fin.ofNat _ author⟩, round
      parents := SortedSet.ofList ((known.filter fun p =>
        decide (p.round + 1 = round ∧ p.origin.val.val ∈ parents)).map Certificate.digest) }
  { header := { header with id := header.digest } }

/-- The genesis certificates and then one certificate for each row of round, author and parents. -/
def Certificate.ofTable [Crypto] (committee : Committee) (rows : List (ℕ × ℕ × List ℕ)) :
    List Certificate :=
  rows.foldl (fun known row => known ++ [Certificate.on known row.1 row.2.1 row.2.2])
    (Certificate.genesis committee)

end Digests

/-! ## Checks -/

section Checks

variable (committee : Committee) (dagProtocol : DagProtocol)

def Vote.verify [Crypto] (v : Vote) : Except DagError Unit := do
  ensure (0 < committee.stake v.author) (.unknownAuthority v.author)
  ensure (Crypto.verifies v.signature v.digest v.author) .invalidSignature

/-- The loop over the RECP shares of a no-commit proof: the authors seen. -/
def seenRecps : List RecpMessage → List PublicKey → Except DagError (List PublicKey)
  | [], seen => .ok seen
  | r :: recps, seen => do
    ensure (0 < committee.stake r.author) (.unknownAuthority r.author)
    ensure (r.author ∉ seen) (.authorityReuse r.author)
    seenRecps recps (r.author :: seen)

def LeaderLink.verifyStructure (ll : LeaderLink) : Except DagError Unit :=
  let n := (committee.names.map committee.stake).sum
  let nMinusF := n - committee.validityThreshold + 1
  match ll.hash, ll.proof with
  | none, .noCommit recps => do
    let seen ← seenRecps committee recps []
    ensure (nMinusF ≤ (seen.map committee.stake).sum) .certificateRequiresQuorum
  | some _, .exclusiveCommit sig => ensure (!sig.isEmpty) .certificateRequiresQuorum
  | _, _ => .error .certificateRequiresQuorum

/-- The loop over the votes of a QC: every vote passes `check` and comes from a member not met
before. The result is the stake of the voters. -/
def countVotes (check : Vote → Except DagError Unit) :
    List Vote → List PublicKey → ℕ → Except DagError ℕ
  | [], _, weight => .ok weight
  | vote :: votes, used, weight => do
    check vote
    ensure (vote.author ∉ used) (.authorityReuse vote.author)
    ensure (0 < committee.stake vote.author) (.unknownAuthority vote.author)
    countVotes check votes (vote.author :: used) (weight + committee.stake vote.author)

/-- The votes of a QC in the order the two verifiers check them: one by one, the signatures as one
batch, the stake. -/
def verifyVotes [Crypto] (check : Vote → Except DagError Unit) (votes : List Vote) :
    Except DagError Unit := do
  let weight ← countVotes committee check votes [] 0
  ensure (verifyBatchDigests (votes.map fun v => (v.digest, v.author, v.signature)))
    .invalidSignature
  ensure (committee.quorumThreshold ≤ weight) .certificateRequiresQuorum

namespace Header

variable (h : Header)

/-- The structural rules of `Header::verify`, which vary by protocol. -/
def verifyStructure : Except DagError Unit :=
  let malformed := DagError.malformedHeader h.id
  match dagProtocol with
  | .shortfin =>
    if h.round = 0 then
      ensure (h.parents = ∅ ∧ h.parents2 = ∅ ∧ h.qc.isNone) malformed
    else if h.round = 1 then
      ensure (h.parents ≠ ∅ ∧ h.parents2 = ∅ ∧ h.qc.isNone) malformed
    else
      ensure (h.parents ≠ ∅ ∧ h.parents2 = ∅ ∧ h.qc.isSome) malformed
  | .narwhal | .bullshark => do
    if h.round = 0 then
      ensure (h.parents = ∅ ∧ h.parents2 = ∅) malformed
    else
      ensure (h.round = 1 ∨ h.parents ≠ ∅) malformed
    ensure (h.wahooTag.isNone ∧ h.leaderLink.isNone) malformed
  | .mahiMahi | .mahiMahi4 | .mahiMahi5 => do
    if h.round = 0 then
      ensure (h.parents = ∅ ∧ h.parents2 = ∅ ∧ h.qc.isNone) malformed
    else
      ensure (h.parents ≠ ∅ ∧ h.parents2 = ∅ ∧ h.qc.isNone) malformed
    ensure (h.wahooTag.isNone ∧ h.leaderLink.isNone) malformed
  | .wahoo =>
    if h.round = 0 then
      ensure (h.parents = ∅ ∧ h.parents2 = ∅ ∧ h.wahooTag.isNone ∧ h.leaderLink.isNone) malformed
    else do
      ensure (h.parents ≠ ∅) malformed
      let isEpbcRound : Bool := h.round % 2 = 1
      match h.wahooTag with
      | none => pure ()
      | some tag =>
        let tagMatchesRound := match tag with
          | .epbcTs1 | .epbcTs2 | .epbcTf => isEpbcRound
          | .pbc | .pbcVoteComplete => !isEpbcRound
        ensure tagMatchesRound malformed
      ensure (isEpbcRound || h.leaderLink.isNone) malformed
      match h.leaderLink with
      | none => pure ()
      | some link => (link.verifyStructure committee).mapError fun _ => malformed

/-- What `Header::verify` asks of one vote of the embedded QC. -/
def checkQcVote (qc : EmbeddedQc) (vote : Vote) : Except DagError Unit := do
  let malformed := DagError.malformedHeader h.id
  ensure (vote.id = qc.target) malformed
  ensure (vote.round = qc.round) malformed
  ensure (vote.origin = h.author) malformed
  ensure (!dagProtocol.isShortfinFamily || 0 < vote.voterRound) malformed

/-- The embedded QC names the round below and carries a quorum of votes. -/
def checkQc [Crypto] (qc : EmbeddedQc) : Except DagError Unit := do
  ensure (qc.round + 1 = h.round) (.malformedHeader h.id)
  verifyVotes committee (h.checkQcVote dagProtocol qc) qc.votes

def verify [Crypto] : Except DagError Unit := do
  let malformed := DagError.malformedHeader h.id
  ensure (h.digest = h.id) .invalidHeaderId
  h.verifyStructure committee dagProtocol
  ensure (0 < committee.stake h.author) (.unknownAuthority h.author)
  h.payload.values.forM fun workerId =>
    (committee.worker h.author workerId).mapError fun _ => malformed
  ensure (h.parents.isDisjoint h.parents2) malformed
  ensure (h.coinShare.length ≤ 256) malformed
  h.qc.elim (.ok ()) (h.checkQc committee dagProtocol)
  ensure (Crypto.verifies h.signature h.id h.author) .invalidSignature

end Header

namespace Certificate

variable (cert : Certificate)

/-- What `Certificate::verify` asks of one vote. -/
def checkVote (vote : Vote) : Except DagError Unit := do
  let malformed := DagError.malformedHeader cert.header.id
  ensure (vote.id = cert.header.id) malformed
  ensure (vote.round = cert.round) malformed
  ensure (vote.origin = cert.origin) malformed

/-- What `Certificate::verify` checks of a certificate that is no genesis certificate. -/
def verifyFull [Crypto] : Except DagError Unit := do
  cert.header.verify committee dagProtocol
  if dagProtocol.isUncertifiedDag && cert.votes.isEmpty then
    pure ()
  else
    verifyVotes committee cert.checkVote cert.votes

def verify [Crypto] : Except DagError Unit :=
  if (genesis committee).any fun g => g.partialEq cert then .ok ()
  else cert.verifyFull committee dagProtocol

end Certificate

end Checks

end NovelDag
