import NovelDag.Messages

/-!
# Wahoo votes

The buckets in which a proposer collects the votes on a block, one for each phase, the certificate
a full bucket makes, and the check a peer makes of such a certificate.
-/

namespace NovelDag

open Fallible

/-- The votes of one phase. A bucket that has made its certificate takes no more. -/
structure PhaseBucket where
  weight : ℕ := 0
  votes : List Vote := []
  used : List PublicKey := []
  done : Bool := false

/-- A certificate and the phase its votes are of. -/
structure WahooQuorum where
  phase : WahooVotePhase
  certificate : Certificate

structure WahooVotesAggregator where
  ts1 : PhaseBucket := {}
  ts2 : PhaseBucket := {}
  tf : PhaseBucket := {}
  pbc : PhaseBucket := {}

variable (committee : Committee)

/-- The votes of the bucket once it reaches the threshold. -/
def PhaseBucket.append (bucket : PhaseBucket) (vote : Vote) (threshold : ℕ) :
    Except DagError (PhaseBucket × Option (List Vote)) :=
  if bucket.done then .ok (bucket, none)
  else if vote.author ∈ bucket.used then .error (.authorityReuse vote.author)
  else
    let used := vote.author :: bucket.used
    let votes := bucket.votes ++ [vote]
    let weight := bucket.weight + committee.stake vote.author
    if threshold ≤ weight then .ok ({ weight, votes, used, done := true }, some votes)
    else .ok ({ weight, votes, used, done := false }, none)

/-- `append` with the bucket it leaves behind, whatever the answer: the author is added to `used`
before the vote is refused. -/
def PhaseBucket.appendInPlace (bucket : PhaseBucket) (vote : Vote) (threshold : ℕ) :
    Except DagError (Option (List Vote)) × PhaseBucket :=
  if bucket.done then (.ok none, bucket)
  else
    let fresh : Bool := vote.author ∉ bucket.used
    let bucket := { bucket with used := bucket.used.insert vote.author }
    if !fresh then (.error (.authorityReuse vote.author), bucket)
    else
      let bucket := { bucket with
        votes := bucket.votes ++ [vote]
        weight := bucket.weight + committee.stake vote.author }
      if threshold ≤ bucket.weight then (.ok (some bucket.votes), { bucket with done := true })
      else (.ok none, bucket)

/-- An error leaves the bucket as it was. -/
theorem PhaseBucket.appendInPlace_eq (bucket : PhaseBucket) (vote : Vote) (threshold : ℕ) :
    bucket.appendInPlace committee vote threshold =
      match bucket.append committee vote threshold with
      | .ok (bucket', votes) => (.ok votes, bucket')
      | .error e => (.error e, bucket) := by
  unfold appendInPlace append
  by_cases hdone : bucket.done = true
  · simp [hdone]
  by_cases hused : vote.author ∈ bucket.used
  · rcases bucket with ⟨weight, votes, used, done⟩
    simp_all
  · simp only [hdone, hused]
    split_ifs <;> simp_all

/-- The stake a certificate of the phase needs: all of it on the fast path, a quorum otherwise. -/
def phaseThreshold : WahooVotePhase → ℕ
  | .tf => (committee.names.map committee.stake).sum
  | .ts1 | .ts2 | .pbc => committee.quorumThreshold

namespace WahooVotesAggregator

def bucket (aggregator : WahooVotesAggregator) : WahooVotePhase → PhaseBucket
  | .ts1 => aggregator.ts1
  | .ts2 => aggregator.ts2
  | .tf => aggregator.tf
  | .pbc => aggregator.pbc

def setBucket (aggregator : WahooVotesAggregator) (b : PhaseBucket) :
    WahooVotePhase → WahooVotesAggregator
  | .ts1 => { aggregator with ts1 := b }
  | .ts2 => { aggregator with ts2 := b }
  | .tf => { aggregator with tf := b }
  | .pbc => { aggregator with pbc := b }

theorem bucket_setBucket (aggregator : WahooVotesAggregator) (b : PhaseBucket)
    (phase phase' : WahooVotePhase) :
    (aggregator.setBucket b phase).bucket phase' =
      if phase' = phase then b else aggregator.bucket phase' := by
  cases phase <;> cases phase' <;> rfl

/-- Append a vote on the header, and make a certificate if its bucket is now full. -/
def append (aggregator : WahooVotesAggregator) (vote : Vote) (header : Header) :
    Except DagError (WahooVotesAggregator × Option WahooQuorum) := do
  ensure (vote.id = header.id) (.malformedHeader header.id)
  ensure (vote.round = header.round) (.malformedHeader header.id)
  ensure (vote.origin = header.author) (.malformedHeader header.id)
  let phase ← vote.wahooPhase.elim (.error (.malformedHeader vote.id)) .ok
  let (bucket, votes) ←
    (aggregator.bucket phase).append committee vote (phaseThreshold committee phase)
  .ok (aggregator.setBucket bucket phase,
    votes.map fun votes => { phase, certificate := { header, votes } })

/-- `append` with the aggregator it leaves behind, whatever the answer. -/
def appendInPlace (aggregator : WahooVotesAggregator) (vote : Vote) (header : Header) :
    Except DagError (Option WahooQuorum) × WahooVotesAggregator :=
  if vote.id ≠ header.id then (.error (.malformedHeader header.id), aggregator)
  else if vote.round ≠ header.round then (.error (.malformedHeader header.id), aggregator)
  else if vote.origin ≠ header.author then (.error (.malformedHeader header.id), aggregator)
  else
    match vote.wahooPhase with
    | none => (.error (.malformedHeader vote.id), aggregator)
    | some phase =>
      let (answer, bucket) :=
        (aggregator.bucket phase).appendInPlace committee vote (phaseThreshold committee phase)
      (answer.map (Option.map fun votes => { phase, certificate := { header, votes } }),
        aggregator.setBucket bucket phase)

/-- The certificate is of the header the votes were appended for. -/
theorem append_header {aggregator aggregator' : WahooVotesAggregator} {vote : Vote}
    {header : Header} {quorum : WahooQuorum}
    (h : aggregator.append committee vote header = .ok (aggregator', some quorum)) :
    quorum.certificate.header = header := by
  unfold append at h
  obtain ⟨-, h⟩ := check_bind_eq_ok.1 h
  obtain ⟨-, h⟩ := check_bind_eq_ok.1 h
  obtain ⟨-, h⟩ := check_bind_eq_ok.1 h
  obtain ⟨phase, -, h⟩ := bind_eq_ok.1 h
  obtain ⟨⟨b, votes⟩, -, h⟩ := bind_eq_ok.1 h
  obtain ⟨-, hq⟩ := Prod.mk.inj (Except.ok.inj h)
  obtain ⟨votes, -, rfl⟩ := Option.map_eq_some_iff.1 hq
  rfl

end WahooVotesAggregator

/-! ## The check of a peer -/

/-- Votes of the phase are cast in rounds of this parity. -/
def WahooVotePhase.fitsRound (phase : WahooVotePhase) (round : ℕ) : Bool :=
  match phase with
  | .pbc => decide (round % 2 = 0)
  | .ts1 | .ts2 | .tf => decide (round % 2 = 1)

/-- Votes of the phase are cast on blocks with this tag. -/
def WahooVotePhase.fitsTag (phase : WahooVotePhase) (tag : WahooTag) : Bool :=
  match phase, tag with
  | .pbc, .pbc | .pbc, .pbcVoteComplete => true
  | .ts1, .epbcTs1 | .ts1, .epbcTs2 | .ts1, .epbcTf => true
  | .ts2, .epbcTs1 | .ts2, .epbcTs2 | .ts2, .epbcTf => true
  | .tf, .epbcTs1 | .tf, .epbcTs2 | .tf, .epbcTf => true
  | _, _ => false

variable [Crypto]

/-- `Signature::verify_batch`: every signature verifies over the one digest. -/
def verifyBatch (digest : Digest) (sigs : List (PublicKey × Signature)) : Bool :=
  sigs.all fun e => Crypto.verifies e.2 digest e.1

/-- What `verify_wahoo_certificate` asks of one vote before its author is counted. -/
def checkWahooVote (c : Certificate) (phase : WahooVotePhase) (vote : Vote) :
    Except DagError Unit := do
  let malformed := DagError.malformedHeader c.header.id
  ensure (vote.wahooPhase = some phase) malformed
  ensure (vote.id = c.header.id) malformed
  ensure (vote.round = c.round) malformed
  ensure (vote.origin = c.origin) malformed

def verifyWahooCertificate (c : Certificate) : Except DagError Unit := do
  let malformed := DagError.malformedHeader c.header.id
  ensure (c.header.digest = c.header.id) .invalidHeaderId
  ensure (0 < committee.stake c.header.author) (.unknownAuthority c.header.author)
  ensure (Crypto.verifies c.header.signature c.header.id c.header.author) .invalidSignature
  let phase ← (c.votes.head?.bind Vote.wahooPhase).elim (.error malformed) .ok
  ensure (phase.fitsRound c.round) malformed
  ensure (c.header.wahooTag.all phase.fitsTag) malformed
  let weight ← countVotes committee (checkWahooVote c phase) c.votes [] 0
  ensure (c.votes.head?.all fun v =>
    verifyBatch v.digest (c.votes.map fun v => (v.author, v.signature))) .invalidSignature
  ensure (phaseThreshold committee phase ≤ weight) .certificateRequiresQuorum

end NovelDag
