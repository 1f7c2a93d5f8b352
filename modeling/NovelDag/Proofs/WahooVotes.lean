import NovelDag.WahooNode
import NovelDag.Proofs.Messages

/-!
# Certificates of a Wahoo node

A node collects the votes on a block by its round and author, while the block it keeps for them may
be replaced. Its certificate passes the check of its peers when all the votes in a full bucket are
on the block it keeps and were cast in one round of their voters.
-/

namespace NovelDag.Wahoo

open Fallible

/-- What reaches the collecting of votes: blocks, certificates and votes. -/
inductive VoteEvent
  | block (b : Header)
  | pbcCertificate (c : Certificate)
  | epbcCertificate (c : Certificate)
  | vote (v : Vote)

def sentCertificate : PbAction → Option Certificate
  | .broadcastCertificate c => some c
  | _ => none

section Defs

variable [Crypto] (c : NodeConfig)

/-- Let PB handle something and collect the certificates it sends. -/
def pbStep (n : Node) (p : Pb × List PbAction) : Node × List Certificate :=
  ({ n with pb := p.1 }, p.2.filterMap sentCertificate)

/-- One call of PB or of the node with what it sends to all. -/
def voteStep (n : Node) : VoteEvent → Node × List Certificate
  | .block b =>
    if b.round % 2 = 0 then pbStep n (n.pb.handleBlock c.name b) else (n.storeEpbcBlock b, [])
  | .pbcCertificate cert => pbStep n (n.pb.handleCertificate cert)
  | .epbcCertificate cert => (n.storeEpbcCertificate cert, [])
  | .vote v =>
    if v.round % 2 = 0 then pbStep n (n.pb.handleVote c.committee v)
    else
      let (quorum, n) := n.appendEpbcVote c.committee v
      (n, (quorum.map WahooQuorum.certificate).toList)

/-- Any sequence of calls and the certificates sent. -/
def voteRun : Node → List VoteEvent → List Certificate
  | _, [] => []
  | n, e :: events => (voteStep c n e).2 ++ voteRun (voteStep c n e).1 events

/-- The author of a block is known, the id is its digest and the signature is the author's. -/
structure Genuine (committee : Committee) (b : Header) : Prop where
  member : 0 < committee.stake b.author
  id : b.digest = b.id
  signature : Crypto.verifies b.signature b.id b.author = true

/-- What the receiver has checked. -/
def VoteEvent.Checked (committee : Committee) : VoteEvent → Prop
  | .block b => Genuine committee b
  | .pbcCertificate cert | .epbcCertificate cert => Genuine committee cert.header
  | .vote v => v.verify committee = .ok ()

omit [Crypto] in
/-- The vote is the one that fills the bucket. -/
def PhaseBucket.Fills (committee : Committee) (b : PhaseBucket) (v : Vote) (threshold : ℕ) : Prop :=
  b.done = false ∧ v.author ∉ b.used ∧ threshold ≤ b.weight + committee.stake v.author

omit [Crypto] in
/-- If a vote on the header fills the bucket of the phase then all votes there are on the header and
cast in one round, and the tag of the header is one of the phase. -/
def FillsEvenly (committee : Committee) (header : Header) (aggregator : WahooVotesAggregator)
    (v : Vote) (phase : WahooVotePhase) : Prop :=
  v.id = header.id →
    PhaseBucket.Fills committee (aggregator.bucket phase) v (phaseThreshold committee phase) →
      header.wahooTag.all phase.fitsTag = true ∧
        ∀ w ∈ (aggregator.bucket phase).votes, w.id = header.id ∧ w.voterRound = v.voterRound

omit [Crypto] in
/-- The condition on a call and the state before it, for the phases whose certificate is still to be
sent. -/
def VoteEvent.Even (committee : Committee) (n : Node) : VoteEvent → Prop
  | .vote v => ∀ phase ∈ v.wahooPhase,
    if v.round % 2 = 0 then
      phase = .pbc → v.round ∉ n.pb.block2Send →
        ∀ header ∈ n.pb.pendingBlocks.lookup (v.round, v.origin),
          FillsEvenly committee header ((n.pb.pendingVote.lookup (v.round, v.origin)).getD {}) v phase
    else
      phase ≠ .pbc → n.epbcCertSent.lookup (v.round, v.origin, phase) = none →
        ∀ header ∈ n.epbcBlocks.get v.round v.origin,
          FillsEvenly committee header ((n.epbcVotes.lookup (v.round, v.origin)).getD {}) v phase
  | _ => True

/-- The condition on every call of a sequence. -/
def EvenRun : Node → List VoteEvent → Prop
  | _, [] => True
  | n, e :: events => e.Even c.committee n ∧ EvenRun (voteStep c n e).1 events

omit [Crypto] in
instance (committee : Committee) (header : Header) (aggregator : WahooVotesAggregator) (v : Vote)
    (phase : WahooVotePhase) : Decidable (FillsEvenly committee header aggregator v phase) := by
  unfold FillsEvenly PhaseBucket.Fills
  infer_instance

omit [Crypto] in
instance (committee : Committee) (n : Node) : DecidablePred (VoteEvent.Even committee n)
  | .vote v => by
    unfold VoteEvent.Even
    infer_instance
  | .block _ | .pbcCertificate _ | .epbcCertificate _ => .isTrue trivial

instance : ∀ (n : Node) (events : List VoteEvent), Decidable (EvenRun c n events)
  | _, [] => .isTrue trivial
  | n, e :: events =>
    have := instDecidableEvenRun (voteStep c n e).1 events
    inferInstanceAs (Decidable (_ ∧ _))

end Defs

/-! ## Buckets -/

section Buckets

variable [Crypto] {committee : Committee} {phase : WahooVotePhase} {round : ℕ} {origin : PublicKey}

/-- A vote of the phase on a block of the round and author, signed by a member. -/
structure Cast (committee : Committee) (phase : WahooVotePhase) (round : ℕ) (origin : PublicKey)
    (v : Vote) : Prop where
  phase_eq : v.wahooPhase = some phase
  round_eq : v.round = round
  origin_eq : v.origin = origin
  member : 0 < committee.stake v.author
  signed : Crypto.verifies v.signature v.digest v.author = true

/-- The bucket holds votes of different members and their stake. -/
structure BucketOk (committee : Committee) (phase : WahooVotePhase) (round : ℕ)
    (origin : PublicKey) (b : PhaseBucket) : Prop where
  used : ∀ a, a ∈ b.used ↔ a ∈ b.votes.map Vote.author
  distinct : (b.votes.map Vote.author).Nodup
  weight : b.weight = (b.votes.map fun v => committee.stake v.author).sum
  cast : ∀ v ∈ b.votes, Cast committee phase round origin v

theorem bucketOk_empty : BucketOk committee phase round origin {} where
  used := by simp
  distinct := List.nodup_nil
  weight := rfl
  cast := by simp

/-- A vote with a good signature keeps the bucket good, and what the bucket gives out are its votes
once it is filled. -/
theorem append_bucketOk {b b' : PhaseBucket} {v : Vote} {threshold : ℕ}
    {out : Option (List Vote)} (hb : BucketOk committee phase round origin b)
    (hv : Cast committee phase round origin v)
    (h : b.append committee v threshold = .ok (b', out)) :
    BucketOk committee phase round origin b' ∧ ∀ votes, out = some votes →
      PhaseBucket.Fills committee b v threshold ∧ votes = b.votes ++ [v] := by
  unfold PhaseBucket.append at h
  simp only [] at h
  split_ifs at h with hdone hused hfull
  · obtain ⟨rfl, rfl⟩ := Prod.mk.inj (Except.ok.inj h)
    exact ⟨hb, fun _ h => by cases h⟩
  all_goals
    obtain ⟨rfl, rfl⟩ := Prod.mk.inj (Except.ok.inj h)
    refine ⟨⟨fun a => ?_, ?_, ?_, ?_⟩, fun votes hvotes => ?_⟩
    · simp [hb.used a, or_comm]
    · rw [List.map_append, List.map_singleton, List.nodup_append]
      refine ⟨hb.distinct, List.nodup_singleton _, fun a ha a' ha' => ?_⟩
      rw [List.mem_singleton.1 ha']
      rintro rfl
      exact hused ((hb.used _).2 ha)
    · simp [hb.weight]
    · intro w hw
      rcases List.mem_append.1 hw with hw | hw
      · exact hb.cast w hw
      · exact List.mem_singleton.1 hw ▸ hv
  · obtain rfl := Option.some.inj hvotes
    exact ⟨⟨Bool.not_eq_true _ ▸ hdone, hused, hfull⟩, rfl⟩
  · cases hvotes

/-- Votes that differ in their author and signature only have one digest. -/
theorem digest_eq_of_cast {v w : Vote} (hv : Cast committee phase round origin v)
    (hw : Cast committee phase round origin w) (hid : v.id = w.id)
    (hr : v.voterRound = w.voterRound) : v.digest = w.digest := by
  rw [Vote.digest, Vote.digest, hid, hr, hv.phase_eq, hw.phase_eq, hv.round_eq, hw.round_eq,
    hv.origin_eq, hw.origin_eq]

/-- The check of a peer, for votes on the header cast in one round by enough members. -/
theorem verifyWahooCertificate_of_cast {header : Header} {votes : List Vote} {voterRound : ℕ}
    (hg : Genuine committee header) (hne : votes ≠ []) (hround : phase.fitsRound header.round = true)
    (htag : header.wahooTag.all phase.fitsTag = true)
    (hcast : ∀ v ∈ votes, Cast committee phase header.round header.author v)
    (hdistinct : (votes.map Vote.author).Nodup)
    (hweight : phaseThreshold committee phase ≤ (votes.map fun v => committee.stake v.author).sum)
    (hsame : ∀ v ∈ votes, v.id = header.id ∧ v.voterRound = voterRound) :
    verifyWahooCertificate committee { header, votes } = .ok () := by
  obtain ⟨v₀, l, rfl⟩ := List.exists_cons_of_ne_nil hne
  have h₀ := hcast v₀ List.mem_cons_self
  have hbatch : verifyBatch v₀.digest ((v₀ :: l).map fun v => (v.author, v.signature)) = true := by
    rw [verifyBatch, List.all_map, List.all_eq_true]
    intro v hv
    have hd : v.digest = v₀.digest := digest_eq_of_cast (hcast v hv) h₀
      ((hsame v hv).1.trans (hsame v₀ List.mem_cons_self).1.symm)
      ((hsame v hv).2.trans (hsame v₀ List.mem_cons_self).2.symm)
    exact hd ▸ (hcast v hv).signed
  have hphase : ((v₀ :: l).head?.bind Vote.wahooPhase).elim
      (.error (.malformedHeader header.id)) .ok = (.ok phase : Except DagError _) := by
    rw [List.head?_cons, Option.bind_some, h₀.phase_eq, Option.elim_some]
  have hcount : countVotes committee (checkWahooVote { header, votes := v₀ :: l } phase) (v₀ :: l)
      [] 0 = .ok (0 + ((v₀ :: l).map fun v => committee.stake v.author).sum) := by
    refine countVotes_eq_ok.2 ⟨fun v hv => ?_, hdistinct, by simp, fun v hv => (hcast v hv).member,
      rfl⟩
    have hc := hcast v hv
    simp only [checkWahooVote, check_bind_eq_ok, ensure_eq_ok, decide_eq_true_eq]
    exact ⟨hc.phase_eq, (hsame v hv).1, hc.round_eq, hc.origin_eq⟩
  unfold verifyWahooCertificate
  refine check_bind_eq_ok.2 ⟨ensure_eq_ok.2 (decide_eq_true hg.id), ?_⟩
  refine check_bind_eq_ok.2 ⟨ensure_eq_ok.2 (decide_eq_true hg.member), ?_⟩
  refine check_bind_eq_ok.2 ⟨ensure_eq_ok.2 hg.signature, ?_⟩
  refine bind_eq_ok.2 ⟨phase, hphase, ?_⟩
  refine check_bind_eq_ok.2 ⟨ensure_eq_ok.2 hround, ?_⟩
  refine check_bind_eq_ok.2 ⟨ensure_eq_ok.2 htag, ?_⟩
  refine bind_eq_ok.2 ⟨_, hcount, ?_⟩
  refine check_bind_eq_ok.2 ⟨ensure_eq_ok.2 hbatch, ?_⟩
  exact ensure_eq_ok.2 (decide_eq_true (by rwa [Nat.zero_add]))

/-- The buckets of all phases are good. -/
def AggregatorOk (committee : Committee) (round : ℕ) (origin : PublicKey)
    (aggregator : WahooVotesAggregator) : Prop :=
  ∀ phase, BucketOk committee phase round origin (aggregator.bucket phase)

theorem aggregatorOk_empty : AggregatorOk committee round origin {} := fun phase => by
  cases phase <;> exact bucketOk_empty

theorem aggregatorOk_getD {votes : FinMap (ℕ × PublicKey) WahooVotesAggregator}
    (h : ∀ k aggregator, votes.lookup k = some aggregator →
      AggregatorOk committee k.1 k.2 aggregator) (k : ℕ × PublicKey) :
    AggregatorOk committee k.1 k.2 ((votes.lookup k).getD {}) := by
  rcases hl : votes.lookup k with _ | aggregator
  · exact aggregatorOk_empty
  · exact h k aggregator hl

/-- A vote keeps the buckets good, and the certificate it leads to passes the check of a peer if the
vote fills its bucket evenly. -/
theorem append_aggregatorOk {aggregator aggregator' : WahooVotesAggregator} {header : Header}
    {v : Vote} {quorum : Option WahooQuorum}
    (ha : AggregatorOk committee v.round v.origin aggregator)
    (hv : v.verify committee = .ok ())
    (h : aggregator.append committee v header = .ok (aggregator', quorum)) :
    AggregatorOk committee v.round v.origin aggregator' ∧ ∀ q, quorum = some q →
      v.wahooPhase = some q.phase ∧ (Genuine committee header →
        q.phase.fitsRound v.round = true → FillsEvenly committee header aggregator v q.phase →
          verifyWahooCertificate committee q.certificate = .ok ()) := by
  unfold WahooVotesAggregator.append at h
  obtain ⟨hid, h⟩ := check_bind_eq_ok.1 h
  obtain ⟨hround, h⟩ := check_bind_eq_ok.1 h
  obtain ⟨horigin, h⟩ := check_bind_eq_ok.1 h
  rw [ensure_eq_ok, decide_eq_true_eq] at hid hround horigin
  obtain ⟨phase, hphase, h⟩ := bind_eq_ok.1 h
  obtain ⟨⟨b, votes⟩, happ, h⟩ := bind_eq_ok.1 h
  obtain ⟨rfl, rfl⟩ := Prod.mk.inj (Except.ok.inj h)
  have hphase : v.wahooPhase = some phase := by
    rcases hp : v.wahooPhase with _ | p <;> rw [hp] at hphase
    · cases hphase
    · rw [Option.elim_some, Except.ok.injEq] at hphase
      rw [hphase]
  obtain ⟨hmember, hsigned⟩ := check_bind_eq_ok.1 hv
  have hcast : Cast committee phase v.round v.origin v :=
    ⟨hphase, rfl, rfl, by simpa using hmember, by simpa using hsigned⟩
  obtain ⟨hb, hout⟩ := append_bucketOk (ha phase) hcast happ
  refine ⟨fun p => ?_, fun q hq => ?_⟩
  · rw [WahooVotesAggregator.bucket_setBucket]
    split_ifs with hp
    · exact hp ▸ hb
    · exact ha p
  · obtain ⟨votes, rfl, rfl⟩ := Option.map_eq_some_iff.1 hq
    obtain ⟨hfills, rfl⟩ := hout votes rfl
    refine ⟨hphase, fun hg hfit heven => ?_⟩
    obtain ⟨htag, hsame⟩ := heven hid hfills
    have hall : ∀ w ∈ (aggregator.bucket phase).votes ++ [v],
        w.id = header.id ∧ w.voterRound = v.voterRound := by
      intro w hw
      rcases List.mem_append.1 hw with hw | hw
      · exact hsame w hw
      · obtain rfl := List.mem_singleton.1 hw
        exact ⟨hid, rfl⟩
    have hcasts : ∀ w ∈ (aggregator.bucket phase).votes ++ [v],
        Cast committee phase v.round v.origin w := by
      intro w hw
      rcases List.mem_append.1 hw with hw | hw
      · exact (ha phase).cast w hw
      · exact List.mem_singleton.1 hw ▸ hcast
    rw [hround] at hfit
    rw [hround, horigin] at hcasts
    refine verifyWahooCertificate_of_cast hg (by simp) hfit htag hcasts ?_ ?_ hall
    · rw [List.map_append, List.map_singleton, List.nodup_append]
      refine ⟨(ha phase).distinct, List.nodup_singleton _, fun a hmem a' ha' => ?_⟩
      rw [List.mem_singleton.1 ha']
      rintro rfl
      exact hfills.2.1 (((ha phase).used _).2 hmem)
    · rw [List.map_append, List.sum_append, ← (ha phase).weight, List.map_singleton,
        List.sum_singleton]
      exact hfills.2.2

end Buckets

/-! ## Runs -/

section Runs

variable [Crypto] {c : NodeConfig} {n : Node}

/-- Every block kept is genuine and every bucket is good. -/
structure VotesOk (committee : Committee) (n : Node) : Prop where
  pendingBlocks : ∀ k b, n.pb.pendingBlocks.lookup k = some b → Genuine committee b
  pendingVote : ∀ k aggregator, n.pb.pendingVote.lookup k = some aggregator →
    AggregatorOk committee k.1 k.2 aggregator
  epbcBlocks : ∀ round name b, n.epbcBlocks.get round name = some b → Genuine committee b
  epbcVotes : ∀ k aggregator, n.epbcVotes.lookup k = some aggregator →
    AggregatorOk committee k.1 k.2 aggregator

theorem votesOk_empty {committee : Committee} : VotesOk committee {} where
  pendingBlocks _ _ h := by simp at h
  pendingVote _ _ h := by simp at h
  epbcBlocks _ _ _ h := by simp [Blocks.get, Blocks.level] at h
  epbcVotes _ _ h := by simp at h

theorem VotesOk.putEpbc (hn : VotesOk c.committee n) {b : Header} (hb : Genuine c.committee b) :
    VotesOk c.committee { n with epbcBlocks := n.epbcBlocks.put b } where
  pendingBlocks := hn.pendingBlocks
  pendingVote := hn.pendingVote
  epbcBlocks round name b' h := by
    rw [Blocks.get_put] at h
    split_ifs at h
    · exact Option.some.inj h ▸ hb
    · exact hn.epbcBlocks round name b' h
  epbcVotes := hn.epbcVotes

theorem VotesOk.epbcSent (hn : VotesOk c.committee n)
    (sent : FinMap (ℕ × PublicKey × WahooVotePhase) Unit) :
    VotesOk c.committee { n with epbcCertSent := sent } :=
  ⟨hn.pendingBlocks, hn.pendingVote, hn.epbcBlocks, hn.epbcVotes⟩

omit [Crypto] in
/-- Handing a block on touches neither the blocks kept nor the votes, and sends no certificate. -/
theorem outputActions_eq (pb : Pb) (round : ℕ) (sender : PublicKey) :
    (pb.outputActions round sender).1.pendingBlocks = pb.pendingBlocks ∧
      (pb.outputActions round sender).1.pendingVote = pb.pendingVote ∧
        (pb.outputActions round sender).2.filterMap sentCertificate = [] := by
  unfold Pb.outputActions
  rcases pb.tryToOutput_cases round sender with h | ⟨block, -, -, h⟩ <;> rw [h] <;>
    exact ⟨rfl, rfl, rfl⟩

/-- A call of PB that keeps blocks genuine and buckets good. -/
theorem VotesOk.pbStep (hn : VotesOk c.committee n) {p : Pb × List PbAction}
    (hb : ∀ k b, p.1.pendingBlocks.lookup k = some b → Genuine c.committee b)
    (hv : ∀ k aggregator, p.1.pendingVote.lookup k = some aggregator →
      AggregatorOk c.committee k.1 k.2 aggregator) : VotesOk c.committee (pbStep n p).1 :=
  ⟨hb, hv, hn.epbcBlocks, hn.epbcVotes⟩

theorem handleBlock_ok (hn : VotesOk c.committee n) {b : Header} (hb : Genuine c.committee b) :
    VotesOk c.committee (Wahoo.pbStep n (n.pb.handleBlock c.name b)).1 ∧
      (Wahoo.pbStep n (n.pb.handleBlock c.name b)).2 = [] := by
  have hstore : ∀ k b', (n.pb.storeBlockMsg b).pendingBlocks.lookup k = some b' →
      Genuine c.committee b' := by
    intro k b' h
    rw [Pb.storeBlockMsg, FinMap.lookup_alter] at h
    split_ifs at h
    · rcases hl : n.pb.pendingBlocks.lookup (b.round, b.author) with _ | old
      · rw [hl] at h
        exact Option.some.inj h ▸ hb
      · rw [hl] at h
        exact Option.some.inj h ▸ hn.pendingBlocks _ _ hl
    · exact hn.pendingBlocks k b' h
  obtain ⟨h₁, h₂, h₃⟩ := outputActions_eq (n.pb.storeBlockMsg b) b.round b.author
  unfold Pb.handleBlock
  simp only []
  split_ifs
  · exact ⟨hn.pbStep hn.pendingBlocks hn.pendingVote, rfl⟩
  · exact ⟨hn.pbStep (by rw [h₁]; exact hstore) (by rw [h₂]; exact hn.pendingVote), h₃⟩
  · exact ⟨hn.pbStep hstore hn.pendingVote, rfl⟩

theorem handleCertificate_ok (hn : VotesOk c.committee n) {cert : Certificate}
    (hb : Genuine c.committee cert.header) :
    VotesOk c.committee (Wahoo.pbStep n (n.pb.handleCertificate cert)).1 ∧
      (Wahoo.pbStep n (n.pb.handleCertificate cert)).2 = [] := by
  unfold Pb.handleCertificate
  obtain ⟨h₁, h₂, h₃⟩ := outputActions_eq (Pb.storeCertificate { n.pb with
    pendingBlocks := n.pb.pendingBlocks.insert (cert.round, cert.origin) cert.header } cert)
    cert.round cert.origin
  refine ⟨hn.pbStep (fun k b h => ?_) fun k aggregator h => ?_, h₃⟩
  · rw [h₁, Pb.storeCertificate, FinMap.lookup_insert_ite] at h
    split_ifs at h
    · exact Option.some.inj h ▸ hb
    · exact hn.pendingBlocks k b h
  · rw [h₂] at h
    exact hn.pendingVote k aggregator h

/-- The votes kept for an even-round block, and the certificate they make. -/
theorem pbAppendVote_ok (hn : VotesOk c.committee n) {v : Vote} (header : Header)
    (hv : v.verify c.committee = .ok ()) :
    (n.pb.appendVote c.committee v header).1.pendingBlocks = n.pb.pendingBlocks ∧
      (n.pb.appendVote c.committee v header).1.block2Send = n.pb.block2Send ∧
      (∀ k aggregator, (n.pb.appendVote c.committee v header).1.pendingVote.lookup k =
        some aggregator → AggregatorOk c.committee k.1 k.2 aggregator) ∧
      ∀ q, (n.pb.appendVote c.committee v header).2 = some q → v.wahooPhase = some q.phase ∧
        (Genuine c.committee header → q.phase.fitsRound v.round = true →
          FillsEvenly c.committee header
            ((n.pb.pendingVote.lookup (v.round, v.origin)).getD {}) v q.phase →
              verifyWahooCertificate c.committee q.certificate = .ok ()) := by
  have ha := aggregatorOk_getD hn.pendingVote (v.round, v.origin)
  unfold Pb.appendVote
  simp only []
  rcases happ : ((n.pb.pendingVote.lookup (v.round, v.origin)).getD {}).append c.committee v header
    with e | ⟨aggregator', quorum⟩
  · refine ⟨rfl, rfl, fun k aggregator h => ?_, fun q h => by cases h⟩
    rw [FinMap.lookup_insert_ite] at h
    split_ifs at h with hk
    · exact hk ▸ Option.some.inj h ▸ ha
    · exact hn.pendingVote k aggregator h
  · obtain ⟨ha', hq⟩ := append_aggregatorOk ha hv happ
    refine ⟨rfl, rfl, fun k aggregator h => ?_, hq⟩
    rw [FinMap.lookup_insert_ite] at h
    split_ifs at h with hk
    · exact hk ▸ Option.some.inj h ▸ ha'
    · exact hn.pendingVote k aggregator h

theorem handleVote_ok (hn : VotesOk c.committee n) {v : Vote} (hv : v.verify c.committee = .ok ())
    (heven : v.round % 2 = 0) (hcond : VoteEvent.Even c.committee n (.vote v)) :
    VotesOk c.committee (Wahoo.pbStep n (n.pb.handleVote c.committee v)).1 ∧
      ∀ cert ∈ (Wahoo.pbStep n (n.pb.handleVote c.committee v)).2,
        verifyWahooCertificate c.committee cert = .ok () := by
  unfold Pb.handleVote
  simp only []
  rcases hl : n.pb.pendingBlocks.lookup (v.round, v.origin) with _ | header
  · exact ⟨hn, by simp [Wahoo.pbStep]⟩
  obtain ⟨hblocks, hsend, hvotes, hquorum⟩ := pbAppendVote_ok hn header hv
  simp only []
  rcases happ : n.pb.appendVote c.committee v header with ⟨pb, quorum⟩
  rw [happ] at hblocks hsend hvotes hquorum
  simp only [] at hblocks hsend hvotes hquorum
  have hblocks' : ∀ k b, pb.pendingBlocks.lookup k = some b → Genuine c.committee b := by
    rw [hblocks]
    exact hn.pendingBlocks
  have hquiet : VotesOk c.committee (Wahoo.pbStep n (pb, [])).1 ∧
      ∀ cert ∈ (Wahoo.pbStep n (pb, [])).2,
        verifyWahooCertificate c.committee cert = .ok () :=
    ⟨hn.pbStep hblocks' hvotes, by simp [Wahoo.pbStep]⟩
  rcases quorum with _ | ⟨_ | _ | _ | _, cert⟩
  · exact hquiet
  · exact hquiet
  · exact hquiet
  · exact hquiet
  simp only []
  split_ifs with hsent
  · obtain ⟨h₁, h₂, h₃⟩ := outputActions_eq pb v.round v.origin
    exact ⟨hn.pbStep (by rw [h₁]; exact hblocks') (by rw [h₂]; exact hvotes),
      by simp [Wahoo.pbStep, h₃]⟩
  · obtain ⟨h₁, h₂, h₃⟩ := outputActions_eq
      (Pb.storeCertificate { pb with block2Send := insert v.round pb.block2Send } cert)
      v.round v.origin
    refine ⟨hn.pbStep (by rw [h₁]; exact hblocks') (by rw [h₂]; exact hvotes), fun cert' hc => ?_⟩
    have hcert : cert' = cert := by
      change cert' ∈ cert :: List.filterMap sentCertificate _ at hc
      rw [h₃] at hc
      exact List.mem_singleton.1 hc
    have hfit : WahooVotePhase.pbc.fitsRound v.round = true := decide_eq_true heven
    obtain ⟨hphase, hverify⟩ := hquorum ⟨.pbc, cert⟩ rfl
    have hfills := hcond .pbc hphase
    rw [if_pos heven] at hfills
    rw [hsend] at hsent
    rw [hcert]
    exact hverify (hn.pendingBlocks _ _ hl) hfit (hfills rfl hsent header hl)

theorem appendEpbcVote_ok (hn : VotesOk c.committee n) {v : Vote}
    (hv : v.verify c.committee = .ok ()) (hodd : ¬ v.round % 2 = 0)
    (hcond : VoteEvent.Even c.committee n (.vote v)) :
    VotesOk c.committee (n.appendEpbcVote c.committee v).2 ∧
      ∀ q, (n.appendEpbcVote c.committee v).1 = some q →
        verifyWahooCertificate c.committee q.certificate = .ok () := by
  have ha := aggregatorOk_getD hn.epbcVotes (v.round, v.origin)
  have hkeep : ∀ aggregator, AggregatorOk c.committee v.round v.origin aggregator →
      VotesOk c.committee { n with
        epbcVotes := n.epbcVotes.insert (v.round, v.origin) aggregator } := by
    refine fun aggregator hagg => ⟨hn.pendingBlocks, hn.pendingVote, hn.epbcBlocks, ?_⟩
    intro k aggregator' h
    rw [FinMap.lookup_insert_ite] at h
    split_ifs at h with hk
    · exact hk ▸ Option.some.inj h ▸ hagg
    · exact hn.epbcVotes k aggregator' h
  unfold Node.appendEpbcVote
  simp only []
  rcases hl : n.epbcBlocks.get v.round v.origin with _ | header
  · exact ⟨hn, fun q h => by cases h⟩
  simp only []
  rcases happ : ((n.epbcVotes.lookup (v.round, v.origin)).getD {}).append c.committee v header
    with e | ⟨aggregator, quorum⟩
  · exact ⟨hkeep _ ha, fun q h => by cases h⟩
  obtain ⟨ha', hq⟩ := append_aggregatorOk ha hv happ
  have hodd' : v.round % 2 = 1 := by omega
  -- A bucket of even rounds leads to no certificate here.
  rcases quorum with _ | ⟨_ | _ | _ | _, cert⟩
  · exact ⟨hkeep _ ha', fun q h => by cases h⟩
  all_goals simp only []
  on_goal 4 => exact ⟨hkeep _ ha', fun q h => by cases h⟩
  all_goals
    split_ifs with hsent
    · exact ⟨hkeep _ ha', fun q h => by cases h⟩
    · refine ⟨(hkeep _ ha').epbcSent _, fun q h => ?_⟩
      obtain rfl := Option.some.inj h
      obtain ⟨hphase, hverify⟩ := hq _ rfl
      have hfills := hcond _ hphase
      rw [if_neg hodd] at hfills
      exact hverify (hn.epbcBlocks _ _ _ hl) (decide_eq_true hodd')
        (hfills (by simp) (Option.not_isSome_iff_eq_none.1 hsent) header hl)

/-- One call keeps the invariant, and what it sends passes the check of every peer. -/
theorem voteStep_ok (hn : VotesOk c.committee n) {e : VoteEvent} (he : e.Checked c.committee)
    (hcond : e.Even c.committee n) :
    VotesOk c.committee (voteStep c n e).1 ∧
      ∀ cert ∈ (voteStep c n e).2, verifyWahooCertificate c.committee cert = .ok () := by
  cases e with
  | block b =>
    unfold voteStep
    simp only []
    split_ifs with heven
    · obtain ⟨h₁, h₂⟩ := handleBlock_ok hn he
      exact ⟨h₁, by simp [h₂]⟩
    · refine ⟨?_, by simp⟩
      unfold Node.storeEpbcBlock
      split_ifs
      · exact hn
      · exact hn.putEpbc he
  | pbcCertificate cert =>
    obtain ⟨h₁, h₂⟩ := handleCertificate_ok hn he
    exact ⟨h₁, by rw [voteStep, h₂]; simp⟩
  | epbcCertificate cert => exact ⟨hn.putEpbc he, by simp [voteStep]⟩
  | vote v =>
    unfold voteStep
    simp only []
    split_ifs with heven
    · exact handleVote_ok hn he heven hcond
    · obtain ⟨h₁, h₂⟩ := appendEpbcVote_ok hn he heven hcond
      refine ⟨h₁, fun cert hc => ?_⟩
      obtain ⟨q, hq, rfl⟩ := Option.map_eq_some_iff.1 (Option.mem_toList.1 hc)
      exact h₂ q hq

theorem voteRun_ok : ∀ {events : List VoteEvent} {n : Node}, VotesOk c.committee n →
    (∀ e ∈ events, e.Checked c.committee) → EvenRun c n events →
      ∀ cert ∈ voteRun c n events, verifyWahooCertificate c.committee cert = .ok ()
  | [], _, _, _, _ => by simp [voteRun]
  | e :: events, n, hn, hchecked, hcond => by
    obtain ⟨he, hchecked⟩ := List.forall_mem_cons.1 hchecked
    obtain ⟨hn', hsent⟩ := voteStep_ok hn he hcond.1
    intro cert hc
    rcases List.mem_append.1 hc with hc | hc
    · exact hsent cert hc
    · exact voteRun_ok hn' hchecked hcond.2 cert hc

/-- In a run in which votes fill their buckets evenly, every certificate a node sends passes the
check of its peers. -/
theorem sent_certificates_verify (c : NodeConfig) (events : List VoteEvent)
    (hchecked : ∀ e ∈ events, e.Checked c.committee) (hcond : EvenRun c {} events) :
    ∀ cert ∈ voteRun c {} events, verifyWahooCertificate c.committee cert = .ok () :=
  voteRun_ok votesOk_empty hchecked hcond

end Runs

end NovelDag.Wahoo

/-! ## A round of four nodes -/

namespace NovelDag.Wahoo

/-- The node of the first of four authorities, in the round-robin mode. -/
def fourNodes : NodeConfig where
  name := 0
  committee := .uniform 4
  consensusProtocol := .roundRobin
  coinCommittee := ⟨(Committee.uniform 4).names, by decide⟩
  recoverCoin _ _ := none
  makeShare _ := none
  makeRecpShare _ _ := none
  headerSize := 32
  order := ⟨fun _ l => l, fun _ l => .refl l⟩

section Toy

variable [Crypto]

def pbcBlock : Header :=
  let block : Header := { author := 0, round := 2, wahooTag := some .pbc }
  { block with id := block.digest, signature := Crypto.sign 0 block.digest }

/-- The PBC vote of a member on the block. -/
def pbcVote (author : PublicKey) (voterRound : ℕ) : Vote :=
  let vote : Vote :=
    { id := pbcBlock.id, round := 2, voterRound, origin := 0, author, wahooPhase := some .pbc }
  { vote with signature := Crypto.sign author vote.digest }

/-- The block and three votes on it, the last one of a given voter round. -/
def pbcEvents (voterRound : ℕ) : List VoteEvent :=
  [.block pbcBlock, .vote (pbcVote 1 2), .vote (pbcVote 2 2), .vote (pbcVote 3 voterRound)]

theorem pbcEvents_checked [LawfulCrypto] {voterRound : ℕ} :
    ∀ e ∈ pbcEvents voterRound, e.Checked fourNodes.committee := by
  have hsigned : ∀ (author : PublicKey) (round : ℕ), 0 < fourNodes.committee.stake author →
      (pbcVote author round).verify fourNodes.committee = .ok () := by
    intro author round h
    refine Fallible.check_bind_eq_ok.2 ⟨Fallible.ensure_eq_ok.2 (decide_eq_true h), ?_⟩
    exact Fallible.ensure_eq_ok.2 (LawfulCrypto.verifies_sign _ _)
  simp only [pbcEvents, List.forall_mem_cons, List.not_mem_nil, false_implies, implies_true,
    and_true]
  have hmember : 0 < fourNodes.committee.stake 0 := by decide
  refine ⟨⟨hmember, rfl, LawfulCrypto.verifies_sign _ _⟩, hsigned 1 2 ?_, hsigned 2 2 ?_,
    hsigned 3 voterRound ?_⟩ <;> decide

end Toy

/-- One vote cast in another round of its voter spoils the certificate. -/
theorem not_sent_certificates_verify : letI := toyCrypto
    (∀ e ∈ pbcEvents 7, e.Checked fourNodes.committee) ∧
      ∃ cert ∈ voteRun fourNodes {} (pbcEvents 7),
        verifyWahooCertificate fourNodes.committee cert ≠ .ok () := by
  let _ := toyCrypto
  let _ := toyCrypto_lawful
  refine ⟨pbcEvents_checked, ?_⟩
  decide +kernel

theorem sent_certificates_verify_pbc : letI := toyCrypto
    voteRun fourNodes {} (pbcEvents 2) ≠ [] ∧ ∀ cert ∈ voteRun fourNodes {} (pbcEvents 2),
      verifyWahooCertificate fourNodes.committee cert = .ok () := by
  let _ := toyCrypto
  let _ := toyCrypto_lawful
  exact ⟨by decide +kernel, sent_certificates_verify fourNodes (pbcEvents 2) pbcEvents_checked
    (by decide +kernel)⟩

end NovelDag.Wahoo
