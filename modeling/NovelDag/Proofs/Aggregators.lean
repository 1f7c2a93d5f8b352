import NovelDag.Core
import NovelDag.WahooVotes
import NovelDag.Lib.Tally
import NovelDag.Proofs.Messages

/-!
# Aggregators

Votes come in any order and any number of times. An aggregator of votes on a header, or of the
certificates of a round, makes a quorum once at most: with the vote, or the certificate, of the
author who brings the stake of the authors met to the threshold. Where the weight starts again from
zero this rests on the stake that is left being less than a quorum, and in the buckets of Wahoo on
a latch.
-/

namespace NovelDag

open Fallible Answers

/-- The stake of the authors, each counted once. -/
def Committee.stakeOf (committee : Committee) (authors : List PublicKey) : ℕ :=
  Weighted.weight committee.stake authors.toFinset

section StakeOf

variable {committee : Committee} {authors : List PublicKey} {a : PublicKey}

theorem stakeOf_concat :
    committee.stakeOf (authors ++ [a]) =
      if a ∈ authors then committee.stakeOf authors
      else committee.stakeOf authors + committee.stake a := by
  have h : (authors ++ [a]).toFinset = insert a authors.toFinset := by
    ext x
    simp
  unfold Committee.stakeOf
  rw [h]
  split_ifs with ha
  · rw [Finset.insert_eq_of_mem (List.mem_toFinset.2 ha)]
  · rw [Weighted.weight_insert_of_notMem _ (by simpa using ha), Nat.add_comm]

theorem stakeOf_le_concat : committee.stakeOf authors ≤ committee.stakeOf (authors ++ [a]) := by
  rw [stakeOf_concat]
  split_ifs <;> omega

theorem stakeOf_nodup (h : authors.Nodup) :
    committee.stakeOf authors = (authors.map committee.stake).sum :=
  (Weighted.sum_map_eq_weight _ h).symm

theorem weight_lt_two_quorums (S : Finset PublicKey) :
    Weighted.weight committee.stake S < 2 * committee.quorumThreshold := by
  have h₁ := committee.weight_le_totalVotes S
  have h₂ := committee.totalVotes_lt_two_quorums
  omega

end StakeOf

/-! ## Aggregators whose weight starts again -/

section Restarting

variable {committee : Committee}

/-- What an aggregator counts. -/
def VotesAggregator.tally (a : VotesAggregator) : Weighted.Tally PublicKey := ⟨a.weight, a.used⟩

def CertificatesAggregator.tally (a : CertificatesAggregator) : Weighted.Tally PublicKey :=
  ⟨a.weight, a.used⟩

theorem VotesAggregator.append_tally (header : Header) (a : VotesAggregator) (v : Vote) :
    ((a.append committee v header).1.isSome, (a.append committee v header).2.tally) =
      a.tally.count committee.stake committee.quorumThreshold v.author := by
  unfold VotesAggregator.append Weighted.Tally.count tally
  by_cases hu : v.author ∈ a.used
  · simp [hu]
  · simp only [if_neg hu]
    split_ifs <;> rfl

theorem CertificatesAggregator.append_tally [Crypto] (a : CertificatesAggregator)
    (x : Certificate) :
    ((a.append committee x).1.isSome, (a.append committee x).2.tally) =
      a.tally.count committee.stake committee.quorumThreshold x.origin := by
  unfold CertificatesAggregator.append Weighted.Tally.count tally
  by_cases hu : x.origin ∈ a.used
  · simp [hu]
  · simp only [if_neg hu]
    split_ifs <;> rfl

/-- An aggregator that counts as a tally does makes one quorum, with the author who brings the stake
of the authors met to the threshold, and none if nobody does. -/
theorem quorum_once {σ ι ω : Type*} {step : σ → ι → Option ω × σ} {author : ι → PublicKey}
    {view : σ → Weighted.Tally PublicKey} {s : σ} (hs : view s = {})
    (hstep : ∀ s x, ((step s x).1.isSome, view (step s x).2) =
      (view s).count committee.stake committee.quorumThreshold (author x)) (xs : List ι) :
    ((trace step s xs).filterMap Prod.snd).length =
        (if committee.quorumThreshold ≤ committee.stakeOf (xs.map author) then 1 else 0) ∧
      ∀ (pre : List (ι × Option ω)) (x : ι) (answer : Option ω) (post : List (ι × Option ω)),
        trace step s xs = pre ++ (x, answer) :: post → (answer.isSome = true ↔
          committee.stakeOf (pre.map fun e => author e.1) < committee.quorumThreshold ∧
            committee.quorumThreshold ≤
              committee.stakeOf (pre.map (fun e => author e.1) ++ [author x])) := by
  have hview := trace_view view hstep s xs
  rw [hs] at hview
  obtain ⟨hcount, hone⟩ := Weighted.Tally.reached_once committee.quorumThreshold_pos
    weight_lt_two_quorums (xs.map author)
  rw [← hview] at hcount hone
  refine ⟨?_, fun pre x answer post he => ?_⟩
  · rw [List.countP_map] at hcount
    rw [Committee.stakeOf, ← hcount]
    induction trace step s xs with
    | nil => rfl
    | cons e h ih => rcases e with ⟨x, _ | a⟩ <;> simp_all
  · have h := hone (pre.map fun e => (author e.1, e.2.isSome)) (author x) answer.isSome
      (post.map fun e => (author e.1, e.2.isSome)) (by simp [he])
    rw [h, Weighted.voters, List.map_map]
    have hset : (pre.map (fun e => author e.1) ++ [author x]).toFinset =
        insert (author x) (pre.map fun e => author e.1).toFinset := by
      ext y
      simp
    rw [Committee.stakeOf, Committee.stakeOf, hset]
    rfl

/-- The votes an aggregator holds are votes that were appended, of different authors, and weigh at
least what was counted. -/
structure VotesAggregator.Holds (committee : Committee) (a : VotesAggregator)
    (votes : List Vote) : Prop where
  subset : ∀ v ∈ a.votes, v ∈ votes
  used : ∀ x, x ∈ a.used ↔ x ∈ a.votes.map Vote.author
  distinct : (a.votes.map Vote.author).Nodup
  weight : a.weight ≤ (a.votes.map fun v => committee.stake v.author).sum

theorem VotesAggregator.holds_empty {votes : List Vote} :
    VotesAggregator.Holds committee {} votes where
  subset := by simp
  used := by simp
  distinct := List.nodup_nil
  weight := Nat.le_refl 0

/-- A vote keeps it, and a certificate has the votes held with the new one, a quorum. -/
theorem VotesAggregator.Holds.append {a : VotesAggregator} {votes : List Vote} {v : Vote}
    (ha : a.Holds committee votes) (hv : v ∈ votes) (header : Header) :
    (a.append committee v header).2.Holds committee votes ∧
      ∀ cert, (a.append committee v header).1 = some cert →
        cert = { header, votes := a.votes ++ [v] } ∧ (cert.votes.map Vote.author).Nodup ∧
          committee.quorumThreshold ≤ (cert.votes.map fun v => committee.stake v.author).sum := by
  by_cases hu : v.author ∈ a.used
  · have happ : a.append committee v header = (none, a) := by simp [VotesAggregator.append, hu]
    rw [happ]
    exact ⟨ha, fun cert h => by cases h⟩
  have hdistinct : ((a.votes ++ [v]).map Vote.author).Nodup := by
    rw [List.map_append, List.map_singleton, List.nodup_append]
    refine ⟨ha.distinct, List.nodup_singleton _, fun x hx y hy => ?_⟩
    rw [List.mem_singleton.1 hy]
    rintro rfl
    exact hu ((ha.used _).2 hx)
  have hweight := ha.weight
  have hkeep : ∀ w, w ≤ ((a.votes ++ [v]).map fun v => committee.stake v.author).sum →
      VotesAggregator.Holds committee
        { weight := w, votes := a.votes ++ [v], used := insert v.author a.used } votes := by
    intro w hw
    refine ⟨fun x hx => ?_, fun x => ?_, hdistinct, hw⟩
    · rcases List.mem_append.1 hx with hx | hx
      · exact ha.subset x hx
      · exact List.mem_singleton.1 hx ▸ hv
    · simp [ha.used x, or_comm]
  unfold VotesAggregator.append
  simp only [hu, if_false]
  split_ifs with hq
  · refine ⟨hkeep 0 (Nat.zero_le _), fun cert h => ?_⟩
    obtain rfl := Option.some.inj h
    refine ⟨rfl, hdistinct, ?_⟩
    simp only [List.map_append, List.sum_append, List.map_singleton, List.sum_singleton]
    omega
  · refine ⟨hkeep _ ?_, fun cert h => by cases h⟩
    simp only [List.map_append, List.sum_append, List.map_singleton, List.sum_singleton]
    omega

variable [Crypto] (c : CoreConfig)

/-- The vote passes the checks of the proposer of the header. -/
def Sanitized (header : Header) (v : Vote) : Prop :=
  v.id = header.id ∧ ∃ s : Core, s.ownHeaders.lookup v.id = some header ∧
    c.sanitizeVote s v = .ok ()

variable {c}

theorem Sanitized.verify {header : Header} {v : Vote} (h : Sanitized c header v) :
    v.round = header.round ∧ v.origin = header.author ∧ v.verify c.committee = .ok () := by
  obtain ⟨-, s, hown, hs⟩ := h
  unfold CoreConfig.sanitizeVote at hs
  rw [hown] at hs
  obtain ⟨-, hs⟩ := check_bind_eq_ok.1 hs
  obtain ⟨horigin, hs⟩ := check_bind_eq_ok.1 hs
  obtain ⟨-, hs⟩ := check_bind_eq_ok.1 hs
  rw [ensure_eq_ok, decide_eq_true_eq] at horigin
  exact ⟨horigin.2, horigin.1, hs⟩

/-- The certificate of an aggregator passes the checks of its votes. -/
theorem VotesAggregator.Holds.certificate {a : VotesAggregator} {votes : List Vote} {v : Vote}
    {header : Header} {cert : Certificate} (ha : a.Holds c.committee votes) (hv : v ∈ votes)
    (hvotes : ∀ v ∈ votes, Sanitized c header v)
    (h : (a.append c.committee v header).1 = some cert) :
    cert.header = header ∧ verifyVotes c.committee cert.checkVote cert.votes = .ok () := by
  obtain ⟨rfl, hdistinct, hstake⟩ := (ha.append hv header).2 cert h
  have hsanitized : ∀ w ∈ a.votes ++ [v], Sanitized c header w := by
    intro w hw
    rcases List.mem_append.1 hw with hw | hw
    · exact hvotes w (ha.subset w hw)
    · exact List.mem_singleton.1 hw ▸ hvotes v hv
  have hverify : ∀ w ∈ a.votes ++ [v], 0 < c.committee.stake w.author ∧
      Crypto.verifies w.signature w.digest w.author = true := by
    intro w hw
    obtain ⟨hmember, hsigned⟩ := check_bind_eq_ok.1 (hsanitized w hw).verify.2.2
    exact ⟨by simpa using hmember, by simpa using hsigned⟩
  refine ⟨rfl, verifyVotes_eq_ok.2 ⟨fun w hw => ?_, fun w hw => (hverify w hw).2, hdistinct,
    fun w hw => (hverify w hw).1, hstake⟩⟩
  obtain ⟨hround, horigin, -⟩ := (hsanitized w hw).verify
  simp only [Certificate.checkVote, check_bind_eq_ok, ensure_eq_ok, decide_eq_true_eq]
  exact ⟨(hsanitized w hw).1, hround, horigin⟩

/-- Of the votes on an own header an aggregator makes one certificate, with the vote that brings
the stake of the voters met to a quorum, and none if no vote does. The votes of the certificate pass
their checks. Of the certificates of a round an aggregator makes one quorum in the same way. -/
theorem quorum_reported_once (header : Header) (votes : List Vote)
    (hvotes : ∀ v ∈ votes, Sanitized c header v) (certificates : List Certificate) :
    let q := c.committee.quorumThreshold
    let voted := trace (fun a v => a.append c.committee v header) ({} : VotesAggregator) votes
    let seen := trace (fun a x => a.append c.committee x) ({} : CertificatesAggregator) certificates
    ((voted.filterMap Prod.snd).length =
        (if q ≤ c.committee.stakeOf (votes.map Vote.author) then 1 else 0) ∧
      (∀ (pre : List (Vote × Option Certificate)) (v : Vote) (answer : Option Certificate)
        (post : List (Vote × Option Certificate)), voted = pre ++ (v, answer) :: post →
          (answer.isSome = true ↔ c.committee.stakeOf (pre.map fun e => e.1.author) < q ∧
            q ≤ c.committee.stakeOf (pre.map (fun e => e.1.author) ++ [v.author]))) ∧
      ∀ cert ∈ voted.filterMap Prod.snd, cert.header = header ∧
        verifyVotes c.committee cert.checkVote cert.votes = .ok ()) ∧
    (seen.filterMap Prod.snd).length =
        (if q ≤ c.committee.stakeOf (certificates.map Certificate.origin) then 1 else 0) ∧
      ∀ (pre : List (Certificate × Option (List Digest))) (x : Certificate)
        (answer : Option (List Digest)) (post : List (Certificate × Option (List Digest))),
        seen = pre ++ (x, answer) :: post →
          (answer.isSome = true ↔ c.committee.stakeOf (pre.map fun e => e.1.origin) < q ∧
            q ≤ c.committee.stakeOf (pre.map (fun e => e.1.origin) ++ [x.origin])) := by
  intro q voted seen
  obtain ⟨hlength, hcross⟩ := quorum_once
    (s := ({} : VotesAggregator)) rfl (VotesAggregator.append_tally header) votes
  refine ⟨⟨hlength, hcross, fun cert hc => ?_⟩, quorum_once
    (s := ({} : CertificatesAggregator)) rfl CertificatesAggregator.append_tally certificates⟩
  obtain ⟨⟨v, answer⟩, he, rfl⟩ := List.mem_filterMap.1 hc
  obtain ⟨pre, post, hsplit⟩ := List.append_of_mem he
  obtain ⟨a, ha, hv, hanswer⟩ := exists_before
    (I := fun (a : VotesAggregator) (_ : List (Vote × Option Certificate)) =>
      a.Holds c.committee votes)
    (h := []) VotesAggregator.holds_empty (fun a _ v hv ha => (ha.append hv header).1) hsplit
  exact ha.certificate hv hvotes hanswer

/-- The vote of a member on its own header of a round. -/
theorem sanitized_new [LawfulCrypto] {header : Header} {author : PublicKey}
    (hp : c.dagProtocol.isShortfinFamily = false) (h : 0 < c.committee.stake author) :
    Sanitized c header (Vote.new header 0 author) := by
  have hown : ({ ownHeaders := AList.insert header.id header ∅ } : Core).ownHeaders.lookup
      (Vote.new header 0 author).id = some header := AList.lookup_insert _
  refine ⟨rfl, _, hown, ?_⟩
  unfold CoreConfig.sanitizeVote
  rw [hown]
  simp only [check_bind_eq_ok, ensure_eq_ok, decide_eq_true_eq, hp, Vote.verify]
  exact ⟨Nat.zero_le _, ⟨rfl, rfl⟩, rfl, h, LawfulCrypto.verifies_sign _ _⟩

end Restarting

/-- A Narwhal node of four. -/
def narwhalNode : CoreConfig where
  name := 0
  committee := .uniform 4
  dagProtocol := .narwhal
  gcDepth := 50
  order := HashOrder.entryOrder
  payloads _ := ∅

/-- A vote that comes twice, and one vote more than a quorum. -/
theorem quorum_reported_once_four : letI := toyCrypto
    ((trace (fun a v => a.append narwhalNode.committee v {}) ({} : VotesAggregator)
      ([1, 1, 2, 3, 0].map (Vote.new {} 0))).filterMap Prod.snd).length = 1 := by
  let _ := toyCrypto
  let _ := toyCrypto_lawful
  have hvotes : ∀ v ∈ [1, 1, 2, 3, 0].map (Vote.new {} 0), Sanitized narwhalNode {} v := by
    intro v hv
    obtain ⟨author, ha, rfl⟩ := List.mem_map.1 hv
    refine sanitized_new rfl ?_
    fin_cases ha <;> decide
  have h := (quorum_reported_once {} _ hvotes []).1.1
  rw [h]
  decide

/-! ## Buckets with a latch -/

namespace WahooVotesAggregator

/-- What a vote is answered with. -/
abbrev Answer := Except DagError (Option WahooQuorum)

variable (committee : Committee) (header : Header) (phase : WahooVotePhase)

/-- The votes appended for a header and their answers. -/
def answers (votes : List Vote) : List (Vote × Answer) :=
  trace (fun a v => a.appendInPlace committee v header) ({} : WahooVotesAggregator) votes

/-- The vote names the header. -/
def Names (v : Vote) : Prop :=
  v.id = header.id ∧ v.round = header.round ∧ v.origin = header.author

/-- The votes of the phase that were not refused. -/
def accepted (h : List (Vote × Answer)) : List Vote :=
  (h.filter fun e => decide (e.1.wahooPhase = some phase) && e.2.isOk).map Prod.fst

/-- The quorum of the phase that a vote is answered with. -/
def quorumOf (answer : Answer) : Option WahooQuorum :=
  (answer.toOption.getD none).filter fun q => decide (q.phase = phase)

/-- The quorums of the phase. -/
def emitted (h : List (Vote × Answer)) : List WahooQuorum :=
  h.filterMap fun e => quorumOf phase e.2

/-- The stake of the authors of the votes. -/
def voteStake (votes : List Vote) : ℕ := committee.stakeOf (votes.map Vote.author)

/-- The votes have brought the stake to the threshold of the phase. -/
def Reached (votes : List Vote) : Prop :=
  votes ≠ [] ∧ phaseThreshold committee phase ≤ voteStake committee votes

variable {committee header phase}

theorem accepted_concat (h : List (Vote × Answer)) (v : Vote) (answer : Answer) :
    accepted phase (h ++ [(v, answer)]) =
      if v.wahooPhase = some phase ∧ answer.isOk = true then accepted phase h ++ [v]
      else accepted phase h := by
  unfold accepted
  rw [List.filter_append, List.map_append]
  split_ifs with hv <;> simp [hv]

theorem emitted_concat (h : List (Vote × Answer)) (v : Vote) (answer : Answer) :
    emitted phase (h ++ [(v, answer)]) = emitted phase h ++ (quorumOf phase answer).toList := by
  unfold emitted
  rw [List.filterMap_append]
  cases hq : quorumOf phase answer <;> simp [hq]

theorem Reached.concat {votes : List Vote} (v : Vote) (h : Reached committee phase votes) :
    Reached committee phase (votes ++ [v]) := by
  refine ⟨by simp, h.2.trans ?_⟩
  unfold voteStake
  rw [List.map_append]
  exact stakeOf_le_concat

/-- A bucket and the votes of its phase that were not refused. -/
structure BucketAfter (committee : Committee) (header : Header) (phase : WahooVotePhase)
    (b : PhaseBucket) (votes : List Vote) : Prop where
  done : b.done = true ↔ Reached committee phase votes
  held : b.done = false → b.votes = votes
  weight : b.done = false → b.weight = voteStake committee votes
  used : b.done = false → ∀ x, x ∈ b.used ↔ x ∈ votes.map Vote.author
  distinct : b.done = false → (votes.map Vote.author).Nodup
  names : ∀ v ∈ votes, Names header v ∧ v.wahooPhase = some phase

theorem bucketAfter_empty : BucketAfter committee header phase {} [] where
  done := by simp [Reached]
  held _ := rfl
  weight _ := rfl
  used := by simp
  distinct _ := List.nodup_nil
  names := by simp

/-- A bucket refuses an author it has met unless it is full. When it takes the vote it gives out its
votes if they fill it now. -/
theorem BucketAfter.append {b : PhaseBucket} {votes : List Vote} {v : Vote}
    (hb : BucketAfter committee header phase b votes) (hv : Names header v)
    (hp : v.wahooPhase = some phase) :
    (∃ e, b.append committee v (phaseThreshold committee phase) = .error e ∧
      v.author ∈ votes.map Vote.author ∧ ¬ Reached committee phase votes) ∨
    ∃ b' out, b.append committee v (phaseThreshold committee phase) = .ok (b', out) ∧
      BucketAfter committee header phase b' (votes ++ [v]) ∧
      (v.author ∈ votes.map Vote.author → Reached committee phase votes) ∧
      (∀ l, out = some l ↔ ¬ Reached committee phase votes ∧
        Reached committee phase (votes ++ [v]) ∧ l = votes ++ [v]) ∧
      (∀ l, out = some l → (l.map Vote.author).Nodup) ∧
      b'.done.toNat = b.done.toNat + out.toList.length := by
  have hnames : ∀ w ∈ votes ++ [v], Names header w ∧ w.wahooPhase = some phase := by
    intro w hw
    rcases List.mem_append.1 hw with hw | hw
    · exact hb.names w hw
    · exact List.mem_singleton.1 hw ▸ ⟨hv, hp⟩
  unfold PhaseBucket.append
  rcases hdone : b.done with _ | _
  swap
  · -- a full bucket stays as it is
    have hr := hb.done.1 hdone
    refine .inr ⟨b, none, by simp, ⟨by simp [hdone, hr.concat v], ?_, ?_, ?_, ?_, hnames⟩,
      fun _ => hr, by simp [hr], by simp, by simp [hdone]⟩
    all_goals simp [hdone]
  have hr : ¬ Reached committee phase votes := fun h => by
    rw [hb.done.2 h] at hdone
    cases hdone
  by_cases hused : v.author ∈ b.used
  · exact .inl ⟨.authorityReuse v.author, by simp [hused], (hb.used hdone _).1 hused, hr⟩
  have hfresh : v.author ∉ votes.map Vote.author := fun h => hused ((hb.used hdone _).2 h)
  have hdistinct : ((votes ++ [v]).map Vote.author).Nodup := by
    rw [List.map_append, List.map_singleton, List.nodup_append]
    refine ⟨hb.distinct hdone, List.nodup_singleton _, fun x hx y hy => ?_⟩
    rw [List.mem_singleton.1 hy]
    rintro rfl
    exact hfresh hx
  have hstake : voteStake committee (votes ++ [v]) = b.weight + committee.stake v.author := by
    rw [hb.weight hdone, voteStake, List.map_append, List.map_singleton, stakeOf_concat,
      if_neg hfresh, voteStake]
  have hreached : Reached committee phase (votes ++ [v]) ↔
      phaseThreshold committee phase ≤ b.weight + committee.stake v.author := by
    rw [Reached, hstake]
    simp
  have hheld := hb.held hdone
  have hmem : ∀ x, x ∈ v.author :: b.used ↔ x ∈ (votes ++ [v]).map Vote.author := by
    intro x
    simp [hb.used hdone x, or_comm]
  by_cases hfull : phaseThreshold committee phase ≤ b.weight + committee.stake v.author
  · refine .inr ⟨_, _, by simp only [hused, hfull, if_true, if_false, Bool.false_eq_true]; rfl,
      ⟨by simp [hreached, hfull], ?_, ?_, ?_, ?_, hnames⟩, fun h => absurd h hfresh, fun l => ?_,
      fun l hl => ?_, by simp⟩
    on_goal 5 => rw [hheld, hreached]
    on_goal 6 =>
      rw [← Option.some.inj hl, hheld]
      exact hdistinct
    · simp
    · simp
    · simp
    · simp
    · simp [hr, hfull, eq_comm]
  · refine .inr ⟨_, _, by simp only [hused, hfull, if_false, Bool.false_eq_true]; rfl,
      ⟨by simp [hreached, hfull], fun _ => by simp [hheld], fun _ => hstake.symm, fun _ => hmem,
        fun _ => hdistinct, hnames⟩, fun h => absurd h hfresh, fun l => ?_, by simp, by simp⟩
    rw [hreached]
    simp [hfull]

/-- An aggregator refuses a vote that does not name the header or has no phase. Else the bucket of
the phase decides. -/
theorem appendInPlace_cases (a : WahooVotesAggregator) (v : Vote) :
    ((¬ Names header v ∨ v.wahooPhase = none) ∧
      ∃ e, a.appendInPlace committee v header = (.error e, a)) ∨
    ∃ phase, Names header v ∧ v.wahooPhase = some phase ∧
      a.appendInPlace committee v header =
        match (a.bucket phase).append committee v (phaseThreshold committee phase) with
        | .ok (b, out) => (.ok (out.map fun votes => { phase, certificate := { header, votes } }),
            a.setBucket b phase)
        | .error e => (.error e, a) := by
  unfold appendInPlace Names
  split_ifs with h₁ h₂ h₃
  · exact .inl ⟨.inl fun h => h₁ h.1, _, rfl⟩
  · exact .inl ⟨.inl fun h => h₂ h.2.1, _, rfl⟩
  · exact .inl ⟨.inl fun h => h₃ h.2.2, _, rfl⟩
  rcases hp : v.wahooPhase with _ | phase
  · exact .inl ⟨.inr rfl, _, rfl⟩
  refine .inr ⟨phase, ⟨not_not.1 h₁, not_not.1 h₂, not_not.1 h₃⟩, rfl, ?_⟩
  simp only [PhaseBucket.appendInPlace_eq]
  rcases (a.bucket phase).append committee v (phaseThreshold committee phase) with e | ⟨b, out⟩
  · exact Prod.ext rfl (by cases phase <;> rfl)
  · rfl

/-- A vote that is refused leaves the aggregator as it was. -/
theorem appendInPlace_of_error {a : WahooVotesAggregator} {v : Vote}
    (h : (a.appendInPlace committee v header).1.isOk = false) :
    (a.appendInPlace committee v header).2 = a := by
  rcases @appendInPlace_cases committee header a v with
    ⟨-, e, he⟩ | ⟨phase, -, -, he⟩
  · rw [he]
  · rw [he] at h ⊢
    rcases happ : (a.bucket phase).append committee v (phaseThreshold committee phase) with
      e | ⟨b, out⟩
    · rfl
    · rw [happ] at h
      cases h

/-- The aggregator after a trace. -/
structure After (committee : Committee) (header : Header) (a : WahooVotesAggregator)
    (h : List (Vote × Answer)) : Prop where
  bucket : ∀ phase, BucketAfter committee header phase (a.bucket phase) (accepted phase h)
  once : ∀ phase, (emitted phase h).length = (a.bucket phase).done.toNat
  votes : ∀ phase, ∀ q ∈ emitted phase h, (q.certificate.votes.map Vote.author).Nodup ∧
    ∀ v ∈ q.certificate.votes, Names header v ∧ v.wahooPhase = some phase

/-- A vote is refused if it does not name the header, has no phase, or repeats an author of its
phase before the quorum. It is answered with a quorum if it brings the stake of the authors of its
phase to the threshold, and the quorum has the votes of the phase that were not refused. -/
structure AnsweredExactly (committee : Committee) (header : Header) (pre : List (Vote × Answer))
    (v : Vote) (answer : Answer) : Prop where
  refused : answer.isOk = false ↔ ¬ Names header v ∨ v.wahooPhase = none ∨
    ∃ phase, v.wahooPhase = some phase ∧ v.author ∈ (accepted phase pre).map Vote.author ∧
      ¬ Reached committee phase (accepted phase pre)
  quorum : ∀ phase q, quorumOf phase answer = some q ↔
    (v.wahooPhase = some phase ∧ answer.isOk = true) ∧
      ¬ Reached committee phase (accepted phase pre) ∧
      Reached committee phase (accepted phase (pre ++ [(v, answer)])) ∧
      q = { phase, certificate := { header, votes := accepted phase (pre ++ [(v, answer)]) } }

theorem quorumOf_ok (phase' : WahooVotePhase) (out : Option (List Vote)) :
    quorumOf phase' (.ok (out.map fun votes => { phase, certificate := { header, votes } })) =
      if phase = phase' then out.map fun votes => { phase, certificate := { header, votes } }
      else none := by
  unfold quorumOf
  rcases out with _ | votes <;> split_ifs with hp <;> simp [hp, Except.toOption]

theorem after_empty : After committee header {} [] where
  bucket phase := by cases phase <;> exact bucketAfter_empty
  once phase := by cases phase <;> rfl
  votes := by simp [emitted]

/-- A refused vote changes nothing. -/
theorem After.refuse {a : WahooVotesAggregator} {h : List (Vote × Answer)}
    (ha : After committee header a h) (v : Vote) (e : DagError) :
    After committee header a (h ++ [(v, Except.error e)]) := by
  have haccepted : ∀ phase, accepted phase (h ++ [(v, Except.error e)]) = accepted phase h :=
    fun phase => by
    rw [accepted_concat, if_neg]
    exact fun hv => by cases hv.2
  have hemitted : ∀ phase, emitted phase (h ++ [(v, Except.error e)]) = emitted phase h :=
    fun phase => by
    rw [emitted_concat]
    exact List.append_nil _
  refine ⟨fun phase => ?_, fun phase => ?_, fun phase => ?_⟩
  · rw [haccepted]
    exact ha.bucket phase
  · rw [hemitted]
    exact ha.once phase
  · rw [hemitted]
    exact ha.votes phase

/-- One vote: what is known of the aggregator, and of the answer. -/
theorem After.append {a : WahooVotesAggregator} {h : List (Vote × Answer)}
    (ha : After committee header a h) (v : Vote) :
    After committee header (a.appendInPlace committee v header).2
        (h ++ [(v, (a.appendInPlace committee v header).1)]) ∧
      AnsweredExactly committee header h v (a.appendInPlace committee v header).1 := by
  rcases @appendInPlace_cases committee header a v with
    ⟨hrefused, e, he⟩ | ⟨phase, hnames, hphase, he⟩
  · rw [he]
    refine ⟨ha.refuse v e, ⟨?_, fun phase q => ?_⟩⟩
    · exact iff_of_true rfl (hrefused.imp_right .inl)
    · exact iff_of_false (by simp [quorumOf, Except.toOption]) fun hq => by cases hq.1.2
  rcases (ha.bucket phase).append hnames hphase with
    ⟨e, happ, hmet, hr⟩ | ⟨b, out, happ, hb, hmet, hout, hdistinct, hdone⟩
  · rw [he, happ]
    refine ⟨ha.refuse v e, ⟨?_, fun phase' q => ?_⟩⟩
    · exact iff_of_true rfl (.inr (.inr ⟨phase, hphase, hmet, hr⟩))
    · exact iff_of_false (by simp [quorumOf, Except.toOption]) fun hq => by cases hq.1.2
  rw [he, happ]
  simp only []
  have haccepted : ∀ phase', accepted phase' (h ++ [(v,
      Except.ok (out.map fun votes => { phase, certificate := { header, votes } }))]) =
      if phase = phase' then accepted phase h ++ [v] else accepted phase' h := by
    intro phase'
    rw [accepted_concat, hphase]
    by_cases hp : phase = phase'
    · subst hp
      simp [Except.isOk, Except.toBool]
    · simp [hp]
  have hemitted : ∀ phase', emitted phase' (h ++ [(v,
      Except.ok (out.map fun votes => { phase, certificate := { header, votes } }))]) =
      if phase = phase' then emitted phase h ++
        (out.map fun votes => { phase, certificate := { header, votes } }).toList
      else emitted phase' h := by
    intro phase'
    rw [emitted_concat, quorumOf_ok]
    by_cases hp : phase = phase'
    · subst hp
      simp
    · simp [hp]
  refine ⟨⟨fun phase' => ?_, fun phase' => ?_, fun phase' => ?_⟩, ⟨?_, fun phase' q => ?_⟩⟩
  · rw [haccepted, bucket_setBucket]
    by_cases hp : phase = phase'
    · subst hp
      simpa using hb
    · simpa [hp, Ne.symm hp] using ha.bucket phase'
  · rw [hemitted, bucket_setBucket]
    by_cases hp : phase = phase'
    · subst hp
      rcases out with _ | l <;> simp [ha.once phase, hdone]
    · simpa [hp, Ne.symm hp] using ha.once phase'
  · rw [hemitted]
    by_cases hp : phase = phase'
    · subst hp
      intro q hq
      rw [if_pos rfl, List.mem_append] at hq
      rcases hq with hq | hq
      · exact ha.votes phase q hq
      · obtain ⟨l, hl, rfl⟩ := Option.map_eq_some_iff.1 (Option.mem_toList.1 hq)
        obtain ⟨-, -, rfl⟩ := (hout l).1 hl
        exact ⟨hdistinct _ hl, hb.names⟩
    · rw [if_neg hp]
      exact ha.votes phase'
  · refine iff_of_false (by simp [Except.isOk, Except.toBool]) ?_
    rintro (hn | hn | ⟨phase', hp, hmem, hr⟩)
    · exact hn hnames
    · rw [hphase] at hn
      cases hn
    · obtain rfl := Option.some.inj (hphase.symm.trans hp)
      exact hr (hmet hmem)
  · rw [quorumOf_ok, haccepted, hphase]
    by_cases hp : phase = phase'
    · subst hp
      rw [if_pos rfl, if_pos rfl, Option.map_eq_some_iff]
      constructor
      · rintro ⟨l, hl, rfl⟩
        obtain ⟨hr, hr', rfl⟩ := (hout l).1 hl
        exact ⟨⟨rfl, rfl⟩, hr, hr', rfl⟩
      · rintro ⟨-, hr, hr', rfl⟩
        exact ⟨_, (hout _).2 ⟨hr, hr', rfl⟩, rfl⟩
    · rw [if_neg hp]
      exact iff_of_false (by simp) fun hq => hp (Option.some.inj hq.1.1)

/-- A vote of another phase leaves the bucket alone. -/
theorem appendInPlace_of_ne {v : Vote} (hp : v.wahooPhase ≠ some phase)
    (a : WahooVotesAggregator) :
    (a.appendInPlace committee v header).2.bucket phase = a.bucket phase ∧
      quorumOf phase (a.appendInPlace committee v header).1 = none := by
  rcases @appendInPlace_cases committee header a v with
    ⟨-, e, he⟩ | ⟨phase', -, hphase, he⟩
  · rw [he]
    exact ⟨rfl, rfl⟩
  have hne : phase' ≠ phase := fun h => hp (h ▸ hphase)
  rw [he]
  rcases (a.bucket phase').append committee v (phaseThreshold committee phase') with e | ⟨b, out⟩
  · exact ⟨rfl, rfl⟩
  · exact ⟨by simp [bucket_setBucket, hne.symm], by simp [quorumOf_ok, hne]⟩

/-- The answer to a vote depends on the bucket of its phase. -/
theorem appendInPlace_congr {v : Vote} (hp : v.wahooPhase = some phase)
    {a a' : WahooVotesAggregator} (h : a.bucket phase = a'.bucket phase) :
    (a.appendInPlace committee v header).2.bucket phase =
        (a'.appendInPlace committee v header).2.bucket phase ∧
      quorumOf phase (a.appendInPlace committee v header).1 =
        quorumOf phase (a'.appendInPlace committee v header).1 := by
  unfold appendInPlace
  rw [hp]
  split_ifs
  · exact ⟨h, rfl⟩
  · exact ⟨h, rfl⟩
  · exact ⟨h, rfl⟩
  · simp [h, bucket_setBucket]

/-- Only the votes of a phase, in their order, decide the quorum of the phase. -/
theorem emitted_answers_filter (votes : List Vote) :
    emitted phase (answers committee header votes) =
      emitted phase
        (answers committee header (votes.filter fun v => v.wahooPhase = some phase)) := by
  refine filterMap_trace_filter (bucket · phase) ?_ ?_ votes rfl
  · exact fun a v hv => appendInPlace_of_ne (by simpa using hv) a
  · exact fun _ _ v hv h => appendInPlace_congr (by simpa using hv) h

/-- Whatever the votes, refused votes change nothing, every answer is the one the votes taken before
call for, a phase has one quorum at most, with votes of different authors on the header, and the
order of votes of different phases does not matter. -/
theorem wahoo_votes_aggregated_exactly (committee : Committee) (header : Header)
    (votes : List Vote) :
    (∀ (a : WahooVotesAggregator) v, (a.appendInPlace committee v header).1.isOk = false →
      (a.appendInPlace committee v header).2 = a) ∧
    (∀ pre v answer post, answers committee header votes = pre ++ (v, answer) :: post →
      AnsweredExactly committee header pre v answer) ∧
    (∀ phase, (emitted phase (answers committee header votes)).length ≤ 1 ∧
      ∀ q ∈ emitted phase (answers committee header votes),
        (q.certificate.votes.map Vote.author).Nodup ∧
          ∀ v ∈ q.certificate.votes, Names header v ∧ v.wahooPhase = some phase) ∧
    ∀ votes', (∀ phase : WahooVotePhase, (votes'.filter fun v => v.wahooPhase = some phase) =
        votes.filter fun v => v.wahooPhase = some phase) →
      ∀ phase, emitted phase (answers committee header votes') =
        emitted phase (answers committee header votes) := by
  have hstep : ∀ (a : WahooVotesAggregator) h v, v ∈ votes → After committee header a h →
      After committee header (a.appendInPlace committee v header).2
        (h ++ [(v, (a.appendInPlace committee v header).1)]) := fun _ _ v _ ha => (ha.append v).1
  refine ⟨fun _ _ => appendInPlace_of_error, fun pre v answer post he => ?_, fun phase => ?_,
    fun votes' hvotes phase => ?_⟩
  · obtain ⟨a, ha, -, rfl⟩ := exists_before (h := []) after_empty hstep he
    exact (ha.append v).2
  · obtain ⟨a, ha⟩ := exists_final (h := []) after_empty hstep
    exact ⟨(ha.once phase).trans_le (Bool.toNat_le _), ha.votes phase⟩
  · rw [emitted_answers_filter, hvotes phase, ← emitted_answers_filter]

end WahooVotesAggregator

end NovelDag
