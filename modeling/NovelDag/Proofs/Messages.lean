import NovelDag.Messages

/-!
# What the verifiers establish

A vote loop that ends well has met votes of distinct members and has added up their stake, so the
two verifiers accept exactly the vote lists that are quorums for the block they name.

The full check of a certificate is sound. Its shortcut for genesis certificates compares only the
header id, the round and the origin, so it accepts every other content under a genesis key.
-/

namespace NovelDag

open Fallible

variable [Crypto] (committee : Committee) (dagProtocol : DagProtocol)

/-- Signed votes of distinct members with the stake of a quorum. -/
structure VoteQuorum (votes : List Vote) : Prop where
  valid : ∀ v ∈ votes, Crypto.verifies v.signature v.digest v.author = true
  distinct : (votes.map Vote.author).Nodup
  member : ∀ v ∈ votes, 0 < committee.stake v.author
  stake : committee.quorumThreshold ≤ (votes.map fun v => committee.stake v.author).sum

/-! ## The vote loop -/

section Votes

variable {committee}

omit [Crypto] in
theorem countVotes_eq_ok {check : Vote → Except DagError Unit} :
    ∀ {votes : List Vote} {used : List PublicKey} {w w' : ℕ},
      countVotes committee check votes used w = .ok w' ↔
        (∀ v ∈ votes, check v = .ok ()) ∧ (votes.map Vote.author).Nodup ∧
        (∀ v ∈ votes, v.author ∉ used) ∧ (∀ v ∈ votes, 0 < committee.stake v.author) ∧
        w' = w + (votes.map fun v => committee.stake v.author).sum
  | [], used, w, w' => by
    simp [countVotes, eq_comm]
  | v :: votes, used, w, w' => by
    rw [countVotes, check_bind_eq_ok, check_bind_eq_ok, check_bind_eq_ok, ensure_eq_ok,
      ensure_eq_ok, countVotes_eq_ok]
    rw [List.forall_mem_cons, List.forall_mem_cons, List.forall_mem_cons, List.map_cons,
      List.map_cons, List.nodup_cons, List.sum_cons]
    simp only [decide_eq_true_eq, List.mem_map, List.mem_cons, not_or]
    constructor
    · rintro ⟨hc, hu, hs, hcs, hn, hus, hss, rfl⟩
      exact ⟨⟨hc, hcs⟩, ⟨fun ⟨x, hx, he⟩ => (hus x hx).1 he, hn⟩, ⟨hu, fun x hx => (hus x hx).2⟩,
        ⟨hs, hss⟩, by omega⟩
    · rintro ⟨⟨hc, hcs⟩, ⟨hv, hn⟩, ⟨hu, hus⟩, ⟨hs, hss⟩, rfl⟩
      exact ⟨hc, hu, hs, hcs, hn, fun x hx => ⟨fun he => hv ⟨x, hx, he⟩, hus x hx⟩, hss, by omega⟩

theorem verifyVotes_eq_ok {check : Vote → Except DagError Unit} {votes : List Vote} :
    verifyVotes committee check votes = .ok () ↔
      (∀ v ∈ votes, check v = .ok ()) ∧ VoteQuorum committee votes := by
  unfold verifyVotes
  rw [bind_eq_ok]
  simp only [check_bind_eq_ok, ensure_eq_ok, decide_eq_true_eq, countVotes_eq_ok, verifyBatchDigests,
    List.all_map, List.all_eq_true, Function.comp_apply]
  constructor
  · rintro ⟨w, ⟨hc, hn, -, hs, rfl⟩, hv, hq⟩
    exact ⟨hc, hv, hn, hs, by simpa using hq⟩
  · rintro ⟨hc, hv, hn, hs, hq⟩
    exact ⟨_, ⟨hc, hn, by simp, hs, rfl⟩, hv, by simpa using hq⟩

variable (committee)

theorem VoteQuorum.weight_le {votes : List Vote} (hq : VoteQuorum committee votes) :
    committee.quorumThreshold ≤ Weighted.weight committee.stake (votes.map Vote.author).toFinset := by
  rw [← Weighted.sum_map_eq_weight _ hq.distinct, List.map_map]
  exact hq.stake

end Votes

/-! ## Headers -/

section Headers

variable {committee dagProtocol} {h : Header}

/-- What every header that `Header::verify` accepts satisfies. -/
structure Header.Verified (committee : Committee) (dagProtocol : DagProtocol) (h : Header) :
    Prop where
  id_eq : h.digest = h.id
  structure_ok : h.verifyStructure committee dagProtocol = .ok ()
  member : 0 < committee.stake h.author
  worker : ∀ w ∈ h.payload.values, committee.worker h.author w = .ok ()
  disjoint : h.parents.isDisjoint h.parents2 = true
  coinShare : h.coinShare.length ≤ 256
  qc : ∀ qc, h.qc = some qc → qc.round + 1 = h.round ∧
    (∀ v ∈ qc.votes, h.checkQcVote dagProtocol qc v = .ok ()) ∧ VoteQuorum committee qc.votes
  signed : Crypto.verifies h.signature h.id h.author = true

theorem Header.checkQc_eq_ok {qc : EmbeddedQc} :
    h.checkQc committee dagProtocol qc = .ok () ↔ qc.round + 1 = h.round ∧
      (∀ v ∈ qc.votes, h.checkQcVote dagProtocol qc v = .ok ()) ∧
        VoteQuorum committee qc.votes := by
  rw [Header.checkQc, check_bind_eq_ok, ensure_eq_ok, decide_eq_true_eq, verifyVotes_eq_ok]

theorem Header.verify_eq_ok :
    h.verify committee dagProtocol = .ok () ↔ h.Verified committee dagProtocol := by
  unfold Header.verify
  simp only [check_bind_eq_ok, ensure_eq_ok, decide_eq_true_eq, forM_eq_ok, mapError_eq_ok]
  constructor
  · rintro ⟨hid, hst, hm, hw, hd, hcs, hqc, hs⟩
    refine ⟨hid, hst, hm, hw, hd, hcs, fun qc hq => ?_, hs⟩
    rwa [hq, Option.elim_some, checkQc_eq_ok] at hqc
  · rintro ⟨hid, hst, hm, hw, hd, hcs, hqc, hs⟩
    refine ⟨hid, hst, hm, hw, hd, hcs, ?_, hs⟩
    rcases hq : h.qc with _ | qc
    · rfl
    · exact checkQc_eq_ok.2 (hqc qc hq)

omit [Crypto] in
theorem Header.checkQcVote_eq_ok {qc : EmbeddedQc} {v : Vote} :
    h.checkQcVote dagProtocol qc v = .ok () ↔ v.id = qc.target ∧ v.round = qc.round ∧
      v.origin = h.author ∧ (dagProtocol.isShortfinFamily = true → 0 < v.voterRound) := by
  simp [Header.checkQcVote, check_bind_eq_ok, or_iff_not_imp_left]

end Headers

/-! ## Certificates -/

namespace Certificate

variable (cert : Certificate)

/-- The votes are on this certificate's header, round and origin, and are a quorum. -/
def CarriesQuorum : Prop :=
  (∀ v ∈ cert.votes, v.id = cert.header.id ∧ v.round = cert.round ∧ v.origin = cert.origin) ∧
    VoteQuorum committee cert.votes

/-- The author signed the header id, and the votes certify it where the protocol has votes. -/
def Certified : Prop :=
  Crypto.verifies cert.header.signature cert.header.id cert.origin = true ∧
    ((dagProtocol.isUncertifiedDag = true ∧ cert.votes = []) ∨ cert.CarriesQuorum committee)

/-- A member's genesis certificate, equal in the votes and in every header field; or a header that
hashes to its id, signed and certified. -/
def Authentic : Prop :=
  cert ∈ genesis committee ∨
    (cert.header.id = cert.header.digest ∧ cert.Certified committee dagProtocol)

/-- The id, round and origin of a member's genesis certificate. -/
def GenesisKey : Prop :=
  cert.header.id = 0 ∧ cert.round = 0 ∧ cert.origin ∈ committee.names

variable {committee dagProtocol cert}

omit [Crypto] in
theorem checkVote_eq_ok {v : Vote} : cert.checkVote v = .ok () ↔
    v.id = cert.header.id ∧ v.round = cert.round ∧ v.origin = cert.origin := by
  simp [checkVote, check_bind_eq_ok]

omit [Crypto] in
theorem partialEq_eq_true {other : Certificate} : cert.partialEq other = true ↔
    cert.header.id = other.header.id ∧ cert.round = other.round ∧ cert.origin = other.origin :=
  decide_eq_true_iff

omit [Crypto] in
/-- The comparison of `Certificate::verify` with the genesis certificates. -/
theorem any_partialEq_genesis :
    ((genesis committee).any fun g => g.partialEq cert) = true ↔ cert.GenesisKey committee := by
  simp only [genesis, List.any_map, List.any_eq_true, Function.comp_apply, partialEq_eq_true,
    GenesisKey, round, origin]
  constructor
  · rintro ⟨name, hn, hi, hr, rfl⟩
    exact ⟨hi.symm, hr.symm, hn⟩
  · rintro ⟨hi, hr, ho⟩
    exact ⟨_, ho, hi.symm, hr.symm, rfl⟩

theorem verifyFull_eq_ok : cert.verifyFull committee dagProtocol = .ok () ↔
    cert.header.Verified committee dagProtocol ∧
      ((dagProtocol.isUncertifiedDag = true ∧ cert.votes = []) ∨
        cert.CarriesQuorum committee) := by
  unfold verifyFull
  rw [check_bind_eq_ok, Header.verify_eq_ok]
  refine and_congr_right fun _ => ?_
  split_ifs with hu
  · have hyes : dagProtocol.isUncertifiedDag = true ∧ cert.votes = [] := by simpa using hu
    exact iff_of_true rfl (.inl hyes)
  · have hno : ¬ (dagProtocol.isUncertifiedDag = true ∧ cert.votes = []) := by simpa using hu
    simp only [verifyVotes_eq_ok, checkVote_eq_ok, CarriesQuorum, hno, false_or]

theorem verify_eq_ok : cert.verify committee dagProtocol = .ok () ↔
    cert.GenesisKey committee ∨ cert.verifyFull committee dagProtocol = .ok () := by
  unfold verify
  split_ifs with hg
  · exact iff_of_true rfl (.inl (any_partialEq_genesis.1 hg))
  · rw [any_partialEq_genesis] at hg
    simp [hg]

theorem authentic_of_verifyFull (h : cert.verifyFull committee dagProtocol = .ok ()) :
    cert.Authentic committee dagProtocol := by
  obtain ⟨hv, hq⟩ := verifyFull_eq_ok.1 h
  exact .inr ⟨hv.id_eq.symm, hv.signed, hq⟩

variable (committee dagProtocol cert)

/-- `Certificate::verify` accepts authentic certificates only, exactly when the certificate does
not borrow a genesis key: it has another key, or it is that genesis certificate, or its header
hashes to the zero id and is signed and certified under it. -/
theorem verify_authentic_iff :
    (cert.verify committee dagProtocol = .ok () → cert.Authentic committee dagProtocol) ↔
      (¬ cert.GenesisKey committee ∨ cert ∈ genesis committee ∨
        (cert.header.digest = 0 ∧ cert.Certified committee dagProtocol)) := by
  constructor
  · intro h
    by_cases hg : cert.GenesisKey committee
    · rcases h (verify_eq_ok.2 (.inl hg)) with h | ⟨hi, hc⟩
      · exact .inr (.inl h)
      · exact .inr (.inr ⟨hi.symm.trans hg.1, hc⟩)
    · exact .inl hg
  · intro h hv
    rcases verify_eq_ok.1 hv with hg | hf
    · rcases h with h | h | ⟨hd, hc⟩
      · exact absurd hg h
      · exact .inl h
      · exact .inr ⟨hg.1.trans hd.symm, hc⟩
    · exact authentic_of_verifyFull hf

omit [Crypto] in
/-- A payload and a made-up vote under the genesis key of the first member pass. -/
theorem verify_not_authentic : ¬ ∀ [Crypto] (committee : Committee)
    (dagProtocol : DagProtocol) (cert : Certificate),
    cert.verify committee dagProtocol = .ok () → cert.Authentic committee dagProtocol := by
  intro h
  have := @h toyCrypto (Committee.uniform 4) .narwhal
    { header := { payload := SortedMap.ofList [(5, 0)] }, votes := [{ author := 3 }] }
    (by decide)
  rcases this with hg | ⟨hd, -⟩
  · exact absurd hg (by decide)
  · exact absurd hd (by decide +kernel)

end Certificate

end NovelDag
