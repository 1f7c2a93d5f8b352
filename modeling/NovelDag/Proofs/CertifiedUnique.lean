import NovelDag.Proofs.Messages
import NovelDag.Proofs.HeaderId

/-!
# One certified block for an author and a round

The digest of a vote binds the id, the round and the origin it is for, so two quorums of votes for
one author and round share the vote of an authority that signs for one id there. Both verifiers ask
for such a quorum. `Certificate::verify` does not ask for it under the key of a genesis certificate,
and that leaves the one way to two certified blocks in an author's round 0.
-/

namespace NovelDag

open Fallible Encoding

/-! ## What a vote is on -/

section Binding

/-- The byte string `Vote::digest` feeds to SHA-512. -/
def Vote.message (v : Vote) : List UInt8 := List.flatten
  [v.id.bytes, leBytes 8 v.round, leBytes 8 v.voterRound, v.origin.bytes,
    v.wahooPhase.elim [] fun phase => [87, 86, 80, 72, phase.toByte]] -- b"WVPH"

theorem Vote.digest_eq_message [Crypto] (v : Vote) : v.digest = Crypto.sha512 v.message := rfl

/-- The message of a vote binds what the vote is on. -/
theorem Vote.message_binds {v w : Vote} (hv : v.InRange) (hw : w.InRange)
    (h : v.message = w.message) : v.id = w.id ∧ v.round = w.round ∧ v.origin = w.origin := by
  simp only [Vote.message, List.flatten_cons, List.flatten_nil, List.append_nil] at h
  obtain ⟨hid, h⟩ := readable_digest _ _ _ _ trivial h
  obtain ⟨hround, h⟩ := Readable.leBytes 8 _ _ _ _ ⟨hv.round, hw.round⟩ h
  obtain ⟨-, h⟩ := Readable.leBytes 8 _ _ _ _ ⟨hv.voterRound, hw.voterRound⟩ h
  obtain ⟨horigin, -⟩ := readable_publicKey _ _ _ _ trivial h
  exact ⟨hid, hround, horigin⟩

end Binding

/-! ## Authorities that vote once -/

section Voting

variable [Crypto]

/-- The votes `signed` by the authorities outside `B`, and the votes `V` in circulation: each
authority signs for at most one id an origin and a round, and a signature of its key that verifies
over a vote in circulation was made on that vote's message. -/
structure VotesOnce (committee : Committee) (B : Finset PublicKey) (signed : PublicKey → Set Vote)
    (V : Set Vote) : Prop where
  byzantine : Weighted.weight committee.stake B ≤ committee.totalVotes - committee.quorumThreshold
  inRange : ∀ v ∈ V, v.InRange
  signedInRange : ∀ a ∉ B, ∀ w ∈ signed a, w.InRange
  once : ∀ a ∉ B, ∀ w ∈ signed a, ∀ w' ∈ signed a, w.origin = w'.origin → w.round = w'.round →
    w.id = w'.id
  unforged : ∀ v ∈ V, v.author ∉ B → Crypto.verifies v.signature v.digest v.author = true →
    ∃ w ∈ signed v.author, w.message = v.message

/-- Two quorums of votes on blocks of one author and round are on one id. -/
theorem VoteQuorum.id_unique {committee : Committee} {B : Finset PublicKey}
    {signed : PublicKey → Set Vote} {V : Set Vote} (hvoting : VotesOnce committee B signed V)
    {votes votes' : List Vote} {id id' : Digest} {origin : PublicKey} {round : ℕ}
    (hV : ∀ v ∈ votes, v ∈ V) (hV' : ∀ v ∈ votes', v ∈ V)
    (hq : VoteQuorum committee votes) (hq' : VoteQuorum committee votes')
    (hon : ∀ v ∈ votes, v.id = id ∧ v.round = round ∧ v.origin = origin)
    (hon' : ∀ v ∈ votes', v.id = id' ∧ v.round = round ∧ v.origin = origin) : id = id' := by
  obtain ⟨a, ha, ha', hB⟩ := committee.quorum_inter hvoting.byzantine hq.weight_le hq'.weight_le
  -- the votes of `a` in the two quorums, and what it signed for them
  have hsigned : ∀ {vs : List Vote} {id : Digest}, (∀ v ∈ vs, v ∈ V) → VoteQuorum committee vs →
      (∀ v ∈ vs, v.id = id ∧ v.round = round ∧ v.origin = origin) →
      a ∈ (vs.map Vote.author).toFinset →
      ∃ w ∈ signed a, w.id = id ∧ w.round = round ∧ w.origin = origin := by
    intro vs id hV hq hon ha
    obtain ⟨v, hv, rfl⟩ := List.mem_map.1 (List.mem_toFinset.1 ha)
    obtain ⟨w, hw, hmsg⟩ := hvoting.unforged v (hV v hv) hB (hq.valid v hv)
    obtain ⟨hid, hround, horigin⟩ := Vote.message_binds (hvoting.signedInRange _ hB w hw)
      (hvoting.inRange v (hV v hv)) hmsg
    obtain ⟨hid', hround', horigin'⟩ := hon v hv
    exact ⟨w, hw, hid.trans hid', hround.trans hround', horigin.trans horigin'⟩
  obtain ⟨w, hw, hid, hround, horigin⟩ := hsigned hV hq hon ha
  obtain ⟨w', hw', hid', hround', horigin'⟩ := hsigned hV' hq' hon' ha'
  rw [← hid, ← hid']
  exact hvoting.once a hB w hw w' hw' (horigin.trans horigin'.symm) (hround.trans hround'.symm)

end Voting

/-! ## Certificates and embedded QCs -/

section Unique

variable [Crypto] (committee : Committee) (dagProtocol : DagProtocol)

/-- Not both of two certificates with votes pass if they certify two blocks of an author's round. -/
def Certificate.Unique (c c' : Certificate) : Prop :=
  c.votes ≠ [] → c'.votes ≠ [] → c.origin = c'.origin → c.round = c'.round →
    c.verify committee dagProtocol = .ok () → c'.verify committee dagProtocol = .ok () →
    c.header.id = c'.header.id

/-- Not both of two headers pass if their QCs are on two blocks of an author's round. -/
def Header.QcUnique (h h' : Header) : Prop :=
  ∀ qc qc', h.qc = some qc → h'.qc = some qc' → h.author = h'.author → qc.round = qc'.round →
    h.verify committee dagProtocol = .ok () → h'.verify committee dagProtocol = .ok () →
    qc.target = qc'.target

/-- The certificate has votes under the key of a genesis certificate, and its author has another
block in round 0: one with an id, its digest, without parents or a QC, signed by its author and
voted for by a quorum. -/
structure Certificate.Clashes (c c' : Certificate) : Prop where
  key : c.GenesisKey committee
  votes : c.votes ≠ []
  origin : c'.origin = c.origin
  round : c'.round = 0
  id : c'.header.id ≠ 0
  hashed : c'.header.digest = c'.header.id
  rootless : c'.header.parents = ∅ ∧ c'.header.parents2 = ∅ ∧ c'.header.qc = none
  plain : dagProtocol ≠ .shortfin → c'.header.wahooTag = none ∧ c'.header.leaderLink = none
  member : 0 < committee.stake c'.origin
  worker : ∀ w ∈ c'.header.payload.values, committee.worker c'.origin w = .ok ()
  coinShare : c'.header.coinShare.length ≤ 256
  signed : Crypto.verifies c'.header.signature c'.header.id c'.origin = true
  on : ∀ v ∈ c'.votes, v.id = c'.header.id ∧ v.round = 0 ∧ v.origin = c'.origin
  voters : (c'.votes.map Vote.author).Nodup
  voted : ∀ v ∈ c'.votes, 0 < committee.stake v.author ∧
    Crypto.verifies v.signature v.digest v.author = true
  quorum : committee.quorumThreshold ≤ (c'.votes.map fun v => committee.stake v.author).sum

variable {committee dagProtocol} {c c' : Certificate} {h h' : Header}

omit [Crypto] in
/-- Of a header of round 0 the verifier asks for no parents and no QC, and but for Shortfin for no
tag and no leader link. -/
theorem Header.verifyStructure_roundZero (hround : h.round = 0) (hqc : h.qc = none) :
    h.verifyStructure committee dagProtocol = .ok () ↔ h.parents = ∅ ∧ h.parents2 = ∅ ∧
      (dagProtocol ≠ .shortfin → h.wahooTag = none ∧ h.leaderLink = none) := by
  unfold Header.verifyStructure
  cases dagProtocol <;>
    simp [hround, hqc, check_bind_eq_ok, and_assoc]

/-- A header of round 0 has no round below for a QC. -/
theorem Header.Verified.qc_eq_none (hv : h.Verified committee dagProtocol) (hround : h.round = 0) :
    h.qc = none := by
  rcases hqc : h.qc with _ | qc
  · rfl
  · have hbelow := (hv.qc qc hqc).1
    omega

theorem Certificate.Clashes.verify (hc : c.Clashes committee dagProtocol c') :
    c.verify committee dagProtocol = .ok () ∧ c'.verify committee dagProtocol = .ok () := by
  refine ⟨verify_eq_ok.2 (.inl hc.key), verify_eq_ok.2 (.inr (verifyFull_eq_ok.2 ⟨?_, .inr ?_⟩))⟩
  · obtain ⟨hparents, hparents2, hqc⟩ := hc.rootless
    refine ⟨hc.hashed, ?_, hc.member, hc.worker, ?_, hc.coinShare, ?_, hc.signed⟩
    · exact (Header.verifyStructure_roundZero hc.round hqc).2 ⟨hparents, hparents2, hc.plain⟩
    · rw [hparents, hparents2]
      rfl
    · simp [hqc]
  · refine ⟨fun v hv => ?_, fun v hv => (hc.voted v hv).2, hc.voters,
      fun v hv => (hc.voted v hv).1, hc.quorum⟩
    rw [hc.round]
    exact hc.on v hv

/-- Two certificates that pass clash if one borrows a genesis key and the other has a quorum for
another block of round 0. -/
theorem Certificate.Clashes.of_verified (hkey : c.GenesisKey committee) (hvotes : c.votes ≠ [])
    (horigin : c'.origin = c.origin) (hround : c'.round = 0) (hid : c'.header.id ≠ 0)
    (hv : c'.header.Verified committee dagProtocol) (hq : c'.CarriesQuorum committee) :
    c.Clashes committee dagProtocol c' := by
  have hqc := hv.qc_eq_none hround
  obtain ⟨hparents, hparents2, hplain⟩ :=
    (Header.verifyStructure_roundZero hround hqc).1 hv.structure_ok
  refine ⟨hkey, hvotes, horigin, hround, hid, hv.id_eq, ⟨hparents, hparents2, hqc⟩, hplain,
    hv.member, hv.worker, hv.coinShare, hv.signed, fun v hv => ?_, hq.2.distinct,
    fun v hv => ⟨hq.2.member v hv, hq.2.valid v hv⟩, hq.2.stake⟩
  rw [← hround]
  exact hq.1 v hv

theorem Certificate.Clashes.votes_ne_nil (hc : c.Clashes committee dagProtocol c') :
    c'.votes ≠ [] := by
  intro hnil
  have hquorum := hc.quorum
  rw [hnil] at hquorum
  exact absurd committee.quorumThreshold_pos hquorum.not_gt

/-- Certificates with votes pass by a genesis key or by a quorum. -/
theorem Certificate.verify_votes (hv : c.verify committee dagProtocol = .ok ())
    (hvotes : c.votes ≠ []) : c.GenesisKey committee ∨
      c.header.Verified committee dagProtocol ∧ c.CarriesQuorum committee := by
  refine (verify_eq_ok.1 hv).imp_right fun hf => ?_
  obtain ⟨hverified, ⟨-, hnil⟩ | hq⟩ := verifyFull_eq_ok.1 hf
  · exact absurd hnil hvotes
  · exact ⟨hverified, hq⟩

variable {B : Finset PublicKey} {signed : PublicKey → Set Vote} {V : Set Vote}

theorem Certificate.unique_iff (hvoting : VotesOnce committee B signed V)
    (hV : ∀ v ∈ c.votes, v ∈ V) (hV' : ∀ v ∈ c'.votes, v ∈ V) :
    c.Unique committee dagProtocol c' ↔
      ¬ c.Clashes committee dagProtocol c' ∧ ¬ c'.Clashes committee dagProtocol c := by
  constructor
  · intro hu
    refine ⟨fun hc => hc.id ?_, fun hc => hc.id ?_⟩
    · have hround : c.round = c'.round := hc.key.2.1.trans hc.round.symm
      rw [← hu hc.votes hc.votes_ne_nil hc.origin.symm hround hc.verify.1 hc.verify.2]
      exact hc.key.1
    · have hround : c.round = c'.round := hc.round.trans hc.key.2.1.symm
      rw [hu hc.votes_ne_nil hc.votes hc.origin hround hc.verify.2 hc.verify.1]
      exact hc.key.1
  · rintro ⟨hno, hno'⟩ hvotes hvotes' horigin hround hv hv'
    rcases Certificate.verify_votes hv hvotes with hg | ⟨hver, hq⟩ <;>
      rcases Certificate.verify_votes hv' hvotes' with hg' | ⟨hver', hq'⟩
    · exact hg.1.trans hg'.1.symm
    · by_contra hid
      exact hno (.of_verified hg hvotes horigin.symm (hround.symm.trans hg.2.1)
        (fun h0 => hid (hg.1.trans h0.symm)) hver' hq')
    · by_contra hid
      exact hno' (.of_verified hg' hvotes' horigin (hround.trans hg'.2.1)
        (fun h0 => hid (h0.trans hg'.1.symm)) hver hq)
    · refine hq.2.id_unique hvoting hV hV' hq'.2 hq.1 fun v hv => ?_
      rw [hround, horigin]
      exact hq'.1 v hv

/-- An embedded QC is a quorum of votes on its target. -/
theorem Header.qcUnique (hvoting : VotesOnce committee B signed V)
    (hV : ∀ qc ∈ h.qc, ∀ v ∈ qc.votes, v ∈ V) (hV' : ∀ qc ∈ h'.qc, ∀ v ∈ qc.votes, v ∈ V) :
    h.QcUnique committee dagProtocol h' := by
  intro qc qc' hqc hqc' hauthor hround hv hv'
  obtain ⟨-, hon, hq⟩ := (verify_eq_ok.1 hv).qc qc hqc
  obtain ⟨-, hon', hq'⟩ := (verify_eq_ok.1 hv').qc qc' hqc'
  simp only [checkQcVote_eq_ok] at hon hon'
  refine hq.id_unique hvoting (hV qc hqc) (hV' qc' hqc') hq'
    (fun v hv => ⟨(hon v hv).1, (hon v hv).2.1, (hon v hv).2.2.1⟩) fun v hv => ?_
  rw [hround, hauthor]
  exact ⟨(hon' v hv).1, (hon' v hv).2.1, (hon' v hv).2.2.1⟩

/-- Blocks certified by a quorum, in a certificate or in a QC, are unique for their author and round
unless a certificate borrows a genesis key. -/
theorem certified_unique_iff (hvoting : VotesOnce committee B signed V)
    (hV : ∀ v ∈ c.votes, v ∈ V) (hV' : ∀ v ∈ c'.votes, v ∈ V)
    (hQ : ∀ qc ∈ h.qc, ∀ v ∈ qc.votes, v ∈ V) (hQ' : ∀ qc ∈ h'.qc, ∀ v ∈ qc.votes, v ∈ V) :
    (c.Unique committee dagProtocol c' ∧ h.QcUnique committee dagProtocol h') ↔
      ¬ c.Clashes committee dagProtocol c' ∧ ¬ c'.Clashes committee dagProtocol c := by
  rw [Certificate.unique_iff hvoting hV hV', and_iff_left (Header.qcUnique hvoting hQ hQ')]

end Unique

/-! ## Two certified blocks in round 0 -/

section RoundZero

/-- Authority 0's block of round 0, certified by three of four. -/
def roundZeroBlock [Crypto] : Certificate :=
  let header : Header := {}
  let header := { header with id := header.digest, signature := Crypto.sign 0 header.digest }
  { header, votes := [0, 1, 2].map fun voter => Vote.new header 0 voter }

/-- A made-up vote under the key of its genesis certificate. -/
def borrowedKey : Certificate := { votes := [{ author := 3 }] }

theorem votesOnce_roundZero : @VotesOnce toyCrypto (.uniform 4) ∅
    (fun a => {w | w ∈ (@roundZeroBlock toyCrypto).votes ∧ w.author = a})
    {v | v ∈ borrowedKey.votes ++ (@roundZeroBlock toyCrypto).votes} := by
  let _ := toyCrypto
  refine ⟨by decide, ?_, ?_, ?_, ?_⟩
  · have hall : ∀ v ∈ borrowedKey.votes ++ roundZeroBlock.votes,
        v.round < 256 ^ 8 ∧ v.voterRound < 256 ^ 8 := by decide
    exact fun v hv => ⟨(hall v hv).1, (hall v hv).2⟩
  · have hall : ∀ v ∈ roundZeroBlock.votes, v.round < 256 ^ 8 ∧ v.voterRound < 256 ^ 8 := by
      decide
    exact fun a _ w hw => ⟨(hall w hw.1).1, (hall w hw.1).2⟩
  · have hall : ∀ v ∈ roundZeroBlock.votes, ∀ w ∈ roundZeroBlock.votes, v.id = w.id := by
      decide +kernel
    exact fun a _ w hw w' hw' _ _ => hall w hw.1 w' hw'.1
  · have hforged : ∀ v ∈ borrowedKey.votes,
        ¬ Crypto.verifies v.signature v.digest v.author = true := by decide
    intro v hv _ hvalid
    rcases List.mem_append.1 hv with hv | hv
    · exact absurd hvalid (hforged v hv)
    · exact ⟨v, ⟨hv, rfl⟩, rfl⟩

/-- All four vote once, and still both certificates of authority 0 in round 0 pass. -/
theorem certified_not_unique : ¬ ∀ [Crypto] (committee : Committee) (dagProtocol : DagProtocol)
    (B : Finset PublicKey) (signed : PublicKey → Set Vote) (V : Set Vote) (c c' : Certificate)
    (h h' : Header), VotesOnce committee B signed V → (∀ v ∈ c.votes, v ∈ V) →
      (∀ v ∈ c'.votes, v ∈ V) → (∀ qc ∈ h.qc, ∀ v ∈ qc.votes, v ∈ V) →
      (∀ qc ∈ h'.qc, ∀ v ∈ qc.votes, v ∈ V) →
      c.Unique committee dagProtocol c' ∧ h.QcUnique committee dagProtocol h' := by
  intro hall
  have hunique := (@hall toyCrypto (.uniform 4) .narwhal ∅ _ _ borrowedKey
    (@roundZeroBlock toyCrypto) {} {} votesOnce_roundZero
    (fun v hv => List.mem_append_left _ hv) (fun v hv => List.mem_append_right _ hv)
    (by simp) (by simp)).1
  have hid := hunique (by decide) (by decide) rfl rfl (by decide +kernel) (by decide +kernel)
  exact absurd hid (by decide +kernel)

end RoundZero

/-! ## Two quorums for one block -/

section RoundOne

variable [Crypto]

/-- Authority 0's block of round 1. -/
def roundOneBlock : Header :=
  let header : Header := { round := 1, parents := SortedSet.ofList [5] }
  { header with id := header.digest, signature := Crypto.sign 0 header.digest }

def roundOneVotes (voters : List PublicKey) : List Vote := voters.map (Vote.new roundOneBlock 1)

/-- Its certificate by some voters. -/
def roundOneCertificate (voters : List PublicKey) : Certificate :=
  { header := roundOneBlock, votes := roundOneVotes voters }

/-- A block of round 2 on that of round 1, with a QC by some voters. -/
def roundTwoBlock (voters : List PublicKey) : Header :=
  let header : Header :=
    { round := 2, parents := SortedSet.ofList [5],
      qc := some { target := roundOneBlock.id, round := 1, votes := roundOneVotes voters } }
  { header with id := header.digest, signature := Crypto.sign 0 header.digest }

omit [Crypto] in
/-- Authority 3 is Byzantine, and nobody signs for another block. -/
theorem votesOnce_roundOne : @VotesOnce toyCrypto (.uniform 4) {3}
    (fun a => {w | w ∈ @roundOneVotes toyCrypto [0, 1, 2] ∧ w.author = a})
    {v | v ∈ @roundOneVotes toyCrypto [0, 1, 2, 3]} := by
  let _ := toyCrypto
  have hrange : ∀ v ∈ roundOneVotes [0, 1, 2, 3], v.InRange := by
    intro v hv
    obtain ⟨a, -, rfl⟩ := List.mem_map.1 hv
    exact ⟨show 1 < 256 ^ 8 by decide, show 1 < 256 ^ 8 by decide⟩
  have hsub : ∀ v ∈ roundOneVotes [0, 1, 2], v ∈ roundOneVotes [0, 1, 2, 3] := by
    intro v hv
    exact List.map_subset _ (by decide) hv
  refine ⟨by decide, hrange, fun a _ w hw => hrange w (hsub w hw.1), ?_, ?_⟩
  · rintro a - w ⟨hw, -⟩ w' ⟨hw', -⟩ - -
    obtain ⟨b, -, rfl⟩ := List.mem_map.1 hw
    obtain ⟨b', -, rfl⟩ := List.mem_map.1 hw'
    rfl
  · intro v hv hB _
    obtain ⟨a, ha, rfl⟩ := List.mem_map.1 hv
    have hvoter : ∀ a ∈ ([0, 1, 2, 3] : List PublicKey), a ≠ 3 →
        a ∈ ([0, 1, 2] : List PublicKey) := by decide
    refine ⟨_, ⟨List.mem_map_of_mem (hvoter a ha fun h => hB ?_), rfl⟩, rfl⟩
    exact Finset.mem_singleton.2 h

omit [Crypto] in
/-- Two certificates of one block by different quorums pass, and two later blocks with their QCs. -/
theorem certified_unique_roundOne : letI := toyCrypto
    ((roundOneCertificate [0, 1, 2]).verify (.uniform 4) .shortfin = .ok () ∧
      (roundOneCertificate [1, 2, 3]).verify (.uniform 4) .shortfin = .ok () ∧
      (roundTwoBlock [0, 1, 2]).verify (.uniform 4) .shortfin = .ok () ∧
      (roundTwoBlock [1, 2, 3]).verify (.uniform 4) .shortfin = .ok () ∧
      (roundTwoBlock [0, 1, 2]).id ≠ (roundTwoBlock [1, 2, 3]).id) ∧
    (roundOneCertificate [0, 1, 2]).Unique (.uniform 4) .shortfin (roundOneCertificate [1, 2, 3]) ∧
      (roundTwoBlock [0, 1, 2]).QcUnique (.uniform 4) .shortfin (roundTwoBlock [1, 2, 3]) := by
  let _ := toyCrypto
  refine ⟨by decide +kernel, ?_⟩
  have hV : ∀ voters ⊆ ([0, 1, 2, 3] : List PublicKey), ∀ v ∈ roundOneVotes voters,
      v ∈ {v | v ∈ roundOneVotes [0, 1, 2, 3]} :=
    fun voters hsub v hv => List.map_subset _ hsub hv
  have hqc : ∀ voters ⊆ ([0, 1, 2, 3] : List PublicKey), ∀ qc ∈ (roundTwoBlock voters).qc,
      ∀ v ∈ qc.votes, v ∈ {v | v ∈ roundOneVotes [0, 1, 2, 3]} := by
    intro voters hsub qc hqc
    obtain rfl := Option.some.inj hqc
    exact hV voters hsub
  have hleft : [0, 1, 2] ⊆ ([0, 1, 2, 3] : List PublicKey) := by decide
  have hright : [1, 2, 3] ⊆ ([0, 1, 2, 3] : List PublicKey) := by decide
  exact (certified_unique_iff votesOnce_roundOne (hV _ hleft) (hV _ hright) (hqc _ hleft)
    (hqc _ hright)).2 ⟨fun hc => absurd hc.key.2.1 one_ne_zero,
      fun hc => absurd hc.key.2.1 one_ne_zero⟩

end RoundOne

end NovelDag
