import NovelDag.WahooNode
import NovelDag.Proofs.Aggregators
import NovelDag.Proofs.WahooVotes

/-!
# Proofs of delivery

A receiver accepts a proof of delivery by its heads: enough of the committee signed the digest, or
a TF vote, or a TS2 vote on it, each whichever. What delivers a block elsewhere keeps these apart
and weighs stake: a TS2 certificate has a quorum, a TF certificate everybody's stake, and the ready
shares are awaited from everybody. So a proof that has the heads may be none of the three.
-/

namespace NovelDag.Wahoo

open Fallible

/-- What an authority may have signed for the delivery of a block. -/
inductive Share
  | ready
  | tf
  | ts2
  deriving DecidableEq

/-- The phase of a share that is a vote. -/
def Share.phase : Share → Option WahooVotePhase
  | .ready => none
  | .tf => some .tf
  | .ts2 => some .ts2

namespace WahooDone

variable (d : WahooDone)

/-- An entry with its bytes read as a signature. -/
def parse (e : PublicKey × List UInt8) : Option (PublicKey × Signature) :=
  (Signature.fromBytes e.2).map fun sig => (e.1, sig)

/-- The shares whose bytes are a signature. -/
def parsed : List (PublicKey × Signature) := d.done.filterMap parse

/-- A share as the vote of a phase for the block of the proof. -/
def voteOf (phase : WahooVotePhase) (s : PublicKey × Signature) : Vote :=
  { id := d.hash, round := d.round, voterRound := d.round, origin := d.blockSender
    author := s.1, wahooPhase := some phase, signature := s.2 }

variable [Crypto]

/-- What an authority signs for a share of the kind. -/
def message (share : Share) (author : PublicKey) : Digest :=
  share.phase.elim d.hash fun phase => (d.voteOf phase (author, default)).digest

/-- The entry verifies as a share of the kind. -/
def shows (share : Share) (e : PublicKey × List UInt8) : Bool :=
  (Signature.fromBytes e.2).any fun sig => Crypto.verifies sig (d.message share e.1) e.1

/-- The authorities with a share of the kind. -/
def signers (share : Share) : List PublicKey := (d.done.filter (d.shows share)).map Prod.fst

/-- The authorities whose entry is no share of the kind. -/
def others (share : Share) : List PublicKey :=
  (d.done.filter fun e => !d.shows share e).map Prod.fst

variable (committee : Committee)

/-- The members without an entry. -/
def absent : Finset PublicKey := committee.members \ (d.done.map Prod.fst).toFinset

/-- The votes of a certificate with these shares pass what `verify_wahoo_certificate` asks of the
votes of its phase. -/
def Certifies (phase : WahooVotePhase) (shares : List (PublicKey × Signature)) : Prop :=
  let votes := shares.map (d.voteOf phase)
  let cert : Certificate :=
    { header := { id := d.hash, round := d.round, author := d.blockSender }, votes }
  ∃ weight, countVotes committee (checkWahooVote cert phase) votes [] 0 = .ok weight ∧
    (votes.head?.all fun v =>
      verifyBatch v.digest (votes.map fun v => (v.author, v.signature))) = true ∧
    phaseThreshold committee phase ≤ weight

/-- The proof has what delivers its block: TS2 votes or TF votes that make a certificate, or the
ready shares of everybody. -/
def Delivers : Prop :=
  (∃ shares ⊆ d.parsed, d.Certifies committee .ts2 shares) ∨
    (∃ shares ⊆ d.parsed, d.Certifies committee .tf shares) ∨
      committee.totalVotes ≤ committee.stakeOf (d.signers .ready)

/-- The signature of a member on a share of the block verifies as one of its kind, and as no other
kind. -/
def KindsApart : Prop := ∀ a ∈ committee.members, ∀ share share' : Share,
  Crypto.verifies (Crypto.sign a (d.message share a)) (d.message share' a) a = true ↔ share' = share

/-- The proof for the block in which each member with stake has signed one share. -/
def ofShares (share : PublicKey → Share) : WahooDone :=
  { d with done := (committee.names.filter fun a => decide (0 < committee.stake a)).map fun a =>
      (a, (Crypto.sign a (d.message (share a) a)).toBytes) }

end WahooDone

/-- The members with stake. -/
def staked (committee : Committee) : Finset PublicKey :=
  committee.members.filter fun a => 0 < committee.stake a

section Shares

variable {committee : Committee} {d : WahooDone}

theorem sum_stake_names : (committee.names.map committee.stake).sum = committee.totalVotes := by
  rw [committee.totalVotes_eq_weight, Committee.members,
    Weighted.sum_map_eq_weight _ committee.names_nodup]

variable [Crypto]

/-- Enough heads: distinct members with stake, each with a share of whichever kind. -/
structure Heads (c : NodeConfig) (d : WahooDone) : Prop where
  doneSender : c.committee.stake d.doneSender ≠ 0
  blockSender : c.committee.stake d.blockSender ≠ 0
  distinct : (d.done.map Prod.fst).Nodup
  member : ∀ e ∈ d.done, 0 < c.committee.stake e.1
  share : ∀ e ∈ d.done, d.shows .ready e ∨ d.shows .tf e ∨ d.shows .ts2 e
  heads : c.quorumNum ≤ d.done.length

/-- Heads that are not enough of one kind. Those without an entry, and those with a TF vote or a
ready share only, weigh more than a quorum leaves; and somebody with stake has no entry, or neither
the TF votes nor the ready shares are everybody's. -/
structure HeadsOnly (c : NodeConfig) (d : WahooDone) : Prop extends Heads c d where
  light : c.committee.totalVotes - c.committee.quorumThreshold <
    Weighted.weight c.committee.stake (d.absent c.committee) +
      ((d.others .ts2).map c.committee.stake).sum
  gap : 0 < Weighted.weight c.committee.stake (d.absent c.committee) ∨
    d.others .tf ≠ [] ∧ d.others .ready ≠ []

theorem verifyDoneProof_iff {c : NodeConfig} : c.verifyDoneProof d = true ↔ Heads c d := by
  unfold NodeConfig.verifyDoneProof
  simp only [Bool.and_eq_true, decide_eq_true_eq, List.all_eq_true, ← Nat.pos_iff_ne_zero,
    Option.any_eq_true, Bool.or_eq_true]
  constructor
  · rintro ⟨⟨⟨hdone, hblock, hnodup⟩, hall⟩, hheads⟩
    refine ⟨hdone.ne', hblock.ne', hnodup, fun e he => (hall e he).1, fun e he => ?_, hheads⟩
    obtain ⟨sig, hsig, hshows⟩ := (hall e he).2
    simp only [WahooDone.shows, hsig, Option.any_some]
    exact hshows
  · intro h
    refine ⟨⟨⟨Nat.pos_of_ne_zero h.doneSender, Nat.pos_of_ne_zero h.blockSender, h.distinct⟩,
      fun e he => ⟨h.member e he, ?_⟩⟩, h.heads⟩
    have hshare := h.share e he
    rcases hsig : Signature.fromBytes e.2 with _ | sig
    · simp [WahooDone.shows, hsig] at hshare
    · simp only [WahooDone.shows, hsig, Option.any_some] at hshare
      exact ⟨sig, rfl, hshare⟩

theorem signers_nodup (h : (d.done.map Prod.fst).Nodup) (share : Share) :
    (d.signers share).Nodup :=
  (List.filter_sublist.map Prod.fst).nodup h

/-- A member has a share of the kind, or an entry of another kind, or no entry. -/
theorem Heads.stakeOf_add {c : NodeConfig} (h : Heads c d) (share : Share) :
    c.committee.stakeOf (d.signers share) + ((d.others share).map c.committee.stake).sum +
      Weighted.weight c.committee.stake (d.absent c.committee) = c.committee.totalVotes := by
  have hentries : c.committee.stakeOf (d.done.map Prod.fst) =
      c.committee.stakeOf (d.signers share) + ((d.others share).map c.committee.stake).sum := by
    rw [stakeOf_nodup h.distinct, stakeOf_nodup (signers_nodup h.distinct share)]
    have hperm := (List.filter_append_perm (d.shows share) d.done).map Prod.fst
    rw [← (hperm.map c.committee.stake).sum_eq, List.map_append, List.map_append, List.sum_append]
    rfl
  have hsub : (d.done.map Prod.fst).toFinset ⊆ c.committee.members := by
    intro a ha
    obtain ⟨e, he, rfl⟩ := List.mem_map.1 (List.mem_toFinset.1 ha)
    exact List.mem_toFinset.2 (c.committee.mem_names_of_stake_pos (h.member e he))
  rw [← hentries, c.committee.totalVotes_eq_weight, Nat.add_comm]
  exact Finset.sum_sdiff hsub

theorem Heads.others_eq_nil {c : NodeConfig} (h : Heads c d) (share : Share) :
    ((d.others share).map c.committee.stake).sum = 0 ↔ d.others share = [] := by
  rw [List.sum_eq_zero_iff]
  constructor
  · intro hall
    refine List.eq_nil_iff_forall_not_mem.2 fun a ha => ?_
    have hzero := hall _ (List.mem_map_of_mem ha)
    obtain ⟨e, he, rfl⟩ := List.mem_map.1 ha
    have hpos := h.member e (List.mem_filter.1 he).1
    omega
  · intro hnil
    simp [hnil]

/-- The votes that one certificate may have are those of its phase, each author's once. -/
theorem certifies_iff {phase : WahooVotePhase} {shares : List (PublicKey × Signature)} :
    d.Certifies committee phase shares ↔ (shares.map Prod.fst).Nodup ∧
      (∀ s ∈ shares, 0 < committee.stake s.1) ∧
      (∀ s ∈ shares, Crypto.verifies s.2 (d.voteOf phase s).digest s.1 = true) ∧
      phaseThreshold committee phase ≤ committee.stakeOf (shares.map Prod.fst) := by
  have hauthors : (shares.map (d.voteOf phase)).map Vote.author = shares.map Prod.fst := by
    simp [WahooDone.voteOf]
  have hstakes : ((shares.map (d.voteOf phase)).map fun v => committee.stake v.author).sum =
      ((shares.map Prod.fst).map committee.stake).sum := by
    simp [WahooDone.voteOf, Function.comp_def]
  have hbatch : ((shares.map (d.voteOf phase)).head?.all fun v => verifyBatch v.digest
      ((shares.map (d.voteOf phase)).map fun v => (v.author, v.signature))) = true ↔
      ∀ s ∈ shares, Crypto.verifies s.2 (d.voteOf phase s).digest s.1 = true := by
    rcases shares with _ | ⟨s, shares⟩
    · simp
    · simp [verifyBatch, WahooDone.voteOf, Vote.digest]
  have hcheck : ∀ cert : Certificate, cert.header.id = d.hash → cert.round = d.round →
      cert.origin = d.blockSender → ∀ v ∈ shares.map (d.voteOf phase),
        checkWahooVote cert phase v = .ok () := by
    intro cert hid hround horigin v hv
    obtain ⟨s, -, rfl⟩ := List.mem_map.1 hv
    simp [checkWahooVote, check_bind_eq_ok, WahooDone.voteOf, hid, hround, horigin]
  unfold WahooDone.Certifies
  simp only [hbatch, countVotes_eq_ok, hauthors]
  constructor
  · rintro ⟨_, ⟨-, hnodup, -, hmember, rfl⟩, hsigned, hweight⟩
    refine ⟨hnodup, fun s hs => hmember _ (List.mem_map_of_mem hs), hsigned, ?_⟩
    rw [Nat.zero_add, hstakes] at hweight
    rwa [stakeOf_nodup hnodup]
  · rintro ⟨hnodup, hmember, hsigned, hweight⟩
    refine ⟨_, ⟨hcheck _ rfl rfl rfl, hnodup, by simp, ?_, rfl⟩, hsigned, ?_⟩
    · intro v hv
      obtain ⟨s, hs, rfl⟩ := List.mem_map.1 hv
      exact hmember s hs
    · rw [Nat.zero_add, hstakes]
      rwa [stakeOf_nodup hnodup] at hweight

/-- An entry that shows a share is a signature, so none is lost. -/
theorem map_fst_parse {share : Share} : ∀ {l : List (PublicKey × List UInt8)},
    (∀ e ∈ l, d.shows share e) → (l.filterMap WahooDone.parse).map Prod.fst = l.map Prod.fst
  | [], _ => rfl
  | e :: l, h => by
    obtain ⟨hshows, hl⟩ := List.forall_mem_cons.1 h
    obtain ⟨sig, hsig, -⟩ := (Option.any_eq_true _ _).1 hshows
    rw [List.filterMap_cons, WahooDone.parse, hsig, Option.map_some, List.map_cons, List.map_cons,
      map_fst_parse hl]

/-- The proof has a certificate of a kind of votes exactly if those with such a vote have the
stake. -/
theorem Heads.exists_certifies_iff {c : NodeConfig} (h : Heads c d) {share : Share}
    {phase : WahooVotePhase} (hphase : share.phase = some phase) :
    (∃ shares ⊆ d.parsed, d.Certifies c.committee phase shares) ↔
      phaseThreshold c.committee phase ≤ c.committee.stakeOf (d.signers share) := by
  have hshows : ∀ {e sig}, Signature.fromBytes e.2 = some sig →
      d.shows share e = Crypto.verifies sig (d.voteOf phase (e.1, sig)).digest e.1 := by
    intro e sig hsig
    rw [WahooDone.shows, hsig, Option.any_some, WahooDone.message, hphase, Option.elim_some]
    rfl
  simp only [certifies_iff]
  constructor
  · rintro ⟨shares, hsub, -, -, hsigned, hweight⟩
    refine hweight.trans (Weighted.weight_mono _ fun a ha => ?_)
    obtain ⟨s, hs, rfl⟩ := List.mem_map.1 (List.mem_toFinset.1 ha)
    obtain ⟨e, he, hparsed⟩ := List.mem_filterMap.1 (hsub hs)
    obtain ⟨sig, hsig, rfl⟩ := Option.map_eq_some_iff.1 hparsed
    exact List.mem_toFinset.2 (List.mem_map.2
      ⟨e, List.mem_filter.2 ⟨he, (hshows hsig).trans (hsigned _ hs)⟩, rfl⟩)
  · intro hweight
    let shares := (d.done.filter (d.shows share)).filterMap WahooDone.parse
    have hmem : ∀ s ∈ shares, ∃ e ∈ d.done, d.shows share e ∧
        Signature.fromBytes e.2 = some s.2 ∧ e.1 = s.1 := by
      intro s hs
      obtain ⟨e, he, hparsed⟩ := List.mem_filterMap.1 hs
      obtain ⟨sig, hsig, rfl⟩ := Option.map_eq_some_iff.1 hparsed
      exact ⟨e, (List.mem_filter.1 he).1, (List.mem_filter.1 he).2, hsig, rfl⟩
    have hfst : shares.map Prod.fst = d.signers share :=
      map_fst_parse fun e he => (List.mem_filter.1 he).2
    refine ⟨shares, fun s hs => ?_, ?_, fun s hs => ?_, fun s hs => ?_, ?_⟩
    · obtain ⟨e, he, -, hsig, hfst⟩ := hmem s hs
      exact List.mem_filterMap.2 ⟨e, he, by rw [WahooDone.parse, hsig, Option.map_some, hfst]⟩
    · rw [hfst]
      exact signers_nodup h.distinct share
    · obtain ⟨e, he, -, -, hfst⟩ := hmem s hs
      rw [← hfst]
      exact h.member e he
    · obtain ⟨e, -, hshow, hsig, hfst⟩ := hmem s hs
      rw [hshows hsig, hfst] at hshow
      exact hshow
    · rwa [hfst]

theorem Heads.delivers_iff {c : NodeConfig} (h : Heads c d) : d.Delivers c.committee ↔
    c.committee.quorumThreshold ≤ c.committee.stakeOf (d.signers .ts2) ∨
      c.committee.totalVotes ≤ c.committee.stakeOf (d.signers .tf) ∨
        c.committee.totalVotes ≤ c.committee.stakeOf (d.signers .ready) := by
  have hts2 : Share.ts2.phase = some .ts2 := rfl
  have htf : Share.tf.phase = some .tf := rfl
  unfold WahooDone.Delivers
  rw [h.exists_certifies_iff hts2, h.exists_certifies_iff htf, phaseThreshold, phaseThreshold,
    sum_stake_names]

omit [Crypto] in
/-- A committee with stake has a quorum. -/
theorem quorumThreshold_le {committee : Committee} {a : PublicKey} (h : committee.stake a ≠ 0) :
    committee.quorumThreshold ≤ committee.totalVotes := by
  have hone := committee.weight_le_totalVotes {a}
  unfold Weighted.weight at hone
  rw [Finset.sum_singleton] at hone
  unfold Committee.quorumThreshold
  omega

theorem delivers_iff_not_headsOnly (c : NodeConfig) (d : WahooDone) :
    (c.verifyDoneProof d = true → d.Delivers c.committee) ↔ ¬ HeadsOnly c d := by
  rw [verifyDoneProof_iff]
  constructor
  · intro hdelivers h
    have hts2 := h.stakeOf_add .ts2
    have htf := h.stakeOf_add .tf
    have hready := h.stakeOf_add .ready
    have hothers := h.others_eq_nil .tf
    have hothers' := h.others_eq_nil .ready
    have hquorum := quorumThreshold_le h.blockSender
    have hlight := h.light
    rcases h.toHeads.delivers_iff.1 (hdelivers h.toHeads) with hd | hd | hd
    · omega
    · rcases h.gap with hgap | ⟨hgap, -⟩
      · omega
      · exact hgap (hothers.1 (by omega))
    · rcases h.gap with hgap | ⟨-, hgap⟩
      · omega
      · exact hgap (hothers'.1 (by omega))
  · intro hno h
    by_contra hdelivers
    rw [h.delivers_iff] at hdelivers
    push Not at hdelivers
    obtain ⟨hts2, htf, hready⟩ := hdelivers
    have hadd := h.stakeOf_add .ts2
    have hadd' := h.stakeOf_add .tf
    have hadd'' := h.stakeOf_add .ready
    have hquorum := quorumThreshold_le h.blockSender
    refine hno ⟨h, by omega, ?_⟩
    by_contra hgap
    push Not at hgap
    obtain ⟨hzero, hone⟩ := hgap
    by_cases htf' : d.others .tf = []
    · have := (h.others_eq_nil .tf).2 htf'
      omega
    · have := (h.others_eq_nil .ready).2 (hone htf')
      omega

/-! ### All proofs for a block -/

omit [Crypto] in
theorem mem_staked {a : PublicKey} : a ∈ staked committee ↔ 0 < committee.stake a := by
  unfold staked
  rw [Finset.mem_filter, and_iff_right_iff_imp]
  exact fun h => List.mem_toFinset.2 (committee.mem_names_of_stake_pos h)

omit [Crypto] in
/-- Everybody with stake is needed for the total. -/
theorem stakeOf_lt {l : List PublicKey} {a : PublicKey} (ha : 0 < committee.stake a) (hl : a ∉ l) :
    committee.stakeOf l < committee.totalVotes := by
  have hle := committee.weight_le_totalVotes (insert a l.toFinset)
  rw [Weighted.weight_insert_of_notMem _ (by simpa using hl)] at hle
  exact (Nat.lt_add_of_pos_left ha).trans_le hle

theorem map_fst_ofShares (committee : Committee) (share : PublicKey → Share) :
    (d.ofShares committee share).done.map Prod.fst =
      committee.names.filter fun a => decide (0 < committee.stake a) := by
  rw [WahooDone.ofShares, List.map_map]
  exact List.map_id _

theorem shows_ofShares (hkinds : d.KindsApart committee) {share : PublicKey → Share} :
    ∀ e ∈ (d.ofShares committee share).done, ∀ share' : Share,
      (d.ofShares committee share).shows share' e = true ↔ share' = share e.1 := by
  intro e he share'
  obtain ⟨a, ha, rfl⟩ := List.mem_map.1 he
  have hmember : a ∈ committee.members := List.mem_toFinset.2 (List.mem_filter.1 ha).1
  rw [WahooDone.shows, Signature.fromBytes_toBytes, Option.any_some]
  exact hkinds a hmember (share a) share'

theorem eq_of_mem_signers (hkinds : d.KindsApart committee) (share : PublicKey → Share)
    {share' : Share} {a : PublicKey} (ha : a ∈ (d.ofShares committee share).signers share') :
    share' = share a := by
  obtain ⟨e, he, rfl⟩ := List.mem_map.1 ha
  exact (shows_ofShares hkinds e (List.mem_filter.1 he).1 share').1 (List.mem_filter.1 he).2

variable {c : NodeConfig}

theorem heads_ofShares (hkinds : d.KindsApart c.committee) (share : PublicKey → Share)
    (hdone : c.committee.stake d.doneSender ≠ 0) (hblock : c.committee.stake d.blockSender ≠ 0)
    (henough : c.quorumNum ≤ (staked c.committee).card) :
    Heads c (d.ofShares c.committee share) where
  doneSender := hdone
  blockSender := hblock
  distinct := by
    rw [map_fst_ofShares]
    exact c.committee.names_nodup.filter _
  member e he := by
    obtain ⟨a, ha, rfl⟩ := List.mem_map.1 he
    exact of_decide_eq_true (List.mem_filter.1 ha).2
  share e he := by
    have hshows := shows_ofShares hkinds e he
    rcases hs : share e.1 with _ | _ | _
    · exact .inl ((hshows .ready).2 hs.symm)
    · exact .inr (.inl ((hshows .tf).2 hs.symm))
    · exact .inr (.inr ((hshows .ts2).2 hs.symm))
  heads := by
    refine henough.trans_eq ?_
    have hset : staked c.committee =
        (c.committee.names.filter fun a => decide (0 < c.committee.stake a)).toFinset := by
      ext a
      simp [staked, Committee.members]
    rw [hset, List.toFinset_card_of_nodup (c.committee.names_nodup.filter _),
      ← map_fst_ofShares (d := d) c.committee share, List.length_map]

/-- Of two authorities with stake one signs a TF vote, and everybody else a ready share: the proof
passes, and no kind has what it takes. -/
theorem not_delivers_ofShares (hkinds : d.KindsApart c.committee)
    (hdone : c.committee.stake d.doneSender ≠ 0) (hblock : c.committee.stake d.blockSender ≠ 0)
    (henough : c.quorumNum ≤ (staked c.committee).card) {a b : PublicKey} (hab : a ≠ b)
    (ha : 0 < c.committee.stake a) (hb : 0 < c.committee.stake b) :
    let mixed := d.ofShares c.committee fun x => if x = a then .tf else .ready
    c.verifyDoneProof mixed = true ∧ ¬ mixed.Delivers c.committee := by
  intro mixed
  have hheads := heads_ofShares hkinds (fun x => if x = a then .tf else .ready) hdone hblock henough
  refine ⟨verifyDoneProof_iff.2 hheads, fun hd => ?_⟩
  have hkind : ∀ {share' x}, x ∈ mixed.signers share' → share' = if x = a then .tf else .ready :=
    eq_of_mem_signers hkinds _
  rcases hheads.delivers_iff.1 hd with h | h | h
  · have hnone : mixed.signers .ts2 = [] := List.eq_nil_iff_forall_not_mem.2 fun x hx => by
      have := hkind hx
      split_ifs at this
    change c.committee.quorumThreshold ≤ c.committee.stakeOf (mixed.signers .ts2) at h
    rw [hnone] at h
    exact absurd h (not_le.2 c.committee.quorumThreshold_pos)
  · refine absurd h (not_le.2 (stakeOf_lt hb fun hx => ?_))
    have := hkind hx
    rw [if_neg hab.symm] at this
    cases this
  · refine absurd h (not_le.2 (stakeOf_lt ha fun hx => ?_))
    have := hkind hx
    rw [if_pos rfl] at this
    cases this

theorem Heads.length_le (h : Heads c d) : d.done.length ≤ (staked c.committee).card := by
  rw [← List.length_map (f := Prod.fst), ← List.toFinset_card_of_nodup h.distinct]
  refine Finset.card_le_card fun a ha => ?_
  obtain ⟨e, he, rfl⟩ := List.mem_map.1 (List.mem_toFinset.1 ha)
  exact mem_staked.2 (h.member e he)

/-- Where one authority has all the stake, its share delivers. -/
theorem Heads.delivers_of_one (h : Heads c d) (hone : (staked c.committee).card ≤ 1) :
    d.Delivers c.committee := by
  have hquorum := quorumThreshold_le h.blockSender
  have hpos : 0 < c.quorumNum := by
    have hmem := c.committee.mem_names_of_stake_pos (Nat.pos_of_ne_zero h.blockSender)
    have hlength := List.length_pos_of_mem hmem
    unfold NodeConfig.quorumNum NodeConfig.nodeNum
    omega
  obtain ⟨e, he⟩ := List.exists_mem_of_length_pos (hpos.trans_le h.heads)
  have htotal : ∀ share, d.shows share e = true →
      c.committee.totalVotes ≤ c.committee.stakeOf (d.signers share) := by
    intro share hshows
    rw [c.committee.totalVotes_eq_weight]
    unfold Committee.stakeOf Weighted.weight
    refine Finset.sum_le_sum_of_ne_zero (f := c.committee.stake) fun a _ hne => ?_
    have ha := mem_staked.2 (Nat.pos_of_ne_zero hne)
    rw [Finset.card_le_one.1 hone a ha e.1 (mem_staked.2 (h.member e he))]
    exact List.mem_toFinset.2 (List.mem_map_of_mem (List.mem_filter.2 ⟨he, hshows⟩))
  rw [h.delivers_iff]
  rcases h.share e he with hs | hs | hs
  · exact .inr (.inr (htotal _ hs))
  · exact .inr (.inl (htotal _ hs))
  · exact .inl (hquorum.trans (htotal _ hs))

theorem all_deliver_iff (hdone : c.committee.stake d.doneSender ≠ 0)
    (hblock : c.committee.stake d.blockSender ≠ 0) (hkinds : d.KindsApart c.committee) :
    (∀ done, c.verifyDoneProof { d with done } = true →
        WahooDone.Delivers { d with done } c.committee) ↔
      (staked c.committee).card ≤ 1 ∨ (staked c.committee).card < c.quorumNum := by
  constructor
  · intro hall
    by_contra hno
    push Not at hno
    obtain ⟨htwo, henough⟩ := hno
    obtain ⟨a, ha, b, hb, hab⟩ := Finset.one_lt_card.1 htwo
    obtain ⟨hverify, hdelivers⟩ := not_delivers_ofShares hkinds hdone hblock henough hab
      (mem_staked.1 ha) (mem_staked.1 hb)
    exact hdelivers (hall _ hverify)
  · rintro (hone | hfew) done hverify
    · exact (verifyDoneProof_iff.1 hverify).delivers_of_one hone
    · have hheads := verifyDoneProof_iff.1 hverify
      have := hheads.heads.trans hheads.length_le
      omega

/-- The check lets through a proof without what delivers its block exactly if the proof is one by
its heads only. Of the proofs for a block whose shares tell their kind it lets through no such one
exactly where one authority has all the stake, or too few have stake for a proof to pass. -/
theorem done_proof_delivers_iff (c : NodeConfig) (d : WahooDone) :
    ((c.verifyDoneProof d = true → d.Delivers c.committee) ↔ ¬ HeadsOnly c d) ∧
      (c.committee.stake d.doneSender ≠ 0 → c.committee.stake d.blockSender ≠ 0 →
        d.KindsApart c.committee →
          ((∀ done, c.verifyDoneProof { d with done } = true →
              WahooDone.Delivers { d with done } c.committee) ↔
            (staked c.committee).card ≤ 1 ∨ (staked c.committee).card < c.quorumNum)) :=
  ⟨delivers_iff_not_headsOnly c d, all_deliver_iff⟩

end Shares

/-- The proof of delivery of a block of round one by the votes of a phase of the first three of
four authorities. -/
def doneOfThree [Crypto] (phase : WahooVotePhase) : WahooDone :=
  let proof : WahooDone := { doneSender := 3, blockSender := 3, done := [], hash := 5, round := 1 }
  { proof with done := ([0, 1, 2] : List PublicKey).map fun author =>
      (author, (Crypto.sign author (proof.voteOf phase (author, default)).digest).toBytes) }

/-- Three of the four TF votes that the fast path awaits are accepted. -/
theorem not_done_proof_delivers : letI := toyCrypto
    fourNodes.verifyDoneProof (doneOfThree .tf) = true ∧
      ¬ (doneOfThree .tf).Delivers fourNodes.committee := by
  let _ := toyCrypto
  have h : fourNodes.verifyDoneProof (doneOfThree .tf) = true := by decide +kernel
  refine ⟨h, fun hdelivers => ?_⟩
  have hstake := (verifyDoneProof_iff.1 h).delivers_iff.1 hdelivers
  revert hstake
  decide +kernel

theorem doneOfThree_kindsApart : letI := toyCrypto
    (doneOfThree .ts2).KindsApart fourNodes.committee := by
  let _ := toyCrypto
  have hall : ∀ a ∈ fourNodes.committee.members, ∀ share ∈ [Share.ready, .tf, .ts2],
      ∀ share' ∈ [Share.ready, .tf, .ts2],
        (Crypto.verifies (Crypto.sign a ((doneOfThree .ts2).message share a))
          ((doneOfThree .ts2).message share' a) a = true ↔ share' = share) := by decide +kernel
  have hmem : ∀ share : Share, share ∈ [Share.ready, .tf, .ts2] := fun share => by
    cases share <;> simp
  exact fun a ha share share' => hall a ha share (hmem _) share' (hmem _)

/-- Three TS2 votes make a quorum, and other proofs for the block make none. -/
theorem done_proof_delivers_iff_three : letI := toyCrypto
    (fourNodes.verifyDoneProof (doneOfThree .ts2) = true ∧
      (doneOfThree .ts2).Delivers fourNodes.committee) ∧
      ¬ ∀ done, fourNodes.verifyDoneProof { doneOfThree .ts2 with done } = true →
        WahooDone.Delivers { doneOfThree .ts2 with done } fourNodes.committee := by
  let _ := toyCrypto
  have h : fourNodes.verifyDoneProof (doneOfThree .ts2) = true ∧
      ¬ fourNodes.committee.totalVotes - fourNodes.committee.quorumThreshold <
        Weighted.weight fourNodes.committee.stake ((doneOfThree .ts2).absent fourNodes.committee) +
          (((doneOfThree .ts2).others .ts2).map fourNodes.committee.stake).sum := by decide +kernel
  have hiff := done_proof_delivers_iff fourNodes (doneOfThree .ts2)
  refine ⟨⟨h.1, hiff.1.2 (fun hd => h.2 hd.light) h.1⟩, fun hall => ?_⟩
  have hfew := (hiff.2 (by decide) (by decide) doneOfThree_kindsApart).1 hall
  revert hfew
  decide +kernel

end NovelDag.Wahoo
