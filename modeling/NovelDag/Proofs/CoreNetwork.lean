import NovelDag.Proofs.CoreVotes
import NovelDag.Proofs.CertifiedUnique

/-!
# A network of cores

Some authorities run the core, the others do anything. What a core signs a vote for it has stored, with
its batches, so that a certified block is available; and it signs one vote for a round and author, so
that the block is the only certified one of its author and round.
-/

namespace NovelDag

open Handler Fallible

/-- The headers differ at most in their signatures. -/
structure Header.SameBlock (h h' : Header) : Prop extends h.SameBody h' where
  author : h.author = h'.author
  round : h.round = h'.round

namespace CoreConfig

variable [Crypto] {c : CoreConfig} {g : Given} {x y : Moment} {s : Core}

/-! ## What a core has stored -/

section Store

variable {K : Header → Prop}

/-- The id of the header is its digest, or the zero id of a genesis header. -/
def Hashed (h : Header) : Prop := h.digest = h.id ∨ h.id = 0

/-- What comes back from a waiter, or from the proposer, has been hashed. -/
def Returned : Input → Prop
  | .headerWaiter h | .proposer h => Hashed h
  | .certificateWaiter x => Hashed x.header
  | _ => True

/-- A header is stored under its id, a certificate under its digest. -/
def StoredAt (K : Header → Prop) (d : Digest) : StoreValue → Prop
  | .header h => h.id = d ∧ K h
  | .certificate x => x.digest = d ∧ K x.header

/-- The vote is for a header that is stored, whose batches the node has. -/
def Attests (c : CoreConfig) (K : Header → Prop) (s : Core) (v : Vote) : Prop :=
  ∃ h : Header, K h ∧ h.id = v.id ∧ h.round = v.round ∧ h.author = v.origin ∧
    (s.store.lookup h.id).isSome ∧ c.Paid s h

structure Attested (c : CoreConfig) (K : Header → Prop) (s : Core) : Prop extends Knows K s where
  keyed : ∀ d value, s.store.lookup d = some value → StoredAt K d value
  voted : ∀ v ∈ s.signedVotes, v.author = c.name ∧ Attests c K s v

structure AttestedAt (c : CoreConfig) (K : Header → Prop) (x : Moment) : Prop
    extends Attested c K x.core, KnowsAt K x

theorem storedAt_insert {m : FinMap Digest StoreValue} {k : Digest} {value : StoreValue}
    (hm : ∀ d value, m.lookup d = some value → StoredAt K d value) (hv : StoredAt K k value)
    (d : Digest) (value' : StoreValue) (h : (m.insert k value).lookup d = some value') :
    StoredAt K d value' := by
  rw [FinMap.lookup_insert_ite] at h
  split at h
  · next hd =>
    rw [hd, ← Option.some.inj h]
    exact hv
  · exact hm d value' h

omit [Crypto] in
theorem Attests.grows {v : Vote} (h : Grows c x y) (ha : Attests c K x.core v) :
    Attests c K y.core v := by
  obtain ⟨k, hk, hid, hround, horigin, hs, hp⟩ := ha
  exact ⟨k, hk, hid, hround, horigin, h.stored _ hs,
    hp.imp_right fun hb b hm => h.batches (hb b hm)⟩

theorem Prim.attested (hgenesis : ∀ p ∈ c.genesis, K p.header)
    (hgiven : ∀ h, g.call.Gives h → K h) (h : c.Prim g x y) (a : AttestedAt c K x) :
    AttestedAt c K y := by
  have k := h.knows hgenesis hgiven a.toKnowsAt
  have handled : ∀ {h : Header}, g.Handles x.core h → K h := fun hh =>
    hh.elim (hgiven _) fun ho => a.own _ _ ho
  have certified : ∀ {certificate : Certificate}, g.Certifies x certificate →
      K certificate.header := fun hc =>
    hc.elim (fun hc => hgiven _ (by rw [hc]; rfl)) (a.assembled _)
  have hvoted : y.core.signedVotes = x.core.signedVotes → ∀ v ∈ y.core.signedVotes,
      v.author = c.name ∧ Attests c K y.core v := fun he v hv => by
    rw [he] at hv
    exact (a.voted v hv).imp_right (Attests.grows h.grows)
  have hgrows := h.grows
  cases h with
  | frame h =>
    obtain ⟨_, _, _, _, _, rfl⟩ := h.eq
    exact { k, a with voted := hvoted rfl }
  | embeddedQc | certificateQc =>
    obtain ⟨_, he, _⟩ := recordShortfinQc_eq x.core _ _
    rw [he] at k hvoted ⊢
    exact { k, a with voted := hvoted rfl }
  | bubble _ hh | admitted _ hh | storeHeader hh =>
    exact { k with keyed := storedAt_insert a.keyed ⟨rfl, handled hh⟩, voted := hvoted rfl }
  | vote hh hv hn hs hb =>
    refine { k, a with voted := fun v hv => ?_ }
    rcases List.mem_append.1 hv with hv | hv
    · exact (a.voted v hv).imp_right (Attests.grows hgrows)
    · rw [List.mem_singleton.1 hv]
      exact ⟨rfl, _, hh.elim handled (a.targets _), rfl, rfl, rfl, hs, hb⟩
  | record hs he =>
    obtain ⟨_, -, hnamed, -⟩ := he
    rw [recordCertificate_eq] at k hvoted ⊢
    exact { k with
      keyed := storedAt_insert a.keyed ⟨rfl, a.named _ _ hnamed⟩, voted := hvoted rfl }
  | recordBlock _ hc =>
    rw [recordCertificate_eq] at k hvoted ⊢
    exact { k with keyed := storedAt_insert a.keyed ⟨rfl, certified hc⟩, voted := hvoted rfl }
  | @deliver certificate _ hc =>
    obtain ⟨_, _, _, he⟩ := appendBlock_eq (c := c) certificate (x.core.storeCertificate certificate)
    rw [he] at k hvoted ⊢
    exact { k with keyed := storedAt_insert a.keyed ⟨rfl, certified hc⟩, voted := hvoted rfl }
  | @weakRef certificate =>
    obtain ⟨_, he⟩ := recordMahiWeakRef_eq x.core certificate
    rw [he] at k hvoted ⊢
    exact { k, a with voted := hvoted rfl }
  | @qcSignal certificate =>
    obtain ⟨_, _, he⟩ := sendQcSignal_eq certificate x.core
    rw [he] at k hvoted ⊢
    exact { k, a with voted := hvoted rfl }
  | _ => exact { k, a with voted := hvoted rfl }

theorem Steps.attested (hgenesis : ∀ p ∈ c.genesis, K p.header)
    (hgiven : ∀ h, g.call.Gives h → K h) (h : c.Steps g x y) (a : AttestedAt c K x) :
    AttestedAt c K y := by
  induction h with
  | refl => exact a
  | tail _ hp ih => exact hp.attested hgenesis hgiven ih

theorem Attested.receive {i : Input} (hi : ∀ h, i = .proposer h → K h) (a : Attested c K s) :
    Attested c K (c.receive s i) := by
  cases i with
  | proposer h => exact { a with own := forall_insert a.own (hi h rfl) }
  | _ => exact { a with }

theorem Attested.cleanupStep (a : Attested c K s) : Attested c K (c.cleanupStep s) := by
  have k := a.toKnows.cleanupStep (c := c)
  unfold CoreConfig.cleanupStep at k ⊢
  split_ifs at k ⊢
  · exact { k, a with }
  · exact a

/-- What the core is handed to process has been hashed: a message was verified. -/
theorem hashed_of_passes {i : Input} (hp : c.Passes s i) (hi : Returned i) {h : Header}
    (hb : i.Brings h) : Hashed h := by
  cases i with
  | message m =>
    cases m with
    | header h' =>
      obtain rfl : h = h' := hb
      obtain ⟨-, hp⟩ := check_bind_eq_ok.1 hp
      obtain ⟨-, hp⟩ := check_bind_eq_ok.1 hp
      exact .inl (Header.verify_eq_ok.1 hp).id_eq
    | certificate x' =>
      obtain rfl : h = x'.header := hb
      obtain ⟨-, hp⟩ := check_bind_eq_ok.1 hp
      rcases Certificate.verify_eq_ok.1 hp with hg | hf
      · exact .inr hg.1
      · exact .inl (Certificate.verifyFull_eq_ok.1 hf).1.id_eq
    | _ => exact hb.elim
  | headerWaiter h' | proposer h' =>
    obtain rfl : h = h' := hb
    exact hi
  | certificateWaiter x' =>
    obtain rfl : h = x'.header := hb
    exact hi
  | consensusRound r => exact hb.elim

/-- Every vote the core signs is for a header it was given and has stored, and it has the batches of
the header unless the header is its own. -/
theorem attested_run {inputs : List Input} {met : Header → Prop}
    (hmet : ∀ h, c.Met inputs h → met h) (hreturned : ∀ i ∈ inputs, Returned i) :
    Attested c (fun h => met h ∧ Hashed h) (c.run inputs).2 := by
  have hgenesis : ∀ p ∈ c.genesis, met p.header ∧ Hashed p.header := fun p hp => by
    refine ⟨hmet _ (.inr ⟨p, hp, rfl⟩), .inr ?_⟩
    obtain ⟨_, -, rfl⟩ := List.mem_map.1 hp
    rfl
  have hbrings : ∀ i ∈ inputs, ∀ h, i.Brings h → met h := fun i hi h hb => hmet h (.inl ⟨i, hi, hb⟩)
  have hthroughout : c.Throughout (fun _ i => i ∈ inputs) inputs := fun before i after s he _ => by
    simp [he]
  have hkept : c.Kept (fun _ i => i ∈ inputs) (Attested c fun h => met h ∧ Hashed h) :=
    { steps := fun hi _ _ hk hp h a =>
        (Steps.attested hgenesis (fun h hg => ⟨hbrings _ hi h (Input.brings_of_calls hk hg),
          hashed_of_passes hp (hreturned _ hi) (Input.brings_of_calls hk hg)⟩) h
          { a with assembled := by simp, targets := by simp }).toAttested
      pend := fun _ a => { a with }
      send := fun _ _ a => { a with }
      receive := fun hi a => a.receive fun h he => by
        subst he
        exact ⟨hbrings _ hi h rfl, hreturned _ hi⟩
      cleanup := fun a => a.cleanupStep
      clock := fun _ a => { a with } }
  exact hkept.run { knows_init hgenesis with keyed := by simp [init], voted := by simp [init] }
    hthroughout

end Store

/-! ## Networks -/

section Network

/-- Each authority outside `B` runs the core on some inputs. A signature of its key that verifies over
a vote in circulation was made on the message of a vote its core signed. -/
structure Network (committee : Committee) (B : Finset PublicKey) (node : PublicKey → CoreConfig)
    (inputs : PublicKey → List Input) (V : Set Vote) : Prop where
  named : ∀ a ∉ B, (node a).name = a
  byzantine : Weighted.weight committee.stake B ≤ committee.totalVotes - committee.quorumThreshold
  inRange : ∀ v ∈ V, v.InRange
  signedInRange : ∀ a ∉ B, ∀ w ∈ ((node a).run (inputs a)).2.signedVotes, w.InRange
  unforged : ∀ v ∈ V, v.author ∉ B → Crypto.verifies v.signature v.digest v.author = true →
    ∃ w ∈ ((node v.author).run (inputs v.author)).2.signedVotes, w.message = v.message

variable {committee : Committee} {B : Finset PublicKey} {node : PublicKey → CoreConfig}
  {inputs : PublicKey → List Input} {V : Set Vote} {p : DagProtocol}
  {certificate certificate' : Certificate}

/-- The inputs of a node come in time, and in Shortfin an id is of one round. -/
structure Steady (c : CoreConfig) (inputs : List Input) : Prop where
  bind : c.dagProtocol = .shortfin → OneRound (c.Met inputs)
  timely : c.Throughout Timely inputs

theorem Network.votesOnce (n : Network committee B node inputs V)
    (hs : ∀ a ∉ B, Steady (node a) (inputs a)) :
    VotesOnce committee B (fun a => {v | v ∈ ((node a).run (inputs a)).2.signedVotes}) V where
  byzantine := n.byzantine
  inRange := n.inRange
  signedInRange := n.signedInRange
  once a ha w hw w' hw' ho hr :=
    (counted_run (hs a ha).bind (hs a ha).timely).once w hw w' hw' hr ho
  unforged := n.unforged

/-- A certificate that verifies and has votes has those of a quorum, unless it is of round zero. -/
theorem carriesQuorum_of_verify (hv : certificate.verify committee p = .ok ())
    (hvotes : certificate.votes ≠ []) (hround : certificate.round ≠ 0) :
    certificate.CarriesQuorum committee :=
  ((Certificate.verify_votes hv hvotes).resolve_left fun hg => hround hg.2.1).2

/-- In a network of cores two certificates with votes of one author and round are for one header. -/
theorem Network.certified_once (n : Network committee B node inputs V)
    (hs : ∀ a ∉ B, Steady (node a) (inputs a)) (hV : ∀ v ∈ certificate.votes, v ∈ V)
    (hV' : ∀ v ∈ certificate'.votes, v ∈ V) (hv : certificate.verify committee p = .ok ())
    (hv' : certificate'.verify committee p = .ok ()) (hvotes : certificate.votes ≠ [])
    (hvotes' : certificate'.votes ≠ []) (horigin : certificate.origin = certificate'.origin)
    (hround : certificate.round = certificate'.round) (hpos : certificate.round ≠ 0) :
    certificate.header.id = certificate'.header.id := by
  have hq := carriesQuorum_of_verify hv hvotes hpos
  have hq' := carriesQuorum_of_verify hv' hvotes' (hround ▸ hpos)
  refine hq.2.id_unique (n.votesOnce hs) hV hV' hq'.2 hq.1 fun v hm => ?_
  rw [hround, horigin]
  exact hq'.1 v hm

/-- No other block, and no certificate, of those that are met has the digest of the header, and this
is not zero. -/
structure Binds (met : Header → Prop) (h : Header) : Prop where
  block : ∀ h', met h' → h'.digest = h.digest → h'.SameBlock h
  apart : ∀ x : Certificate, met x.header → x.digest ≠ h.digest
  nonzero : h.digest ≠ 0

theorem Binds.sameBlock {met : Header → Prop} {h h' : Header} (b : Binds met h)
    (hid : h.digest = h.id) (hmet : met h' ∧ Hashed h') (he : h'.id = h.id) : h'.SameBlock h := by
  have hsum : h'.id = h.digest := he.trans hid.symm
  refine b.block h' hmet.1 (hmet.2.elim (fun hd => hd.trans hsum) fun hzero => ?_)
  exact absurd (hsum.symm.trans hzero) b.nonzero

/-- What a node has stored under the id of the header is the header. -/
theorem Binds.stored {met : Header → Prop} {h : Header} (b : Binds met h) (hid : h.digest = h.id)
    {value : StoreValue} (hv : StoredAt (fun h => met h ∧ Hashed h) h.id value) :
    ∃ h', value = .header h' ∧ h'.SameBlock h := by
  cases value with
  | header h' => exact ⟨h', rfl, b.sameBlock hid hv.2 hv.1⟩
  | certificate x => exact absurd (hv.1.trans hid.symm) (b.apart x hv.2.1)

/-- A certified block is available: nodes outside `B`, which with `B` make a quorum, have its header
stored under its id, and each has its batches unless it is their own. -/
theorem Network.certified_available (n : Network committee B node inputs V)
    (hreturned : ∀ a ∉ B, ∀ i ∈ inputs a, Returned i)
    (hbinds : Binds (fun h => ∃ a ∉ B, (node a).Met (inputs a) h) certificate.header)
    (hV : ∀ v ∈ certificate.votes, v ∈ V) (hv : certificate.verify committee p = .ok ())
    (hvotes : certificate.votes ≠ []) (hpos : certificate.round ≠ 0) :
    ∃ S : Finset PublicKey, Disjoint S B ∧ committee.quorumThreshold ≤
        Weighted.weight committee.stake S + Weighted.weight committee.stake B ∧
      ∀ a ∈ S, (∃ h : Header, h.SameBlock certificate.header ∧
          ((node a).run (inputs a)).2.store.lookup certificate.header.id = some (.header h)) ∧
        (certificate.origin = a ∨ ∀ batch ∈ certificate.header.payload.toList,
          batch ∈ ((node a).run (inputs a)).2.batches) := by
  obtain ⟨hverified, hon, hq⟩ :=
    (Certificate.verify_votes hv hvotes).resolve_left fun hg => hpos hg.2.1
  refine ⟨(certificate.votes.map Vote.author).toFinset \ B, Finset.sdiff_disjoint, ?_, fun a ha => ?_⟩
  · exact hq.weight_le.trans (Weighted.weight_le_sdiff_add committee.stake _ B)
  · obtain ⟨ha, hB⟩ := Finset.mem_sdiff.1 ha
    obtain ⟨v, hm, rfl⟩ := List.mem_map.1 (List.mem_toFinset.1 ha)
    obtain ⟨w, hw, hmsg⟩ := n.unforged v (hV v hm) hB (hq.valid v hm)
    obtain ⟨hid, -, -⟩ := Vote.message_binds (n.signedInRange _ hB w hw)
      (n.inRange v (hV v hm)) hmsg
    obtain ⟨hid', -, -⟩ := hon v hm
    have hmet : ∀ h, (node v.author).Met (inputs v.author) h →
        ∃ a ∉ B, (node a).Met (inputs a) h := fun h hmet => ⟨_, hB, hmet⟩
    have hattested := attested_run hmet (hreturned v.author hB)
    obtain ⟨h, hk, hh, -, -, hstored, hpaid⟩ := (hattested.voted w hw).2
    have hid : h.id = certificate.header.id := hh.trans (hid.trans hid')
    have hsame := hbinds.sameBlock hverified.id_eq hk hid
    obtain ⟨value, hvalue⟩ := Option.isSome_iff_exists.1 hstored
    rw [hid] at hvalue
    constructor
    · obtain ⟨k, rfl, hsame'⟩ := hbinds.stored hverified.id_eq (hattested.keyed _ _ hvalue)
      exact ⟨k, hsame', hvalue⟩
    · rw [Paid, n.named _ hB, hsame.author, hsame.payload] at hpaid
      exact hpaid

/-! ### Four nodes -/

omit [Crypto] in
/-- A Narwhal node of four, under its name, whose worker has a batch. -/
def nodeNamed (a : PublicKey) : CoreConfig :=
  { nodeOfFour .narwhal with name := a, payloads := fun _ => {(7, 0)} }

/-- The header of node 1, with that batch. -/
def blockOfFour : Header := headerOfFour 1 (SortedMap.ofList [(7, 0)])

/-- Nodes 0 and 2 are given the header. -/
def inputsOfNode (a : PublicKey) : List Input :=
  if a ∈ ([0, 2] : List PublicKey) then [.message (.header blockOfFour)] else []

/-- The certificate of the header, with a vote of node 3 as well. -/
def certificateOfFour : Certificate where
  header := blockOfFour
  votes := [0, 2, 3].map (Vote.new blockOfFour 1)

/-- What two of four nodes sign makes a network in which the last one does anything. -/
theorem network_of_signed (hsigned : ∀ a ∈ ([0, 2] : List PublicKey),
    ((nodeNamed a).run [.message (.header blockOfFour)]).2.signedVotes =
      [Vote.new blockOfFour 1 a]) :
    Network (.uniform 4) {3} nodeNamed inputsOfNode
      {v | v ∈ certificateOfFour.votes} where
  named _ _ := rfl
  byzantine := by decide
  inRange v hv := by
    obtain ⟨a, -, rfl⟩ := List.mem_map.1 hv
    exact ⟨by norm_num [Vote.new, blockOfFour, headerOfFour], by norm_num [Vote.new]⟩
  signedInRange a _ w hw := by
    unfold inputsOfNode at hw
    split at hw
    · next ha =>
      rw [hsigned a ha, List.mem_singleton] at hw
      rw [hw]
      exact ⟨by norm_num [Vote.new, blockOfFour, headerOfFour], by norm_num [Vote.new]⟩
    · cases hw
  unforged v hv hB _ := by
    obtain ⟨a, ha, rfl⟩ := List.mem_map.1 hv
    have hB : a ≠ 3 := by simpa [Vote.new] using hB
    have ha : a ∈ ([0, 2] : List PublicKey) := by
      simp only [List.mem_cons, List.not_mem_nil, or_false] at ha ⊢
      exact ha.imp_right fun h => h.resolve_right hB
    refine ⟨Vote.new blockOfFour 1 a, ?_, rfl⟩
    change _ ∈ (CoreConfig.run _ (inputsOfNode a)).2.signedVotes
    rw [inputsOfNode, if_pos ha]
    exact (hsigned a ha).symm ▸ List.mem_singleton_self _

theorem input_of_inputsOfNode {a : PublicKey} {i : Input} (hi : i ∈ inputsOfNode a) :
    i = .message (.header blockOfFour) := by
  unfold inputsOfNode at hi
  split at hi
  · exact List.mem_singleton.1 hi
  · cases hi

theorem steady_inputsOfNode (a : PublicKey) :
    Steady (nodeNamed a) (inputsOfNode a) where
  bind hp := absurd hp (by simp [nodeNamed, nodeOfFour])
  timely before i after s he _ := by
    rw [input_of_inputsOfNode (show i ∈ inputsOfNode a by simp [he])]
    trivial

/-- A node of four meets the header and those of the genesis certificates. -/
theorem met_inputsOfNode {a : PublicKey} {h : Header} (hm : (nodeNamed a).Met (inputsOfNode a) h) :
    h ∈ blockOfFour :: (Certificate.genesis (.uniform 4)).map Certificate.header := by
  rcases hm with ⟨i, hi, hb⟩ | ⟨p, hp, rfl⟩
  · rw [input_of_inputsOfNode hi] at hb
    exact List.mem_cons.2 (.inl hb)
  · exact List.mem_cons_of_mem _ (List.mem_map_of_mem hp)

/-- Certificates are hashed by what is in their headers. -/
theorem binds_inputsOfNode (hheaders : ∀ h ∈ (Certificate.genesis (.uniform 4)).map Certificate.header,
      h.digest ≠ blockOfFour.digest)
    (hcertificates : ∀ h ∈ blockOfFour :: (Certificate.genesis (.uniform 4)).map Certificate.header,
      (Certificate.digest { header := h, votes := [] }) ≠ blockOfFour.digest)
    (hzero : blockOfFour.digest ≠ 0) :
    Binds (fun h => ∃ a ∉ ({3} : Finset PublicKey), (nodeNamed a).Met (inputsOfNode a) h)
      blockOfFour where
  block h hm he := by
    obtain ⟨a, -, hm⟩ := hm
    rcases List.mem_cons.1 (met_inputsOfNode hm) with rfl | hg
    · exact ⟨⟨rfl, rfl, rfl, rfl, rfl, rfl, rfl, rfl, rfl⟩, rfl, rfl⟩
    · exact absurd he (hheaders h hg)
  apart x hm := by
    obtain ⟨a, -, hm⟩ := hm
    exact hcertificates x.header (met_inputsOfNode hm)
  nonzero := hzero

end Network

/-- The votes in another order. -/
def reversedOfFour : Certificate :=
  { certificateOfFour with votes := certificateOfFour.votes.reverse }

omit [Crypto] in
theorem networkOfFour : letI := toyCrypto
    Network (.uniform 4) {3} nodeNamed inputsOfNode {v | v ∈ certificateOfFour.votes} ∧
      certificateOfFour.verify (.uniform 4) .narwhal = .ok () ∧
      reversedOfFour.verify (.uniform 4) .narwhal = .ok () := by
  have hfacts : letI := toyCrypto
      (∀ a ∈ ([0, 2] : List PublicKey), ((nodeNamed a).run
        [.message (.header blockOfFour)]).2.signedVotes = [Vote.new blockOfFour 1 a]) ∧
      certificateOfFour.verify (.uniform 4) .narwhal = .ok () ∧
      reversedOfFour.verify (.uniform 4) .narwhal = .ok () := by decide +kernel
  exact ⟨@network_of_signed toyCrypto hfacts.1, hfacts.2⟩

omit [Crypto] in
theorem certified_once_four :
    (@certificateOfFour toyCrypto).header.id = (@reversedOfFour toyCrypto).header.id := by
  obtain ⟨hnetwork, hv, hv'⟩ := networkOfFour
  exact @Network.certified_once toyCrypto _ _ _ _ _ _ _ _ hnetwork
    (fun a _ => @steady_inputsOfNode toyCrypto a) (fun _ hm => hm)
    (fun _ hm => List.mem_reverse.1 hm) hv hv' (List.cons_ne_nil _ _)
    (by simp [reversedOfFour, certificateOfFour]) rfl rfl one_ne_zero

omit [Crypto] in
/-- Node 3 may do anything, and two of the others have the block. -/
theorem certified_available_four : letI := toyCrypto
    ∃ S : Finset PublicKey, Disjoint S {3} ∧
      3 ≤ Weighted.weight (Committee.uniform 4).stake S +
        Weighted.weight (Committee.uniform 4).stake {3} ∧
      ∀ a ∈ S, (∃ h : Header, h.SameBlock blockOfFour ∧
          ((nodeNamed a).run (inputsOfNode a)).2.store.lookup blockOfFour.id = some (.header h)) ∧
        (1 = a ∨ ∀ batch ∈ ([(7, 0)] : List (Digest × ℕ)),
          batch ∈ ((nodeNamed a).run (inputsOfNode a)).2.batches) := by
  have hdigests : letI := toyCrypto
      (∀ h ∈ (Certificate.genesis (.uniform 4)).map Certificate.header,
        h.digest ≠ blockOfFour.digest) ∧
      (∀ h ∈ blockOfFour :: (Certificate.genesis (.uniform 4)).map Certificate.header,
        (Certificate.digest { header := h, votes := [] }) ≠ blockOfFour.digest) ∧
      blockOfFour.digest ≠ 0 := by decide +kernel
  exact @Network.certified_available toyCrypto _ _ _ _ _ _ _ networkOfFour.1
    (fun a _ i hi => @input_of_inputsOfNode toyCrypto a i hi ▸ trivial)
    (@binds_inputsOfNode toyCrypto hdigests.1 hdigests.2.1 hdigests.2.2) (fun _ hm => hm)
    networkOfFour.2.1 (List.cons_ne_nil _ _) one_ne_zero

end CoreConfig

end NovelDag
