import NovelDag.Core

/-!
# What a call of the core does

A call of the loop changes the state in small steps, `Prim`, each with what the code knows when it
makes it. A `Moment` is the state in the middle of a call, with the records whose delivery has begun,
the certificates assembled so far and the QC targets whose payload has come. Every handler follows
these steps, and where it panics the moments it went through tell why.
-/

namespace NovelDag

open Handler

structure Moment where
  core : Core
  recorded : List Certificate := []
  assembled : List Certificate := []
  targets : List Header := []

def Moment.set (x : Moment) (s : Core) : Moment := { x with core := s }

@[simp] theorem Moment.set_core (x : Moment) (s : Core) : (x.set s).core = s := rfl

/-- What the loop hands to a call, and the state it hands it over in. -/
structure Given where
  start : Core
  call : CoreCall

/-- The header a call is given. -/
def CoreCall.Gives : CoreCall → Header → Prop
  | .header given, h => h = given
  | .certificate given, h => h = given.header
  | .vote _, _ => False

/-- A header of ours that may still get votes. -/
def Core.Own (s : Core) (h : Header) : Prop := s.ownHeaders.lookup h.id = some h

namespace Given

variable (g : Given)

/-- A call handles the header it is given, and headers of ours. -/
def Handles (s : Core) (h : Header) : Prop := g.call.Gives h ∨ s.Own h

/-- A call handles the certificate it is given, and those it has assembled. -/
def Certifies (x : Moment) (certificate : Certificate) : Prop :=
  g.call = .certificate certificate ∨ certificate ∈ x.assembled

/-- A vote from another primary, received now or pending when the call began. -/
def Received (vote : Vote) : Prop :=
  g.call = .vote vote ∨ ∃ id votes, g.start.pendingVotes.lookup id = some votes ∧ vote ∈ votes

end Given

namespace Core

/-- The states differ in what only serves the next queries, and in the batches that have come. -/
structure Frame (s s' : Core) : Prop where
  same : s' = { s with
    iterations := s'.iterations, batches := s'.batches
    historySupportCache := s'.historySupportCache, historyIdCache := s'.historyIdCache
    network := s'.network }
  batches : s.batches ⊆ s'.batches

theorem Frame.eq {s s' : Core} (h : s.Frame s') : ∃ iterations batches supports ids network,
    s' = { s with
      iterations, batches, historySupportCache := supports, historyIdCache := ids, network } :=
  ⟨_, _, _, _, _, h.same⟩

/-- No batches have come. -/
theorem Frame.of_eq {s s' : Core} (h : s' = { s with
    iterations := s'.iterations, historySupportCache := s'.historySupportCache
    historyIdCache := s'.historyIdCache, network := s'.network }) : s.Frame s' := by
  have hb : s'.batches = s.batches := by rw [h]
  refine ⟨?_, hb.ge⟩
  rw [hb]
  exact h

end Core

namespace CoreConfig

variable [Crypto] (c : CoreConfig)

/-- A certificate that is in one of the indexes. -/
def Held (s : Core) (certificate : Certificate) : Prop :=
  certificate ∈ c.genesis ∨ (∃ d, s.certificateCache.lookup d = some certificate) ∨
    ∃ d, s.certificatesByDigest.lookup d = some certificate

/-- The parents of a header that gets a state were there when the call began, or it is ours. -/
def Admits (g : Given) (s : Core) (h : Header) : Prop :=
  s.Own h ∨ ∀ p ∈ h.parents.toList, c.available g.start p

/-- The node has the batches of a header, or the header is its own. -/
def Paid (s : Core) (h : Header) : Prop :=
  h.author = c.name ∨ ∀ batch ∈ h.payload.toList, batch ∈ s.batches

/-- What a record consists of. -/
def Emits (s : Core) (certificate : Certificate) : Prop :=
  ∃ id, (s.shortfinStates.lookup id).isSome ∧ s.headersById.lookup id = some certificate.header ∧
    (certificate.votes = [] ∨ s.shortfinQcs.lookup id = some certificate.votes)

/-- What a signal for the next round carries: the round has a quorum of certificates. -/
structure Signals (s : Core) (parents1 parents2 : List Digest) (qc : Option EmbeddedQc)
    (byAuthority : FinMap PublicKey Certificate) : Prop where
  uncertified : c.dagProtocol.isUncertifiedDag = true
  round : s.certificatesByRound.lookup s.nextRoundToSignal = some byAuthority
  quorate : c.committee.quorumThreshold ≤ c.roundWeight byAuthority
  parents2 : parents2 = []
  covers : c.dagProtocol.isMahiMahi = true →
    qc = none ∧ ∀ a x, byAuthority.lookup a = some x → x.digest ∈ parents1
  own : c.dagProtocol = .shortfin → parents1 = c.latestRefDigests s ∧ ∃ own,
    byAuthority.lookup c.name = some own ∧ own.votes ≠ [] ∧ qc = some (embeddedQc own)

/-- What the aggregator of a certified DAG does with a certificate. -/
def appendBlock (certificate : Certificate) (s : Core) : Core :=
  if c.dagProtocol = .narwhal then c.appendNarwhal certificate s else c.appendBullshark certificate s

/-- One step of a call. -/
inductive Prim (g : Given) : Moment → Moment → Prop
  | frame {x s'} (h : x.core.Frame s') : Prim g x (x.set s')
  | processing {x h} (hh : g.Handles x.core h) : Prim g x (x.set (x.core.markProcessing h))
  | cache {x digest certificate} (hs : x.core.store.lookup digest = some (.certificate certificate))
      (hv : certificate.verify c.committee c.dagProtocol = .ok ()) :
      Prim g x (x.set (x.core.cacheAt digest certificate))
  | waitHeader {x m} (hh : g.Handles x.core m.deliver) :
      Prim g x (x.set (x.core.sendHeaderWaiter m))
  | waitCertificate {x certificate} (hc : g.Certifies x certificate) :
      Prim g x (x.set (x.core.sendCertificateWaiter certificate))
  | index {x certificate} (hc : c.Held x.core certificate) :
      Prim g x (x.set (x.core.indexCertificate certificate))
  | insertHeader {x h} (hh : g.Handles x.core h) : Prim g x (x.set (x.core.insertHeader h))
  | embeddedQc {x h qc} (hh : g.Handles x.core h) (hq : h.qc = some qc) :
      Prim g x (x.set (x.core.recordShortfinQc qc.target qc.votes))
  | certificateQc {x certificate} (hc : g.Certifies x certificate) (hv : certificate.votes ≠ []) :
      Prim g x (x.set (x.core.recordShortfinQc certificate.header.id certificate.votes))
  | available {x h} (hh : g.Handles x.core h)
      (hs : (x.core.shortfinStates.lookup h.id).isSome) :
      Prim g x (x.set (x.core.markShortfinPayloadAvailable h.id))
  | target {x id h} (hp : c.dagProtocol = .shortfin) (hl : x.core.headersById.lookup id = some h)
      (hs : x.core.shortfinStates.lookup id = some .bubble) : Prim g x { x with
        core := x.core.markShortfinPayloadAvailable id, targets := h :: x.targets }
  | bubble {x h} (hp : c.dagProtocol = .shortfin) (hh : g.Handles x.core h)
      (ha : c.Admits g x.core h) (hm : h.author ≠ c.name ∧ h.payload.toList ≠ []) :
      Prim g x (x.set ((x.core.orInsertBubble h.id).storeHeader h))
  | admitted {x h} (hp : c.dagProtocol = .shortfin) (hh : g.Handles x.core h)
      (ha : c.Admits g x.core h) :
      Prim g x (x.set (((x.core.orInsertBubble h.id).markShortfinPayloadAvailable
        h.id).storeHeader h))
  | vote {x h voterRound} (hh : g.Handles x.core h ∨ h ∈ x.targets)
      (hv : x.core.votedHeaders.lookup h.id = none) (hn : x.core.hasVoted h = false)
      (hs : (x.core.store.lookup h.id).isSome) (hb : c.Paid x.core h) :
      Prim g x (x.set ((x.core.recordVote h).signVote (Vote.new h voterRound c.name)))
  | storeHeader {x h} (hh : g.Handles x.core h) : Prim g x (x.set (x.core.storeHeader h))
  | appendVote {x v h} (ho : x.core.ownHeaders.lookup v.id = some h)
      (hv : g.Received v ∨ v ∈ x.core.signedVotes) :
      Prim g x { x with
        core := (x.core.appendVote c.committee v h).2
        assembled := (x.core.appendVote c.committee v h).1.toList ++ x.assembled }
  | takePending {x} : Prim g x (x.set { x.core with pendingVotes := ∅ })
  | keepPending {x id votes} (hv : ∀ v ∈ votes, v.id = id ∧ g.Received v)
      (ho : (x.core.ownHeaders.lookup id).isSome) :
      Prim g x (x.set { x.core with pendingVotes := x.core.pendingVotes.insert id votes })
  | markSent {x id certificated} : Prim g x (x.set (x.core.markSent id certificated))
  | record {x certificate} (hs : c.dagProtocol = .shortfin) (he : Emits x.core certificate) :
      Prim g x { x with
        core := recordCertificate certificate x.core, recorded := certificate :: x.recorded }
  | recordBlock {x certificate} (hp : c.dagProtocol.isMahiMahi) (hc : g.Certifies x certificate)
      (ha : ∀ p ∈ certificate.header.parents.toList, c.available x.core p) :
      Prim g x { x with
        core := recordCertificate certificate x.core, recorded := certificate :: x.recorded }
  | deliver {x certificate} (hp : ¬ c.dagProtocol.isUncertifiedDag)
      (hc : g.Certifies x certificate)
      (ha : ∀ p ∈ certificate.header.parents.toList, c.available x.core p) :
      Prim g x { x with
        core := (c.appendBlock certificate (x.core.storeCertificate certificate)).sendConsensus
          certificate
        recorded := certificate :: x.recorded }
  | weakRef {x certificate} (hr : certificate ∈ x.recorded) :
      Prim g x (x.set (x.core.recordMahiWeakRef certificate))
  | dropWeakRef {x refs} : Prim g x (x.set { x.core with mahiPendingWeakRefs := refs })
  | signal {x parents1 parents2 qc byAuthority localRound}
      (hs : c.Signals x.core parents1 parents2 qc byAuthority) :
      Prim g x (x.set { signalRound x.core parents1 parents2 qc with localRound })
  | qcSignal {x certificate} (hr : certificate ∈ x.recorded)
      (hq : x.core.shortfinQcs.lookup certificate.header.id = some certificate.votes) :
      Prim g x (x.set (sendQcSignal certificate x.core))
  | send {x certificate} (hr : certificate ∈ x.recorded) :
      Prim g x (x.set (x.core.sendConsensus certificate))

abbrev Steps (g : Given) : Moment → Moment → Prop := Relation.ReflTransGen (c.Prim g)

/-! ## What only grows -/

variable {c}

omit [Crypto] in
theorem sendQcSignal_eq (certificate : Certificate) (s : Core) : ∃ pending signals,
    sendQcSignal certificate s = { s with pendingQcSignals := pending, toProposer := signals } := by
  unfold sendQcSignal
  simp only []
  split
  · exact ⟨_, _, rfl⟩
  · exact ⟨s.pendingQcSignals, s.toProposer, rfl⟩

theorem appendBlock_eq (certificate : Certificate) (s : Core) : ∃ aggregators vecAggregators signals,
    c.appendBlock certificate s = { s with
      certificatesAggregators := aggregators, certificatesVecAggregators := vecAggregators
      toProposer := signals } := by
  unfold appendBlock appendNarwhal appendBullshark
  simp only []
  split
  · split
    · exact ⟨_, s.certificatesVecAggregators, s.toProposer, rfl⟩
    · exact ⟨_, s.certificatesVecAggregators, _, rfl⟩
  · split
    · exact ⟨s.certificatesAggregators, _, s.toProposer, rfl⟩
    · exact ⟨s.certificatesAggregators, _, _, rfl⟩

omit [Crypto] in
theorem signals_sendQcSignal (certificate : Certificate) (s : Core) :
    s.toProposer <+: (sendQcSignal certificate s).toProposer := by
  unfold sendQcSignal
  simp only []
  split
  · exact List.prefix_append _ _
  · exact List.prefix_rfl

theorem signals_appendBlock (certificate : Certificate) (s : Core) :
    s.toProposer <+: (c.appendBlock certificate s).toProposer := by
  unfold appendBlock appendNarwhal appendBullshark
  simp only []
  split <;> split
  · exact List.prefix_rfl
  · exact List.prefix_append _ _
  · exact List.prefix_rfl
  · exact List.prefix_append _ _

omit [Crypto] in
theorem recordShortfinQc_eq (s : Core) (id : Digest) (votes : List Vote) : ∃ states,
    s.recordShortfinQc id votes = { s with
      shortfinQcs := s.shortfinQcs.alter id fun old => old.getD votes, shortfinStates := states } ∧
    ∀ d, states.lookup d = s.shortfinStates.lookup d ∨
      d = id ∧ s.shortfinStates.lookup d = some .uncertificated ∧
        states.lookup d = some .certificated := by
  unfold Core.recordShortfinQc
  simp only []
  split
  · next hs =>
    refine ⟨_, rfl, fun d => ?_⟩
    rw [FinMap.lookup_insert_ite]
    split
    · next hd => exact .inr ⟨hd, hd ▸ hs, rfl⟩
    · exact .inl rfl
  · exact ⟨s.shortfinStates, rfl, fun _ => .inl rfl⟩

theorem recordMahiWeakRef_eq (s : Core) (certificate : Certificate) : ∃ refs,
    s.recordMahiWeakRef certificate = { s with mahiPendingWeakRefs := refs } := by
  unfold Core.recordMahiWeakRef
  split
  · exact ⟨s.mahiPendingWeakRefs, rfl⟩
  · exact ⟨_, rfl⟩

theorem recordCertificate_eq (certificate : Certificate) (s : Core) :
    recordCertificate certificate s = { s with
      store := s.store.insert certificate.digest (.certificate certificate)
      certificateCache := s.certificateCache.insert certificate.digest certificate
      certificatesByRound := (s.insertByRound certificate).certificatesByRound
      headersById := s.headersById.insert certificate.header.id certificate.header
      certificatesByDigest := s.certificatesByDigest.insert certificate.digest certificate } := by
  cases s
  rfl

omit [Crypto] in
theorem subset_used_append (committee : Committee) (a : VotesAggregator) (vote : Vote)
    (header : Header) : a.used ⊆ (a.append committee vote header).2.used := by
  unfold VotesAggregator.append
  split_ifs
  · exact Finset.Subset.refl _
  · simp only []
    split <;> exact Finset.subset_insert _ _

/-- The authors whose votes for a header of ours were counted. -/
def used (s : Core) (id : Digest) : Finset PublicKey := ((s.votesAggregators.lookup id).getD {}).used

/-- What a call only adds to. -/
structure Grows (c : CoreConfig) (x y : Moment) : Prop where
  own : y.core.ownHeaders = x.core.ownHeaders
  states : ∀ id, (x.core.shortfinStates.lookup id).isSome → (y.core.shortfinStates.lookup id).isSome
  cached : ∀ d, (x.core.certificateCache.lookup d).isSome → (y.core.certificateCache.lookup d).isSome
  stored : ∀ d, (x.core.store.lookup d).isSome → (y.core.store.lookup d).isSome
  batches : x.core.batches ⊆ y.core.batches
  sent : x.core.toConsensus <+: y.core.toConsensus
  signals : x.core.toProposer <+: y.core.toProposer
  signed : x.core.signedVotes <+: y.core.signedVotes
  recorded : x.recorded ⊆ y.recorded
  assembled : x.assembled ⊆ y.assembled
  targets : x.targets ⊆ y.targets
  used : ∀ id, used x.core id ⊆ used y.core id
  gcRound : y.core.gcRound = x.core.gcRound
  consensusRound : y.core.consensusRound = x.core.consensusRound
  qcs : ∀ id votes, x.core.shortfinQcs.lookup id = some votes →
    y.core.shortfinQcs.lookup id = some votes
  voted : ∀ id, (x.core.votedHeaders.lookup id).isSome → (y.core.votedHeaders.lookup id).isSome
  hasVoted : ∀ h, x.core.hasVoted h → y.core.hasVoted h
  processing : ∀ h, x.core.isProcessing h → y.core.isProcessing h

namespace Grows

variable {x y z : Moment}

omit [Crypto] in
theorem refl (c : CoreConfig) (x : Moment) : Grows c x x :=
  ⟨rfl, fun _ h => h, fun _ h => h, fun _ h => h, Finset.Subset.refl _, List.prefix_rfl,
    List.prefix_rfl, List.prefix_rfl, fun _ h => h, fun _ h => h, fun _ h => h,
    fun _ => Finset.Subset.refl _, rfl, rfl, fun _ _ h => h, fun _ h => h, fun _ h => h, fun _ h => h⟩

omit [Crypto] in
theorem trans (h : Grows c x y) (h' : Grows c y z) : Grows c x z where
  own := h'.own.trans h.own
  states id hi := h'.states id (h.states id hi)
  cached d hd := h'.cached d (h.cached d hd)
  stored d hd := h'.stored d (h.stored d hd)
  batches := h.batches.trans h'.batches
  sent := h.sent.trans h'.sent
  signals := h.signals.trans h'.signals
  signed := h.signed.trans h'.signed
  recorded _ hr := h'.recorded (h.recorded hr)
  assembled _ hr := h'.assembled (h.assembled hr)
  targets _ hr := h'.targets (h.targets hr)
  used id := (h.used id).trans (h'.used id)
  gcRound := h'.gcRound.trans h.gcRound
  consensusRound := h'.consensusRound.trans h.consensusRound
  qcs id votes hq := h'.qcs id votes (h.qcs id votes hq)
  voted id hv := h'.voted id (h.voted id hv)
  hasVoted k hv := h'.hasVoted k (h.hasVoted k hv)
  processing k hk := h'.processing k (h.processing k hk)

theorem available (h : Grows c x y) {d : Digest} (hd : c.available x.core d) :
    c.available y.core d := by
  unfold CoreConfig.available at hd ⊢
  simp only [Bool.or_eq_true] at hd ⊢
  exact hd.imp (.imp id (h.cached d)) (h.stored d)

end Grows

omit [Crypto] in
theorem isSome_insert {κ ν : Type} [DecidableEq κ] {m : FinMap κ ν} {k k' : κ} {v : ν}
    (h : (m.lookup k').isSome) : ((m.insert k v).lookup k').isSome := by
  rw [FinMap.lookup_insert_ite]
  split
  · rfl
  · exact h

omit [Crypto] in
theorem mem_alter_insert {κ : Type} [DecidableEq κ] {m : FinMap ℕ (Finset κ)} {k k' : ℕ} {a a' : κ}
    (h : a ∈ (m.lookup k).getD ∅) :
    a ∈ ((m.alter k' fun ids => insert a' (ids.getD ∅)).lookup k).getD ∅ := by
  rw [FinMap.lookup_alter]
  split
  · next hk => exact Finset.mem_insert_of_mem (hk ▸ h)
  · exact h

theorem Prim.grows {g : Given} {x y : Moment} (h : c.Prim g x y) : Grows c x y := by
  have r := Grows.refl c x
  cases h with
  | frame h =>
    have hb := h.batches
    obtain ⟨_, _, _, _, _, rfl⟩ := h.eq
    exact { r with batches := hb }
  | processing =>
    exact { r with processing := fun k hk =>
      decide_eq_true (mem_alter_insert (of_decide_eq_true hk)) }
  | cache => exact { r with cached := fun d hd => isSome_insert hd }
  | embeddedQc | certificateQc =>
    obtain ⟨states, he, hs⟩ := recordShortfinQc_eq x.core _ _
    rw [he]
    refine { r with states := fun d hd => ?_, qcs := fun d votes hq => ?_ }
    · rcases hs d with h | ⟨-, -, h⟩
      · exact (congrArg Option.isSome h).trans hd
      · exact Option.isSome_of_eq_some h
    · simp only [Moment.set, FinMap.lookup_alter]
      split
      · next hd => rw [← hd, hq, Option.getD_some]
      · exact hq
  | available => exact { r with states := fun d hd => isSome_insert hd }
  | target =>
    exact { r with
      states := fun d hd => isSome_insert hd
      targets := List.subset_cons_self _ _ }
  | bubble =>
    refine { r with states := fun d hd => ?_, stored := fun d hd => isSome_insert hd }
    simp only [Moment.set, Core.storeHeader, Core.orInsertBubble, FinMap.lookup_alter]
    split
    · rfl
    · exact hd
  | admitted =>
    refine { r with states := fun d hd => isSome_insert ?_, stored := fun d hd => isSome_insert hd }
    simp only [Core.orInsertBubble, FinMap.lookup_alter]
    split
    · rfl
    · exact hd
  | vote =>
    exact { r with
      signed := List.prefix_append _ _
      voted := fun d hd => isSome_insert hd
      hasVoted := fun k hk => decide_eq_true (mem_alter_insert (of_decide_eq_true hk)) }
  | storeHeader => exact { r with stored := fun d hd => isSome_insert hd }
  | @appendVote v h =>
    refine { r with assembled := List.subset_append_right _ _, used := fun id => ?_ }
    unfold used
    simp only [Core.appendVote, FinMap.lookup_insert_ite]
    split
    · next hid =>
      subst hid
      exact subset_used_append ..
    · exact Finset.Subset.refl _
  | record | recordBlock =>
    rw [recordCertificate_eq]
    exact { r with
      cached := fun d hd => isSome_insert hd
      stored := fun d hd => isSome_insert hd
      recorded := List.subset_cons_self _ _ }
  | @deliver certificate =>
    have hsignals := signals_appendBlock (c := c) certificate (x.core.storeCertificate certificate)
    obtain ⟨_, _, _, he⟩ := appendBlock_eq (c := c) certificate (x.core.storeCertificate certificate)
    rw [he] at hsignals ⊢
    exact { r with
      signals := hsignals
      stored := fun d hd => isSome_insert hd
      sent := List.prefix_append _ _
      recorded := List.subset_cons_self _ _ }
  | @weakRef certificate =>
    obtain ⟨_, he⟩ := recordMahiWeakRef_eq x.core certificate
    rw [he]
    exact { r with }
  | @qcSignal certificate =>
    have hsignals := signals_sendQcSignal certificate x.core
    obtain ⟨_, _, he⟩ := sendQcSignal_eq certificate x.core
    rw [he] at hsignals ⊢
    exact { r with signals := hsignals }
  | signal => exact { r with signals := List.prefix_append _ _ }
  | send => exact { r with sent := List.prefix_append _ _ }
  | _ => exact { r with }

theorem Steps.grows {g : Given} {x y : Moment} (h : c.Steps g x y) : Grows c x y := by
  induction h with
  | refl => exact .refl c x
  | tail _ hp ih => exact ih.trans hp.grows

/-! ## What a call relies on -/

/-- What holds between two calls: headers and certificates are where their keys say, pending votes
are for headers of ours, no aggregator has reached the quorum, what is certificated has a QC, and what
has a state is stored. -/
structure Orderly (c : CoreConfig) (s : Core) : Prop where
  own : ∀ id h, s.ownHeaders.lookup id = some h → h.id = id
  pending : ∀ id votes, s.pendingVotes.lookup id = some votes →
    (s.ownHeaders.lookup id).isSome ∧ ∀ v ∈ votes, v.id = id
  light : ∀ id a, s.votesAggregators.lookup id = some a → a.weight < c.committee.quorumThreshold
  keyed : ∀ d x, s.certificatesByDigest.lookup d = some x → x.digest = d
  named : ∀ id h, s.headersById.lookup id = some h → h.id = id
  certified : ∀ id, s.shortfinStates.lookup id = some .certificated →
    (s.shortfinQcs.lookup id).isSome
  stored : ∀ id, (s.shortfinStates.lookup id).isSome → (s.store.lookup id).isSome

/-- What holds in the middle of a call. -/
structure Tidy (c : CoreConfig) (g : Given) (s : Core) : Prop extends Orderly c s where
  received : ∀ id votes, s.pendingVotes.lookup id = some votes → ∀ v ∈ votes, g.Received v

omit [Crypto] in
theorem weight_append_lt (committee : Committee) {a : VotesAggregator} (vote : Vote)
    (header : Header) (h : a.weight < committee.quorumThreshold) :
    (a.append committee vote header).2.weight < committee.quorumThreshold := by
  unfold VotesAggregator.append
  split_ifs
  · exact h
  · simp only []
    split_ifs
    · exact committee.quorumThreshold_pos
    · next hq => exact not_le.1 hq

omit [Crypto] in
/-- What gets a payload is certificated only with a QC. -/
theorem certified_mark {s : Core} {id : Digest}
    (h : ∀ d, s.shortfinStates.lookup d = some .certificated → (s.shortfinQcs.lookup d).isSome)
    (d : Digest)
    (hd : (s.markShortfinPayloadAvailable id).shortfinStates.lookup d = some .certificated) :
    (s.shortfinQcs.lookup d).isSome := by
  change (s.shortfinStates.insert id _).lookup d = _ at hd
  rw [FinMap.lookup_insert_ite] at hd
  split at hd
  · next he =>
    subst he
    split at hd
    · assumption
    · cases hd
  · exact h d hd

omit [Crypto] in
theorem certified_orInsert {s : Core} {id : Digest}
    (h : ∀ d, s.shortfinStates.lookup d = some .certificated → (s.shortfinQcs.lookup d).isSome)
    (d : Digest) (hd : (s.orInsertBubble id).shortfinStates.lookup d = some .certificated) :
    (s.shortfinQcs.lookup d).isSome := by
  simp only [Core.orInsertBubble, FinMap.lookup_alter] at hd
  split at hd
  · next he =>
    rcases hs : s.shortfinStates.lookup id with _ | state
    · rw [hs] at hd
      cases hd
    · rw [hs] at hd
      exact h d (he ▸ hs.trans hd)
  · exact h d hd

omit [Crypto] in
theorem isSome_storeHeader {s : Core} (h : Header) : ((s.storeHeader h).store.lookup h.id).isSome :=
  Option.isSome_of_eq_some (AList.lookup_insert _)

omit [Crypto] in
theorem isSome_of_insert {κ ν : Type} [DecidableEq κ] {m : FinMap κ ν} {k k' : κ} {v : ν}
    (h : ((m.insert k v).lookup k').isSome) : k' = k ∨ (m.lookup k').isSome := by
  rw [FinMap.lookup_insert_ite] at h
  split at h
  · next hk => exact .inl hk
  · exact .inr h

omit [Crypto] in
theorem isSome_of_orInsertBubble {s : Core} {id d : Digest}
    (h : ((s.orInsertBubble id).shortfinStates.lookup d).isSome) :
    d = id ∨ (s.shortfinStates.lookup d).isSome := by
  simp only [Core.orInsertBubble, FinMap.lookup_alter] at h
  split at h
  · next hd => exact .inl hd
  · exact .inr h

theorem Prim.tidy {g : Given} {x y : Moment} (h : c.Prim g x y) (t : Tidy c g x.core) :
    Tidy c g y.core := by
  have index : ∀ {certificate : Certificate} {m : FinMap Digest Certificate}
      (_ : ∀ d x, m.lookup d = some x → x.digest = d) (d : Digest) (x : Certificate),
      (m.insert certificate.digest certificate).lookup d = some x → x.digest = d := by
    intro certificate m hm d x hl
    rw [FinMap.lookup_insert_ite] at hl
    split at hl
    · next hd => rw [hd, ← Option.some.inj hl]
    · exact hm d x hl
  have insertHeader : ∀ (header : Header) (id : Digest) (h : Header),
      (x.core.headersById.insert header.id header).lookup id = some h → h.id = id := by
    intro header id h hl
    rw [FinMap.lookup_insert_ite] at hl
    split at hl
    · next hd => rw [hd, ← Option.some.inj hl]
    · exact t.named id h hl
  cases h with
  | frame h =>
    obtain ⟨_, _, _, _, _, rfl⟩ := h.eq
    exact { t with }
  | index => exact { t with keyed := index t.keyed, named := insertHeader _ }
  | insertHeader => exact { t with named := insertHeader _ }
  | embeddedQc | certificateQc =>
    obtain ⟨states, he, hs⟩ := recordShortfinQc_eq x.core _ _
    rw [he]
    refine { t with certified := fun d hd => ?_, stored := fun d hd => t.stored d ?_ }
    · simp only [Moment.set, FinMap.lookup_alter]
      split
      · rfl
      · next hne => exact t.certified d (((hs d).resolve_right fun h => hne h.1).symm.trans hd)
    · rcases hs d with h | ⟨-, h, -⟩
      · exact (congrArg Option.isSome h).symm.trans hd
      · exact Option.isSome_of_eq_some h
  | available hh hs =>
    refine { t with certified := certified_mark t.certified, stored := fun d hd => ?_ }
    rcases isSome_of_insert hd with rfl | hd
    · exact t.stored _ hs
    · exact t.stored d hd
  | target hp hl hs =>
    refine { t with certified := certified_mark t.certified, stored := fun d hd => ?_ }
    rcases isSome_of_insert hd with rfl | hd
    · exact t.stored _ (Option.isSome_of_eq_some hs)
    · exact t.stored d hd
  | bubble =>
    refine { t with certified := certified_orInsert t.certified, stored := fun d hd => ?_ }
    rcases isSome_of_orInsertBubble hd with rfl | hd
    · exact isSome_storeHeader _
    · exact isSome_insert (t.stored d hd)
  | admitted =>
    refine { t with
      certified := certified_mark (certified_orInsert t.certified)
      stored := fun d hd => ?_ }
    rcases isSome_of_insert hd with rfl | hd
    · exact isSome_storeHeader _
    · rcases isSome_of_orInsertBubble hd with rfl | hd
      · exact isSome_storeHeader _
      · exact isSome_insert (t.stored d hd)
  | storeHeader => exact { t with stored := fun d hd => isSome_insert (t.stored d hd) }
  | @appendVote v h ho =>
    refine { t with light := fun id a ha => ?_ }
    simp only [Core.appendVote, FinMap.lookup_insert_ite] at ha
    split at ha
    · rw [← Option.some.inj ha]
      refine weight_append_lt _ _ _ ?_
      rcases hl : x.core.votesAggregators.lookup h.id with _ | a'
      · exact c.committee.quorumThreshold_pos
      · exact t.light _ _ hl
    · exact t.light id a ha
  | takePending =>
    have he : ∀ id votes, ¬ (∅ : FinMap Digest (List Vote)).lookup id = some votes :=
      fun id votes h => by simp at h
    exact { t with
      pending := fun id votes h => absurd h (he id votes)
      received := fun id votes h => absurd h (he id votes) }
  | @keepPending id votes hv ho =>
    have key : ∀ id' votes', (x.core.pendingVotes.insert id votes).lookup id' = some votes' →
        (id' = id ∧ votes' = votes) ∨ x.core.pendingVotes.lookup id' = some votes' := by
      intro id' votes' hl
      rw [FinMap.lookup_insert_ite] at hl
      split at hl
      · next hd => exact .inl ⟨hd, (Option.some.inj hl).symm⟩
      · exact .inr hl
    refine { t with
      pending := fun id' votes' hl => ?_
      received := fun id' votes' hl => ?_ }
    · rcases key id' votes' hl with ⟨rfl, rfl⟩ | h
      · exact ⟨ho, fun v hm => (hv v hm).1⟩
      · exact t.pending _ _ h
    · rcases key id' votes' hl with ⟨rfl, rfl⟩ | h
      · exact fun v hm => (hv v hm).2
      · exact t.received _ _ h
  | record | recordBlock =>
    rw [recordCertificate_eq]
    exact { t with
      keyed := index t.keyed
      named := insertHeader _
      stored := fun d hd => isSome_insert (t.stored d hd) }
  | @weakRef certificate =>
    obtain ⟨_, he⟩ := recordMahiWeakRef_eq x.core certificate
    rw [he]
    exact { t with }
  | @qcSignal certificate =>
    obtain ⟨_, _, he⟩ := sendQcSignal_eq certificate x.core
    rw [he]
    exact { t with }
  | @deliver certificate =>
    obtain ⟨_, _, _, he⟩ := appendBlock_eq (c := c) certificate (x.core.storeCertificate certificate)
    rw [he]
    exact { t with stored := fun d hd => isSome_insert (t.stored d hd) }
  | _ => exact { t with }

theorem Steps.tidy {g : Given} {x y : Moment} (h : c.Steps g x y) (t : Tidy c g x.core) :
    Tidy c g y.core := by
  induction h with
  | refl => exact t
  | tail _ hp ih => exact hp.tidy ih

/-- The votes of members that are not counted yet for our headers. -/
def unused (c : CoreConfig) (s : Core) : ℕ :=
  (s.ownHeaders.keys.map fun id => (c.committee.members \ used s id).card).sum

omit [Crypto] in
theorem Grows.unused_le {x y : Moment} (h : Grows c x y) : unused c y.core ≤ unused c x.core := by
  unfold unused
  rw [h.own]
  exact List.sum_le_sum fun id _ => Finset.card_le_card
    (Finset.sdiff_subset_sdiff (Finset.Subset.refl _) (h.used id))

omit [Crypto] in
/-- A quorum is reached by a vote of a member that was not counted before. -/
theorem append_eq_some {committee : Committee} {a : VotesAggregator} {vote : Vote} {header : Header}
    {certificate : Certificate} (h : (a.append committee vote header).1 = some certificate)
    (hw : a.weight < committee.quorumThreshold) :
    vote.author ∉ a.used ∧ vote.author ∈ committee.members ∧
      (a.append committee vote header).2.used = insert vote.author a.used ∧
      certificate = { header, votes := a.votes ++ [vote] } := by
  unfold VotesAggregator.append at h ⊢
  split_ifs at h ⊢ with hu
  simp only [] at h ⊢
  split_ifs at h ⊢ with hq
  have hs : 0 < committee.stake vote.author := by omega
  exact ⟨hu, List.mem_toFinset.2 (committee.mem_names_of_stake_pos hs), rfl,
    (Option.some.inj h).symm⟩

theorem unused_appendVote_lt {s : Core} {v : Vote} {h : Header} {certificate : Certificate}
    (o : Orderly c s) (ho : s.ownHeaders.lookup v.id = some h)
    (hc : (s.appendVote c.committee v h).1 = some certificate) :
    unused c (s.appendVote c.committee v h).2 < unused c s := by
  have hw : ((s.votesAggregators.lookup h.id).getD {}).weight < c.committee.quorumThreshold := by
    rcases hl : s.votesAggregators.lookup h.id with _ | a
    · exact c.committee.quorumThreshold_pos
    · exact o.light _ _ hl
  obtain ⟨hu, hm, he, -⟩ := append_eq_some hc hw
  have hused : ∀ id, used (s.appendVote c.committee v h).2 id =
      if id = h.id then insert v.author (used s h.id) else used s id := by
    intro id
    unfold used
    simp only [Core.appendVote, FinMap.lookup_insert_ite]
    split
    · exact he
    · rfl
  have hid : h.id ∈ s.ownHeaders.keys := by
    rw [o.own _ _ ho]
    exact FinMap.mem_keys_iff.2 ⟨h, ho⟩
  refine List.sum_lt_sum _ _ (fun id _ => ?_) ⟨h.id, hid, ?_⟩
  · rw [hused]
    split
    · next hd =>
      rw [hd]
      exact Finset.card_le_card
        (Finset.sdiff_subset_sdiff (Finset.Subset.refl _) (Finset.subset_insert _ _))
    · exact le_rfl
  · rw [hused, if_pos rfl]
    refine Finset.card_lt_card (Finset.ssubset_iff_of_subset (Finset.sdiff_subset_sdiff
      (Finset.Subset.refl _) (Finset.subset_insert _ _)) |>.2 ⟨v.author, ?_, ?_⟩)
    · exact Finset.mem_sdiff.2 ⟨hm, hu⟩
    · simp

omit [Crypto] in
theorem unused_le (s : Core) : unused c s ≤ s.ownHeaders.entries.length * c.committee.size := by
  unfold unused
  refine (List.sum_le_card_nsmul _ c.committee.size fun n hn => ?_).trans ?_
  · obtain ⟨id, -, rfl⟩ := List.mem_map.1 hn
    rw [c.committee.size_eq_length_names]
    exact (Finset.card_le_card Finset.sdiff_subset).trans (List.toFinset_card_le _)
  · simp [AList.keys, List.keys]

/-! ## Following the steps -/

/-- Why a call panics at a moment, with which message. -/
inductive PanicsAt (c : CoreConfig) (g : Given) (x : Moment) : String → Prop
  | ownVote {h} (hp : c.dagProtocol.isMahiMahi = false)
      (hh : g.Handles x.core h ∨ h ∈ x.targets) (ha : h.author = c.name)
      (ho : x.core.ownHeaders.lookup h.id = none) (hv : x.core.votedHeaders.lookup h.id = none)
      (hn : x.core.hasVoted h = false) : PanicsAt c g x "Failed to process our own vote"
  | unknownAuthor {h} (hh : g.Handles x.core h ∨ h ∈ x.targets)
      (ha : h.author ∉ c.committee.names) :
      PanicsAt c g x "Author of valid header is not in the committee"
  | ownCertificate {h v} (ho : x.core.Own h) (hv : v.id = h.id)
      (hs : g.Received v ∨ ∃ h', (g.Handles x.core h' ∨ h' ∈ x.targets) ∧ v.id = h'.id ∧
        c.headerReady x.core h' = true) (hr : c.headerReady x.core h = false) :
      PanicsAt c g x "Failed to process valid certificate"

/-- The certificates whose delivery has begun since `x` are delivered. -/
def Settled (x y : Moment) : Prop := ∀ r ∈ y.recorded, r ∈ x.recorded ∨ r ∈ y.core.toConsensus

/-- How a call may fail: with an error of the protocol only if `mayFail`, after all steps it began. -/
def Fails (c : CoreConfig) (g : Given) (mayFail : Prop) (x : Moment) :
    CoreFault → Core → Prop
  | .dag _, s => mayFail ∧ ∃ y, y.core = s ∧ c.Steps g x y ∧ Settled x y
  | .panic msg, s => (∃ y, y.core = s ∧ c.Steps g x y) ∧ ∃ y, c.Steps g x y ∧ PanicsAt c g y msg
  | .outOfFuel, _ => False

theorem Settled.trans {g : Given} {x y z : Moment} (h : Settled x y) (h' : Settled y z)
    (hs : c.Steps g y z) : Settled x z := fun r hr =>
  (h' r hr).elim (fun hr => (h r hr).imp_right fun hr => hs.grows.sent.subset hr) .inr

theorem fails_of_steps {g : Given} {mayFail : Prop} {x y : Moment} {e : CoreFault} {s : Core}
    (hs : c.Steps g x y) (h : Settled x y) (hf : c.Fails g mayFail y e s) :
    c.Fails g mayFail x e s := by
  cases e with
  | dag e =>
    obtain ⟨hm, z, hz, hs', h'⟩ := hf
    exact ⟨hm, z, hz, hs.trans hs', h.trans h' hs'⟩
  | panic msg =>
    obtain ⟨⟨z, hz, hs'⟩, w, hw, hp⟩ := hf
    exact ⟨⟨z, hz, hs.trans hs'⟩, w, hs.trans hw, hp⟩
  | outOfFuel => exact hf

/-- What a handler does between two moments where no delivery is left unfinished. -/
def tracing (c : CoreConfig) (g : Given) (mayFail : Prop) :
    Tracing CoreFault Core Moment where
  proj := Moment.core
  rel x y := c.Steps g x y ∧ Settled x y
  fails := c.Fails g mayFail
  refl _ := ⟨.refl, fun _ hr => .inl hr⟩
  trans h h' := ⟨h.1.trans h'.1, h.2.trans h'.2 h'.1⟩
  fails_of_rel h hf := fails_of_steps h.1 h.2 hf

/-- What a handler does that may leave deliveries unfinished; it has no errors of the protocol. -/
def loose (c : CoreConfig) (g : Given) : Tracing CoreFault Core Moment where
  proj := Moment.core
  rel := c.Steps g
  fails := c.Fails g False
  refl _ := .refl
  trans := Relation.ReflTransGen.trans
  fails_of_rel {x y e s} hs hf := by
    cases e with
    | dag e => exact hf.1.elim
    | panic msg =>
      obtain ⟨⟨z, hz, hs'⟩, w, hw, hp⟩ := hf
      exact ⟨⟨z, hz, hs.trans hs'⟩, w, hs.trans hw, hp⟩
    | outOfFuel => exact hf

section Tracing

variable {g : Given} {mayFail : Prop} {x y : Moment} {α : Type} {m : CoreTask α}
  {Q : α → Moment → Prop}

theorem traces_weaken (h : (c.tracing g False).Traces x m Q) :
    (c.tracing g mayFail).Traces x m Q := by
  refine wp_mono h (fun _ _ h => h) fun e s hf => ?_
  cases e with
  | dag e => exact hf.1.elim
  | panic msg => exact hf
  | outOfFuel => exact hf

theorem loose_of_tracing (h : (c.tracing g False).Traces x m Q) :
    (c.loose g).Traces x m fun a y => Q a y ∧ Settled x y :=
  wp_mono h (fun _ _ ⟨y, hy, hr, hq⟩ => ⟨y, hy, hr.1, hq, hr.2⟩) fun _ _ hf => hf

theorem tracing_of_loose (h : (c.loose g).Traces x m fun a y => Q a y ∧ Settled x y) :
    (c.tracing g mayFail).Traces x m Q :=
  traces_weaken <| wp_mono h (fun _ _ ⟨y, hy, hr, hq, hs⟩ => ⟨y, hy, ⟨hr, hs⟩, hq⟩) fun _ _ hf => hf

omit [Crypto] in
theorem settled_of_recorded (h : y.recorded = x.recorded) : Settled x y :=
  fun _ hr => .inl (h ▸ hr)

theorem rel_of_prim (h : c.Prim g x y) (hr : y.recorded = x.recorded) :
    (c.tracing g mayFail).rel x y := ⟨.single h, settled_of_recorded hr⟩

/-- An update that is one step. -/
theorem traces_modify {Q : PUnit → Moment → Prop} {f : Core → Core}
    (h : c.Prim g x (x.set (f x.core))) (hq : Q ⟨⟩ (x.set (f x.core))) :
    (c.tracing g mayFail).Traces x (modify f : CoreTask PUnit) Q :=
  Tracing.ofModify (T := c.tracing g mayFail) _ rfl (rel_of_prim h rfl) hq

theorem traces_get_bind {f : Core → CoreTask α} (h : (c.tracing g mayFail).Traces x (f x.core) Q) :
    (c.tracing g mayFail).Traces x (get >>= f) Q := Tracing.get_bind h

theorem traces_modify_bind {f : Core → Core} {k : PUnit → CoreTask α}
    (h : c.Prim g x (x.set (f x.core)))
    (hk : (c.tracing g mayFail).Traces (x.set (f x.core)) (k ⟨⟩) Q) :
    (c.tracing g mayFail).Traces x ((modify f : CoreTask PUnit) >>= k) Q := by
  refine Tracing.bind (P := fun _ y => y = x.set (f x.core)) (traces_modify h rfl) fun _ y _ hy => ?_
  rw [hy]
  exact hk

theorem traces_frame {f : Core → α × Core} (h : x.core.Frame (f x.core).2)
    (hq : Q (f x.core).1 (x.set (f x.core).2)) :
    (c.tracing g mayFail).Traces x (modifyGet f : CoreTask α) Q :=
  Tracing.ofModifyGet (T := c.tracing g mayFail) _ rfl (rel_of_prim (.frame h) rfl) hq

end Tracing

end CoreConfig

end NovelDag
