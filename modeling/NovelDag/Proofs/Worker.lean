import NovelDag.Worker
import NovelDag.Lib.ContentStore
import NovelDag.Lib.Packing
import NovelDag.Lib.Runs
import NovelDag.Proofs.QuorumWaiter
import NovelDag.Proofs.WorkerMessages

/-!
# What a worker does with transactions and batches

Every transaction is in one batch, in the order of arrival. The digests a worker reports as its own
are of batches for which a quorum of handlers completed, and what it stores is a batch under its
digest, so that what it replies to a request is a batch that was asked for. A batch that the primary
misses is in the store, or waited for, unless its request was cleaned up.
-/

namespace NovelDag

namespace WorkerConfig

variable {c : WorkerConfig} {s t u : Worker}

/-! ## What a task leaves alone -/

section Frames

/-- The synchronizer keeps to its own part of the state. -/
def Syncs (s t : Worker) : Prop := ∃ round pending waiting channels iterations syncs,
  t = { s with round, pending, waiting, channels, iterations, syncs }

theorem syncs_requests (now : ℕ) : ∀ (digests : List Digest) (r : Worker × List Digest),
    Syncs r.1 (digests.foldl (request now) r).1
  | [], r => ⟨_, _, _, _, _, _, rfl⟩
  | digest :: digests, r => by
    obtain ⟨_, _, _, _, _, _, he⟩ := syncs_requests now digests (request now r digest)
    rw [List.foldl_cons, he]
    unfold request
    split_ifs <;> exact ⟨_, _, _, _, _, _, rfl⟩

theorem syncs_deliver (w : Waiter Digest Digest) (waiting : List (Waiter Digest Digest)) (s : Worker)
    (polled : Polled) : Syncs s (deliver w { s with waiting } polled) := by
  cases polled <;> exact ⟨_, _, _, _, _, _, rfl⟩

theorem help_eq (c : WorkerConfig) (request : List Digest × PublicKey) (s : Worker) :
    ∃ replies, c.help request s = { s with replies } := by
  unfold help
  split_ifs <;> exact ⟨_, rfl⟩

variable [Bincode]

theorem syncs_handlePrimary (c : WorkerConfig) (now : ℕ) (s : Worker)
    (message : PrimaryWorkerMessage) : Syncs s (c.handlePrimary now s message) := by
  cases message with
  | synchronize digests target =>
    obtain ⟨_, _, _, _, _, _, he⟩ := syncs_requests now digests (s, [])
    simp only [handlePrimary, synchronize, he]
    split_ifs <;> exact ⟨_, _, _, _, _, _, rfl⟩
  | cleanup round =>
    simp only [handlePrimary, cleanup]
    split_ifs <;> exact ⟨_, _, _, _, _, _, rfl⟩

theorem retry_eq (c : WorkerConfig) (now : ℕ) (s : Worker) :
    ∃ iterations syncs, c.retry now s = { s with iterations, syncs } := by
  unfold retry
  simp only []
  split_ifs <;> exact ⟨_, _, rfl⟩

/-- What a frame adds, besides its acknowledgement. -/
theorem dispatch_cases (serialized : List UInt8) (s : Worker) :
    (∃ transactions, Bincode.deserialize serialized = some (.ok (.batch transactions)) ∧
      dispatch serialized s = { s with
        acknowledged := s.acknowledged ++ [serialized]
        othersBatches := s.othersBatches.send serialized }) ∨
    (∃ missing requestor, Bincode.deserialize serialized =
        some (.ok (.batchRequest missing requestor)) ∧
      dispatch serialized s = { s with
        acknowledged := s.acknowledged ++ [serialized]
        requests := s.requests.send (missing, requestor) }) ∨
    dispatch serialized s = { s with acknowledged := s.acknowledged ++ [serialized] } := by
  unfold dispatch
  rcases Bincode.deserialize serialized with _ | (_ | (transactions | ⟨missing, requestor⟩))
  · exact .inr (.inr rfl)
  · exact .inr (.inr rfl)
  · exact .inl ⟨transactions, rfl, rfl⟩
  · exact .inr (.inl ⟨missing, requestor, rfl, rfl⟩)

theorem dispatch_eq (serialized : List UInt8) (s : Worker) : ∃ othersBatches requests,
    dispatch serialized s = { s with
      acknowledged := s.acknowledged ++ [serialized], othersBatches, requests } := by
  rcases dispatch_cases serialized s with ⟨_, -, he⟩ | ⟨_, _, -, he⟩ | he <;> exact ⟨_, _, he⟩

end Frames

variable [Crypto] [Bincode] {event : Event} {events : List Event}

/-! ## Turns -/

section Turns

/-- A transaction in the current batch. -/
def added (transaction : Transaction) (s : Worker) : Worker :=
  { s with
    currentBatchSize := s.currentBatchSize + transaction.length
    currentBatch := s.currentBatch ++ [transaction] }

/-- What a turn does. -/
inductive Turns (c : WorkerConfig) (s : Worker) : Event → Worker → Prop
  | fill transaction (h : s.currentBatchSize + transaction.length < c.batchSize) :
      Turns c s (.transaction transaction) (added transaction s)
  | full transaction (h : c.batchSize ≤ s.currentBatchSize + transaction.length) :
      Turns c s (.transaction transaction) (c.sealBatch (added transaction s))
  | idle : Turns c s .batchTimer s
  | late (h : s.currentBatch ≠ []) : Turns c s .batchTimer (c.sealBatch s)
  | waited {completed pending batch sealed sent} (hrecv : s.sealed.recv = some (batch, sealed))
      (hothers : (completed.map Prod.fst ++ pending).Perm c.others)
      (hsent : (c.quorumWaiter.receive ⟨batch, completed, pending⟩).1 = sent) :
      Turns c s (.quorumWaiter completed pending) { s with
        sealed, waited := s.waited ++ [⟨batch, completed, pending⟩]
        ownBatches := s.ownBatches.sendAll sent }
  | own {batch ownBatches} (hrecv : s.ownBatches.recv = some (batch, ownBatches)) :
      Turns c s .ownBatch (c.process .ourBatch batch { s with ownBatches })
  | others {batch othersBatches} (hrecv : s.othersBatches.recv = some (batch, othersBatches)) :
      Turns c s .othersBatch (c.process .othersBatch batch { s with othersBatches })
  | frame serialized : Turns c s (.frame serialized) (dispatch serialized s)
  | helper {request requests} (hrecv : s.requests.recv = some (request, requests)) :
      Turns c s .helper (c.help request { s with requests })
  | primary message now : Turns c s (.primary message now) (c.handlePrimary now s message)
  | result i {w waiting polled} (hw : s.waiting.Perm (w :: waiting))
      (hr : w.returns (stored s) (senders s) polled = true) :
      Turns c s (.result i polled) (deliver w { s with waiting } polled)
  | timer now : Turns c s (.timer now) (c.retry now s)

theorem step_turns (h : c.step s event = some t) : c.Turns s event t := by
  cases event with
  | transaction transaction =>
    obtain rfl := Option.some.inj h
    unfold push
    simp only []
    split_ifs with hfull
    · exact .full transaction hfull
    · exact .fill transaction (not_le.1 hfull)
  | batchTimer =>
    unfold step at h
    simp only [List.isEmpty_iff] at h
    split_ifs at h with hempty
    · rw [← Option.some.inj h]
      exact .idle
    · rw [← Option.some.inj h]
      exact .late hempty
  | quorumWaiter completed pending =>
    obtain ⟨⟨batch, sealed⟩, hrecv, h⟩ := Option.bind_eq_some_iff.1 h
    simp only [] at h
    split_ifs at h with hothers
    rcases hreceive : c.quorumWaiter.receive ⟨batch, completed, pending⟩ with ⟨sent, _ | _⟩
    · rw [hreceive] at h
      cases h
    · rw [hreceive] at h
      obtain rfl := Option.some.inj h
      exact .waited hrecv hothers (by rw [hreceive])
  | ownBatch =>
    obtain ⟨⟨batch, ownBatches⟩, hrecv, h⟩ := Option.bind_eq_some_iff.1 h
    obtain rfl := Option.some.inj h
    exact .own hrecv
  | othersBatch =>
    obtain ⟨⟨batch, othersBatches⟩, hrecv, h⟩ := Option.bind_eq_some_iff.1 h
    obtain rfl := Option.some.inj h
    exact .others hrecv
  | frame serialized =>
    obtain rfl := Option.some.inj h
    exact .frame serialized
  | helper =>
    obtain ⟨⟨request, requests⟩, hrecv, h⟩ := Option.bind_eq_some_iff.1 h
    obtain rfl := Option.some.inj h
    exact .helper hrecv
  | primary message now =>
    obtain rfl := Option.some.inj h
    exact .primary message now
  | result i polled =>
    obtain ⟨⟨w, waiting⟩, hpoll, h⟩ := Option.bind_eq_some_iff.1 h
    obtain rfl := Option.some.inj h
    obtain ⟨hw, hr⟩ := Waiter.poll_eq_some hpoll
    exact .result i hw hr
  | timer now =>
    obtain rfl := Option.some.inj h
    exact .timer now

/-- What every turn keeps, with the events so far, holds in every state of a run. -/
theorem run_keeps {P : List Event → Worker → Prop} (h0 : P [] {})
    (hturn : ∀ before event s t, P before s → c.Turns s event t → P (before ++ [event]) t)
    (h : c.run events = some s) : P events s :=
  Runs.foldlM_some_induction h0
    (fun before event s t hs ht => hturn before event s t hs (step_turns ht)) h

end Turns

section Four

/-- A worker of a node of four. -/
def workerOfFour : WorkerConfig where
  name := 0
  id := 0
  committee := .uniform 4
  batchSize := 3
  gcDepth := 50
  syncRetryDelay := 5000
  order := HashOrder.entryOrder

/-- Two transactions make a batch, which two of the others acknowledge. -/
def eventsOfFour : List Event :=
  [.transaction [1, 2], .transaction [3], .quorumWaiter [(1, .acked), (2, .acked)] [3], .ownBatch]

/-- Node 3 asks for the batch. -/
def requestOfFour : List Event :=
  [.frame (Bincode.serialize
    (.batchRequest [Crypto.sha512 (Bincode.serialize (.batch [[1, 2], [3]]))] 3)), .helper]

omit [Crypto] [Bincode] in
theorem run_requestOfFour : letI := toyCrypto; letI := standardBincode
    ∃ s, workerOfFour.run (eventsOfFour ++ requestOfFour) = some s ∧ s.toPrimary.length = 1 ∧
      s.replies.map Prod.fst = [3] := by
  have h : letI := toyCrypto; letI := standardBincode
      (workerOfFour.run (eventsOfFour ++ requestOfFour)).map (fun s =>
        (s.toPrimary.length, s.replies.map Prod.fst)) = some (1, [3]) := by decide +kernel
  obtain ⟨s, hs, he⟩ := Option.map_eq_some_iff.1 h
  exact ⟨s, hs, congrArg Prod.fst he, congrArg Prod.snd he⟩

end Four

/-! ## Batches -/

section Batches

/-- The transactions that come with an event. -/
def Event.transactions : Event → List Transaction
  | .transaction t => [t]
  | _ => []

/-- The bytes of all transactions of a batch. -/
def size (batch : Batch) : ℕ := (batch.map List.length).sum

/-- A batch is not empty, and it was too small before its last transaction. -/
def Sealable (batchSize : ℕ) (batch : Batch) : Prop :=
  ∃ first last, batch = first ++ [last] ∧ (first = [] ∨ size first < batchSize)

/-- The transactions so far, dealt out into batches that were broadcast and sent on. -/
structure Dealt (c : WorkerConfig) (log : List Transaction) (s : Worker) (batches : List Batch) :
    Prop where
  packed : Packed log batches s.currentBatch
  broadcasts : s.broadcasts = batches.map fun b => (c.others, Bincode.serialize (.batch b))
  sealed : s.sealed.all = batches.map fun b => Bincode.serialize (.batch b)
  sealable : ∀ b ∈ batches, Sealable c.batchSize b

/-- The current batch is too small. -/
structure Filling (c : WorkerConfig) (s : Worker) : Prop where
  size : s.currentBatchSize = size s.currentBatch
  small : s.currentBatch = [] ∨ s.currentBatchSize < c.batchSize

variable {log : List Transaction} {batches : List Batch}

omit [Crypto] [Bincode] in
theorem size_append (b b' : Batch) : size (b ++ b') = size b + size b' := by
  rw [size, List.map_append, List.sum_append]
  rfl

omit [Crypto] in
theorem Dealt.sealBatch (h : Dealt c log s batches) (hs : Sealable c.batchSize s.currentBatch) :
    Dealt c log (c.sealBatch s) (batches ++ [s.currentBatch]) where
  packed := h.packed.close
  broadcasts := by
    rw [List.map_append, ← h.broadcasts]
    rfl
  sealed := by
    rw [List.map_append, ← h.sealed]
    exact Channel.all_send _ _
  sealable b hb := by
    rcases List.mem_append.1 hb with hb | hb
    · exact h.sealable b hb
    · rwa [List.mem_singleton.1 hb]

omit [Crypto] in
theorem filling_sealBatch : Filling c (c.sealBatch s) := ⟨rfl, .inl rfl⟩

omit [Crypto] in
theorem Dealt.added (h : Dealt c log s batches) (transaction : Transaction) :
    Dealt c (log ++ [transaction]) (added transaction s) batches :=
  ⟨h.packed.push transaction, h.broadcasts, h.sealed, h.sealable⟩

omit [Crypto] in
theorem Dealt.same (h : Dealt c log s batches) (hf : Filling c s)
    (hbatch : t.currentBatch = s.currentBatch) (hsize : t.currentBatchSize = s.currentBatchSize)
    (hbroadcasts : t.broadcasts = s.broadcasts) (hsealed : t.sealed.all = s.sealed.all) :
    ∃ batches, Dealt c (log ++ []) t batches ∧ Filling c t := by
  refine ⟨batches, ⟨?_, hbroadcasts.trans h.broadcasts, hsealed.trans h.sealed, h.sealable⟩, ?_, ?_⟩
  · rw [List.append_nil, hbatch]
    exact h.packed
  · rw [hsize, hbatch]
    exact hf.size
  · rw [hsize, hbatch]
    exact hf.small

theorem Dealt.turn (h : Dealt c log s batches) (hf : Filling c s) (ht : c.Turns s event t) :
    ∃ batches, Dealt c (log ++ event.transactions) t batches ∧ Filling c t := by
  cases ht with
  | fill transaction hlt =>
    refine ⟨batches, h.added transaction, ?_, .inr hlt⟩
    change s.currentBatchSize + transaction.length = _
    rw [hf.size]
    exact (size_append _ [transaction]).symm
  | full transaction =>
    exact ⟨_, (h.added transaction).sealBatch ⟨_, transaction, rfl, hf.small.imp_right fun hlt =>
      hf.size ▸ hlt⟩, filling_sealBatch⟩
  | idle => exact h.same hf rfl rfl rfl rfl
  | late hne =>
    have hlast := List.dropLast_append_getLast hne
    have hsize := size_append s.currentBatch.dropLast [s.currentBatch.getLast hne]
    rw [hlast, ← hf.size] at hsize
    have hlt := hf.small.resolve_left hne
    refine ⟨_, List.append_nil log ▸ h.sealBatch ⟨_, _, hlast.symm, .inr ?_⟩, filling_sealBatch⟩
    omega
  | waited hrecv => exact h.same hf rfl rfl rfl (Channel.all_of_recv hrecv)
  | own | others => exact h.same hf rfl rfl rfl rfl
  | frame serialized =>
    obtain ⟨_, _, he⟩ := dispatch_eq serialized s
    rw [he]
    exact h.same hf rfl rfl rfl rfl
  | @helper request requests =>
    obtain ⟨_, he⟩ := help_eq c request { s with requests }
    rw [he]
    exact h.same hf rfl rfl rfl rfl
  | primary message now =>
    obtain ⟨_, _, _, _, _, _, he⟩ := syncs_handlePrimary c now s message
    rw [he]
    exact h.same hf rfl rfl rfl rfl
  | @result i w waiting polled =>
    obtain ⟨_, _, _, _, _, _, he⟩ := syncs_deliver w waiting s polled
    rw [he]
    exact h.same hf rfl rfl rfl rfl
  | timer now =>
    obtain ⟨_, _, he⟩ := retry_eq c now s
    rw [he]
    exact h.same hf rfl rfl rfl rfl

theorem dealt_run (h : c.run events = some s) : ∃ batches,
    Dealt c (events.flatMap Event.transactions) s batches ∧ Filling c s :=
  run_keeps (P := fun events s => ∃ batches,
    Dealt c (events.flatMap Event.transactions) s batches ∧ Filling c s)
    ⟨[], ⟨.nil, rfl, rfl, by simp⟩, rfl, .inl rfl⟩
    (fun before event s t ⟨batches, hd, hf⟩ ht => by
      rw [List.flatMap_append, List.flatMap_singleton]
      exact hd.turn hf ht) h

end Batches

/-! ## What is stored and reported -/

section Stores

/-- The digest of an own batch, of one of another worker. -/
def ours : WorkerPrimaryMessage → Option (Digest × ℕ)
  | .ourBatch digest id => some (digest, id)
  | .othersBatch _ _ => none

def theirs : WorkerPrimaryMessage → Option (Digest × ℕ)
  | .ourBatch _ _ => none
  | .othersBatch digest id => some (digest, id)

/-- The messages that the processors have seen. -/
def Processed (s : Worker) (bytes : List UInt8) : Prop :=
  bytes ∈ s.ownBatches.taken ∨ bytes ∈ s.othersBatches.taken

/-- What has gone through the queues of the worker. -/
structure Stored (c : WorkerConfig) (s : Worker) : Prop where
  waited : s.waited.map QuorumWaiterMessage.batch = s.sealed.taken
  handlers : ∀ m ∈ s.waited, (m.completed.map Prod.fst ++ m.pending).Perm c.others
  forwarded : s.ownBatches.all = s.waited.flatMap fun m => (c.quorumWaiter.receive m).1
  own : s.toPrimary.filterMap ours = s.ownBatches.taken.map fun b => (Crypto.sha512 b, c.id)
  others : s.toPrimary.filterMap theirs = s.othersBatches.taken.map fun b => (Crypto.sha512 b, c.id)
  store : ContentStore Crypto.sha512 s.store (Processed s)
  received : ∀ bytes ∈ s.othersBatches.all, bytes ∈ s.acknowledged ∧
    ∃ transactions, Bincode.deserialize bytes = some (.ok (.batch transactions))
  requested : ∀ r ∈ s.requests.all, ∃ frame ∈ s.acknowledged,
    Bincode.deserialize frame = some (.ok (.batchRequest r.1 r.2))
  replied : ∀ r ∈ s.replies, Processed s r.2 ∧
    ∃ missing, (missing, r.1) ∈ s.requests.all ∧ Crypto.sha512 r.2 ∈ missing

theorem Stored.ownTurn {batch : List UInt8} {ownBatches : Channel (List UInt8)} (h : Stored c s)
    (hrecv : s.ownBatches.recv = some (batch, ownBatches)) :
    Stored c (c.process .ourBatch batch { s with ownBatches }) := by
  have htaken := Channel.taken_of_recv hrecv
  have hprocessed : ∀ bytes, Processed (c.process .ourBatch batch { s with ownBatches }) bytes ↔
      Processed s bytes ∨ bytes = batch := fun bytes => by
    change bytes ∈ ownBatches.taken ∨ _ ↔ _
    rw [htaken, List.mem_append, List.mem_singleton, or_right_comm]
    rfl
  refine { h with
    forwarded := (Channel.all_of_recv hrecv).trans h.forwarded
    own := ?_, others := ?_, store := h.store.insert batch hprocessed
    replied := fun r hr => (h.replied r hr).imp_left fun hp => (hprocessed _).2 (.inl hp) }
  · change (s.toPrimary ++ [_]).filterMap ours = ownBatches.taken.map _
    rw [htaken, List.filterMap_append, h.own, List.map_append]
    rfl
  · change (s.toPrimary ++ [_]).filterMap theirs = _
    rw [List.filterMap_append, h.others]
    exact List.append_nil _

theorem Stored.othersTurn {batch : List UInt8} {othersBatches : Channel (List UInt8)}
    (h : Stored c s) (hrecv : s.othersBatches.recv = some (batch, othersBatches)) :
    Stored c (c.process .othersBatch batch { s with othersBatches }) := by
  have htaken := Channel.taken_of_recv hrecv
  have hprocessed : ∀ bytes, Processed (c.process .othersBatch batch { s with othersBatches }) bytes ↔
      Processed s bytes ∨ bytes = batch := fun bytes => by
    change _ ∨ bytes ∈ othersBatches.taken ↔ _
    rw [htaken, List.mem_append, List.mem_singleton, ← or_assoc]
    rfl
  refine { h with
    own := ?_, others := ?_, store := h.store.insert batch hprocessed
    received := fun bytes hb => h.received bytes (Channel.all_of_recv hrecv ▸ hb)
    replied := fun r hr => (h.replied r hr).imp_left fun hp => (hprocessed _).2 (.inl hp) }
  · change (s.toPrimary ++ [_]).filterMap ours = _
    rw [List.filterMap_append, h.own]
    exact List.append_nil _
  · change (s.toPrimary ++ [_]).filterMap theirs = othersBatches.taken.map _
    rw [htaken, List.filterMap_append, h.others, List.map_append]
    rfl

theorem Stored.frame (h : Stored c s) (serialized : List UInt8) :
    Stored c (dispatch serialized s) := by
  have hacked : ∀ {bytes}, bytes ∈ s.acknowledged → bytes ∈ s.acknowledged ++ [serialized] :=
    List.mem_append_left _
  have hreceived := fun bytes hb => (h.received bytes hb).imp_left hacked
  have hrequested := fun r hr => (h.requested r hr).imp fun _ hf => hf.imp_left hacked
  rcases dispatch_cases serialized s with ⟨transactions, hread, he⟩ |
    ⟨missing, requestor, hread, he⟩ | he
  · rw [he]
    refine { h with received := fun bytes hb => ?_, requested := hrequested }
    rcases List.mem_append.1 (Channel.all_send s.othersBatches serialized ▸ hb) with hb | hb
    · exact hreceived bytes hb
    · rw [List.mem_singleton.1 hb]
      exact ⟨by simp, transactions, hread⟩
  · rw [he]
    have hall := Channel.all_send s.requests (missing, requestor)
    refine { h with received := hreceived, requested := fun r hr => ?_, replied := fun r hr => ?_ }
    · rcases List.mem_append.1 (hall ▸ hr) with hr | hr
      · exact hrequested r hr
      · rw [List.mem_singleton.1 hr]
        exact ⟨serialized, by simp, hread⟩
    · refine (h.replied r hr).imp_right fun ⟨missing', hm, hd⟩ => ⟨missing', ?_, hd⟩
      change _ ∈ (s.requests.send (missing, requestor)).all
      rw [hall]
      exact List.mem_append_left _ hm
  · rw [he]
    exact { h with received := hreceived, requested := hrequested }

theorem Stored.help {request : List Digest × PublicKey} {requests : Channel (List Digest × PublicKey)}
    (h : Stored c s) (hrecv : s.requests.recv = some (request, requests)) :
    Stored c (c.help request { s with requests }) := by
  have hall := Channel.all_of_recv hrecv
  have hsame : Stored c { s with requests } :=
    { h with
      requested := fun r hr => h.requested r (hall ▸ hr)
      replied := fun r hr => (h.replied r hr).imp_right fun ⟨missing, hm, hd⟩ =>
        ⟨missing, hall.symm ▸ hm, hd⟩ }
  unfold WorkerConfig.help
  split_ifs
  · refine { hsame with replied := fun r hr => ?_ }
    rcases List.mem_append.1 hr with hr | hr
    · exact hsame.replied r hr
    · obtain ⟨data, hdata, rfl⟩ := List.mem_map.1 hr
      obtain ⟨d, hd, hl⟩ := List.mem_filterMap.1 hdata
      obtain ⟨rfl, hp⟩ := h.store.under d data hl
      refine ⟨hp, request.1, ?_, hd⟩
      change _ ∈ requests.all
      rw [hall]
      exact Channel.mem_all_of_recv hrecv
  · exact hsame

theorem Stored.turn (h : Stored c s) (ht : c.Turns s event t) : Stored c t := by
  cases ht with
  | fill | full | idle | late => exact { h with }
  | @waited completed pending batch sealed sent hrecv hothers hsent =>
    refine { h with waited := ?_, handlers := fun m hm => ?_, forwarded := ?_ }
    · rw [List.map_append, h.waited, Channel.taken_of_recv hrecv]
      rfl
    · rcases List.mem_append.1 hm with hm | hm
      · exact h.handlers m hm
      · rw [List.mem_singleton.1 hm]
        exact hothers
    · change (s.ownBatches.sendAll sent).all = _
      rw [Channel.all_sendAll, h.forwarded, List.flatMap_append, List.flatMap_singleton, hsent]
  | own hrecv => exact h.ownTurn hrecv
  | others hrecv => exact h.othersTurn hrecv
  | frame serialized => exact h.frame serialized
  | helper hrecv => exact h.help hrecv
  | primary message now =>
    obtain ⟨_, _, _, _, _, _, he⟩ := syncs_handlePrimary c now s message
    rw [he]
    exact { h with }
  | @result i w waiting polled =>
    obtain ⟨_, _, _, _, _, _, he⟩ := syncs_deliver w waiting s polled
    rw [he]
    exact { h with }
  | timer now =>
    obtain ⟨_, _, he⟩ := retry_eq c now s
    rw [he]
    exact { h with }

theorem stored_init : Stored c {} :=
  ⟨rfl, by simp, rfl, rfl, rfl, ContentStore.empty.congr fun bytes => by simp [Processed],
    by simp [Channel.all], by simp [Channel.all], by simp⟩

theorem stored_run (h : c.run events = some s) : Stored c s :=
  run_keeps (P := fun _ s => Stored c s) stored_init (fun _ _ _ _ hs ht => hs.turn ht) h

omit [Crypto] [Bincode] in
/-- Each message gives its batch, or nothing. -/
theorem flatMap_receive_sublist (waited : List QuorumWaiterMessage) :
    (waited.flatMap fun m => (c.quorumWaiter.receive m).1).Sublist
      (waited.map QuorumWaiterMessage.batch) := by
  induction waited with
  | nil => exact .refl []
  | cons m waited ih =>
    rw [List.flatMap_cons, List.map_cons, QuorumWaiter.receive_fst]
    split_ifs
    · exact ih.cons_cons m.batch
    · exact ih.cons m.batch

/-- The digests reported of own batches are those of batches in the order of sealing, each as often.
For each the completed handlers make a quorum with the node itself, and it has a message in the
store. -/
theorem own_reported (h : c.run events = some s) :
    (s.toPrimary.filterMap ours).Sublist (s.sealed.all.map fun b => (Crypto.sha512 b, c.id)) ∧
      ∀ e ∈ s.toPrimary.filterMap ours, ∃ m ∈ s.waited, e.1 = Crypto.sha512 m.batch ∧
        (m.completed.map Prod.fst ++ m.pending).Perm c.others ∧
        c.committee.quorumThreshold ≤
          c.committee.stake c.name + c.quorumWaiter.completedStake m ∧
        ∃ bytes, s.store.lookup e.1 = some bytes ∧ Crypto.sha512 bytes = e.1 := by
  have hs := stored_run h
  refine ⟨?_, fun e he => ?_⟩
  · rw [hs.own]
    refine List.Sublist.map _ (s.ownBatches.taken_prefix_all.sublist.trans ?_)
    rw [hs.forwarded]
    refine (flatMap_receive_sublist s.waited).trans ?_
    rw [hs.waited]
    exact s.sealed.taken_prefix_all.sublist
  · rw [hs.own] at he
    obtain ⟨batch, hb, rfl⟩ := List.mem_map.1 he
    have hall := s.ownBatches.taken_prefix_all.subset hb
    rw [hs.forwarded] at hall
    obtain ⟨m, hm, hsent⟩ := List.mem_flatMap.1 hall
    rw [QuorumWaiter.receive_fst] at hsent
    split_ifs at hsent with hquorum
    · rw [List.mem_singleton.1 hsent] at hb ⊢
      obtain ⟨bytes, hl, hd, -⟩ := hs.store.exists_of_mem (.inl hb)
      exact ⟨m, hm, rfl, hs.handlers m hm, hquorum, bytes, hl, hd⟩
    · cases hsent

omit [Crypto] [Bincode] in
theorem own_reported_four : letI := toyCrypto; letI := standardBincode
    ∃ s, workerOfFour.run (eventsOfFour ++ requestOfFour) = some s ∧
      (s.toPrimary.filterMap ours).Sublist
          (s.sealed.all.map fun b => (Crypto.sha512 b, workerOfFour.id)) ∧
        ∀ e ∈ s.toPrimary.filterMap ours, ∃ m ∈ s.waited, e.1 = Crypto.sha512 m.batch ∧
          (m.completed.map Prod.fst ++ m.pending).Perm workerOfFour.others ∧
          workerOfFour.committee.quorumThreshold ≤
            workerOfFour.committee.stake workerOfFour.name +
              workerOfFour.quorumWaiter.completedStake m ∧
          ∃ bytes, s.store.lookup e.1 = some bytes ∧ Crypto.sha512 bytes = e.1 := by
  obtain ⟨s, hs, -⟩ := run_requestOfFour
  exact ⟨s, hs, @own_reported _ _ toyCrypto standardBincode _ hs⟩

/-- The bytes of a batch, with anything behind them. -/
def IsBatch (bytes : List UInt8) : Prop :=
  ∃ transactions rest, bytes = Bincode.serialize (.batch transactions) ++ rest

theorem isBatch_of_processed [LawfulBincode] (h : c.run events = some s) {bytes : List UInt8}
    (hp : Processed s bytes) : IsBatch bytes := by
  have hs := stored_run h
  obtain ⟨batches, hd, -⟩ := dealt_run h
  rcases hp with hp | hp
  · have hall := s.ownBatches.taken_prefix_all.subset hp
    rw [hs.forwarded] at hall
    have hsealed := s.sealed.taken_prefix_all.subset
      (hs.waited ▸ (flatMap_receive_sublist s.waited).subset hall)
    rw [hd.sealed] at hsealed
    obtain ⟨batch, -, rfl⟩ := List.mem_map.1 hsealed
    exact ⟨batch, [], (List.append_nil _).symm⟩
  · obtain ⟨transactions, hread⟩ := (hs.received bytes (s.othersBatches.taken_prefix_all.subset hp)).2
    exact ⟨transactions, LawfulBincode.of_deserialize_batch bytes transactions hread⟩

/-- What is replied to a worker is a batch under a digest that this worker has asked for. -/
theorem replied_batches [LawfulBincode] (h : c.run events = some s) : ∀ r ∈ s.replies, IsBatch r.2 ∧
    ∃ frame ∈ s.acknowledged, ∃ missing,
      Bincode.deserialize frame = some (.ok (.batchRequest missing r.1)) ∧
        Crypto.sha512 r.2 ∈ missing := by
  intro r hr
  have hs := stored_run h
  obtain ⟨hp, missing, hm, hd⟩ := hs.replied r hr
  obtain ⟨frame, hf, hread⟩ := hs.requested _ hm
  exact ⟨isBatch_of_processed h hp, frame, hf, missing, hread, hd⟩

omit [Crypto] [Bincode] in
theorem replied_batches_four : letI := toyCrypto; letI := standardBincode
    ∃ s, workerOfFour.run (eventsOfFour ++ requestOfFour) = some s ∧ s.replies.map Prod.fst = [3] ∧
      ∀ r ∈ s.replies, IsBatch r.2 ∧ ∃ frame ∈ s.acknowledged, ∃ missing,
        Bincode.deserialize frame = some (.ok (.batchRequest missing r.1)) ∧
          Crypto.sha512 r.2 ∈ missing := by
  obtain ⟨s, hs, -, hr⟩ := run_requestOfFour
  exact ⟨s, hs, hr, @replied_batches _ _ toyCrypto standardBincode _ standardBincode_lawful hs⟩

end Stores

/-! ## What the primary misses -/

section Synchronizer

variable {d : Digest} {v : ℕ × ℕ × ℕ} {now : ℕ}

/-- The future of an entry of `pending`. -/
def Awaits (d : Digest) (v : ℕ × ℕ × ℕ) (w : Waiter Digest Digest) : Prop :=
  w.waitFor = [d] ∧ w.deliver = d ∧ w.handler = v.2.1

/-- The batch waits. -/
def awaited (now : ℕ) (d : Digest) (s : Worker) : Worker :=
  { s with
    waiting := s.waiting ++ [⟨[d], d, s.channels⟩]
    pending := s.pending.insert d (s.round, s.channels, now)
    channels := s.channels + 1 }

/-- The round of the request for a batch, whether it was made before or is made now. -/
def requestRound (s : Worker) (d : Digest) : ℕ := (s.pending.lookup d).elim s.round Prod.fst

section Requests

omit [Crypto] [Bincode]

theorem request_cases (now : ℕ) (r : Worker × List Digest) (d : Digest) :
    (∃ v, r.1.pending.lookup d = some v ∧ request now r d = r) ∨
      r.1.pending.lookup d = none ∧ (request now r d).1 = awaited now d r.1 := by
  unfold request
  rcases hl : r.1.pending.lookup d with _ | v
  · exact .inr ⟨rfl, rfl⟩
  · exact .inl ⟨v, rfl, rfl⟩

/-- What a request for a batch that does not wait yet keeps is kept by all requests. -/
theorem requests_induction {P : Worker → Prop}
    (hstep : ∀ s d, P s → s.pending.lookup d = none → P (awaited now d s)) :
    ∀ (digests : List Digest) (r : Worker × List Digest), P r.1 →
      P (digests.foldl (request now) r).1
  | [], _, h => h
  | d :: digests, r, h => by
    rw [List.foldl_cons]
    refine requests_induction hstep digests _ ?_
    rcases request_cases now r d with ⟨v, -, he⟩ | ⟨hl, he⟩
    · rwa [he]
    · rw [he]
      exact hstep r.1 d h hl

theorem lookup_awaited_of_some {d' : Digest} (h : s.pending.lookup d = some v)
    (hn : s.pending.lookup d' = none) : (awaited now d' s).pending.lookup d = some v := by
  refine (FinMap.lookup_insert_ite _ _ _ _).trans ((if_neg ?_).trans h)
  rintro rfl
  cases h.symm.trans hn

theorem lookup_requests_of_some (digests : List Digest) {r : Worker × List Digest}
    (h : r.1.pending.lookup d = some v) :
    (digests.foldl (request now) r).1.pending.lookup d = some v :=
  requests_induction (P := fun s => s.pending.lookup d = some v)
    (fun _ _ hl hn => lookup_awaited_of_some hl hn) digests r h

/-- After the loop every batch waits, since the round of its first request. -/
theorem lookup_requests (now : ℕ) : ∀ (digests : List Digest) (r : Worker × List Digest),
    d ∈ digests → ∃ v, (digests.foldl (request now) r).1.pending.lookup d = some v ∧
      v.1 = requestRound r.1 d
  | [], _, h => by cases h
  | x :: digests, r, h => by
    rw [List.foldl_cons]
    rcases request_cases now r x with ⟨v, hl, he⟩ | ⟨hl, he⟩
    · rw [he]
      rcases List.mem_cons.1 h with rfl | h
      · exact ⟨v, lookup_requests_of_some digests hl, by rw [requestRound, hl, Option.elim_some]⟩
      · exact lookup_requests now digests r h
    · by_cases hx : d = x
      · subst hx
        refine ⟨(r.1.round, r.1.channels, now), lookup_requests_of_some digests ?_, ?_⟩
        · rw [he]
          exact AList.lookup_insert _
        · rw [requestRound, hl, Option.elim_none]
      · obtain ⟨v, hv, hr⟩ := lookup_requests now digests (request now r x)
          ((List.mem_cons.1 h).resolve_left hx)
        refine ⟨v, hv, hr.trans ?_⟩
        rw [he, requestRound, requestRound, awaited, AList.lookup_insert_ne hx]

theorem mem_senders (h : s.pending.lookup d = some v) : v.2.1 ∈ senders s :=
  List.mem_map.2 ⟨v, FinMap.mem_values.2 ⟨d, h⟩, rfl⟩

theorem mem_stored : d ∈ stored s ↔ (s.store.lookup d).isSome := by
  rw [stored, List.mem_toFinset, FinMap.mem_keys_iff, Option.isSome_iff_exists]

end Requests

omit [Crypto] in
theorem synchronize_eq (digests : List Digest) (target : PublicKey) (now : ℕ) (s : Worker) :
    ∃ syncs, c.synchronize digests target now s =
      { (digests.foldl (request now) (s, [])).1 with syncs } := by
  unfold synchronize
  simp only []
  split_ifs <;> exact ⟨_, rfl⟩

/-- Every entry of `pending` has its future, and each future waits for what it delivers. -/
structure Waits (s : Worker) : Prop where
  served : Waiter.Served Awaits s.pending s.waiting
  waitFor : ∀ w ∈ s.waiting, w.waitFor = [w.deliver]

omit [Crypto] [Bincode] in
theorem Waits.requests (h : Waits s) (now : ℕ) (digests : List Digest) :
    Waits (digests.foldl (request now) (s, [])).1 :=
  requests_induction (fun s d h _ => ⟨h.served.insert ⟨rfl, rfl, rfl⟩, fun w hw => by
    rcases List.mem_append.1 hw with hw | hw
    · exact h.waitFor w hw
    · rw [List.mem_singleton.1 hw]⟩) digests (s, []) h

theorem Waits.turn (h : Waits s) (ht : c.Turns s event t) : Waits t := by
  cases ht with
  | fill | full | idle | late | waited | own | others => exact ⟨h.served, h.waitFor⟩
  | frame serialized =>
    obtain ⟨_, _, he⟩ := dispatch_eq serialized s
    rw [he]
    exact ⟨h.served, h.waitFor⟩
  | @helper request requests =>
    obtain ⟨_, he⟩ := help_eq c request { s with requests }
    rw [he]
    exact ⟨h.served, h.waitFor⟩
  | primary message now =>
    cases message with
    | synchronize digests target =>
      obtain ⟨_, he⟩ := synchronize_eq (c := c) digests target now s
      have hr := h.requests now digests
      rw [handlePrimary, he]
      exact ⟨hr.served, hr.waitFor⟩
    | cleanup round =>
      simp only [handlePrimary, cleanup]
      split_ifs
      · exact ⟨h.served, h.waitFor⟩
      · exact ⟨h.served.retain _, h.waitFor⟩
  | @result i w waiting polled hw hr =>
    have hfor : ∀ w' ∈ waiting, w'.waitFor = [w'.deliver] := fun w' hw' =>
      h.waitFor w' (hw.mem_iff.2 (List.mem_cons_of_mem _ hw'))
    cases polled with
    | delivered =>
      refine ⟨(h.served.erase w.deliver).leave hw fun name v hl hR => ?_, hfor⟩
      rw [← hR.2.1, AList.lookup_erase] at hl
      cases hl
    | cancelled =>
      refine ⟨h.served.leave hw fun name v hl hR => of_decide_eq_true hr ?_, hfor⟩
      exact hR.2.2 ▸ mem_senders hl
  | timer now =>
    obtain ⟨_, _, he⟩ := retry_eq c now s
    rw [he]
    exact ⟨h.served, h.waitFor⟩

/-- What was stored stays. -/
theorem Turns.stored (ht : c.Turns s event t) (h : (s.store.lookup d).isSome) :
    (t.store.lookup d).isSome := by
  have hprocess : ∀ (message : Digest → ℕ → WorkerPrimaryMessage) batch s',
      (s'.store.lookup d).isSome → ((c.process message batch s').store.lookup d).isSome := by
    intro message batch s' hs
    change ((s'.store.insert _ _).lookup d).isSome
    rw [FinMap.lookup_insert_ite]
    split
    · rfl
    · exact hs
  cases ht with
  | fill | full | idle | late | waited => exact h
  | own | others => exact hprocess _ _ _ h
  | frame serialized =>
    obtain ⟨_, _, he⟩ := dispatch_eq serialized s
    rwa [he]
  | @helper request requests =>
    obtain ⟨_, he⟩ := help_eq c request { s with requests }
    rwa [he]
  | primary message now =>
    obtain ⟨_, _, _, _, _, _, he⟩ := syncs_handlePrimary c now s message
    rwa [he]
  | @result i w waiting polled =>
    obtain ⟨_, _, _, _, _, _, he⟩ := syncs_deliver w waiting s polled
    rwa [he]
  | timer now =>
    obtain ⟨_, _, he⟩ := retry_eq c now s
    rwa [he]

theorem waits_run (h : c.run events = some s) : Waits s :=
  run_keeps (P := fun _ s => Waits s) ⟨fun _ _ hl => (by cases hl), by simp⟩
    (fun _ _ _ _ hs ht => hs.turn ht) h

/-- What has become of a batch since it was asked for in round `r`. -/
def Fate (c : WorkerConfig) (log : List Event) (d : Digest) (r : ℕ) (s : Worker) : Prop :=
  (s.store.lookup d).isSome ∨ (∃ v, s.pending.lookup d = some v ∧ v.1 = r) ∨
    ∃ round, (∃ now, .primary (.cleanup round) now ∈ log) ∧ c.gcDepth ≤ round ∧ r ≤ round - c.gcDepth

variable {log : List Event} {r : ℕ}

theorem Fate.turn (h : Fate c log d r s) (hw : Waits s) (ht : c.Turns s event t) :
    Fate c (log ++ [event]) d r t := by
  rcases h with hstored | ⟨v, hl, hr⟩ | ⟨round, ⟨now, hmem⟩, hround⟩
  · exact .inl (ht.stored hstored)
  · cases ht with
    | fill | full | idle | late | waited | own | others => exact .inr (.inl ⟨v, hl, hr⟩)
    | frame serialized =>
      obtain ⟨_, _, he⟩ := dispatch_eq serialized s
      rw [he]
      exact .inr (.inl ⟨v, hl, hr⟩)
    | @helper request requests =>
      obtain ⟨_, he⟩ := help_eq c request { s with requests }
      rw [he]
      exact .inr (.inl ⟨v, hl, hr⟩)
    | primary message now =>
      cases message with
      | synchronize digests target =>
        obtain ⟨_, he⟩ := synchronize_eq (c := c) digests target now s
        rw [handlePrimary, he]
        exact .inr (.inl ⟨v, lookup_requests_of_some digests hl, hr⟩)
      | cleanup round =>
        simp only [handlePrimary, cleanup]
        split_ifs with hgc
        · exact .inr (.inl ⟨v, hl, hr⟩)
        · rcases Nat.lt_or_ge (round - c.gcDepth) v.1 with hlt | hle
          · exact .inr (.inl ⟨v, FinMap.lookup_retain_eq_some.2 ⟨hl, decide_eq_true hlt⟩, hr⟩)
          · exact .inr (.inr ⟨round, ⟨now, by simp⟩, not_lt.1 hgc, hr ▸ hle⟩)
    | @result i w waiting polled hperm hreturns =>
      cases polled with
      | delivered =>
        by_cases hd : d = w.deliver
        · -- What is delivered is in the store.
          have hfor := hw.waitFor w (hperm.mem_iff.2 List.mem_cons_self)
          have hmem := Waiter.returns_delivered hreturns d (by rw [hfor, hd]; simp)
          exact .inl (mem_stored.1 hmem)
        · exact .inr (.inl ⟨v, (AList.lookup_erase_ne hd).trans hl, hr⟩)
      | cancelled => exact .inr (.inl ⟨v, hl, hr⟩)
    | timer now =>
      obtain ⟨_, _, he⟩ := retry_eq c now s
      rw [he]
      exact .inr (.inl ⟨v, hl, hr⟩)
  · exact .inr (.inr ⟨round, ⟨now, List.mem_append_left _ hmem⟩, hround⟩)

omit [Crypto] in
/-- With the message the batch waits. -/
theorem fate_synchronize (digests : List Digest) (target : PublicKey) (now : ℕ) (s : Worker)
    (hd : d ∈ digests) (log : List Event) :
    Fate c log d (requestRound s d) (c.synchronize digests target now s) := by
  obtain ⟨_, he⟩ := synchronize_eq (c := c) digests target now s
  obtain ⟨v, hl, hr⟩ := lookup_requests now digests (s, []) hd
  rw [he]
  exact .inr (.inl ⟨v, hl, hr⟩)

/-- A batch the primary has asked for is not forgotten: it is in the store, or it is waited for and
that is not cancelled, or the primary has cleaned up the round of the request. -/
theorem not_forgotten [LawfulBincode] {before after : List Event} {digests : List Digest}
    {target : PublicKey} {now : ℕ} {s₀ : Worker} (h₀ : c.run before = some s₀) (hd : d ∈ digests)
    (h : (.primary (.synchronize digests target) now :: after).foldlM c.step s₀ = some s) :
    (∃ bytes, s.store.lookup d = some bytes ∧ Crypto.sha512 bytes = d ∧ IsBatch bytes) ∨
      (∃ w ∈ s.waiting, w.waitFor = [d] ∧ w.deliver = d ∧ w.handler ∈ senders s) ∨
      ∃ round, (∃ now, .primary (.cleanup round) now ∈ after) ∧ c.gcDepth ≤ round ∧
        requestRound s₀ d ≤ round - c.gcDepth := by
  rw [List.foldlM_cons] at h
  obtain ⟨s₁, h₁, h⟩ := Option.bind_eq_some_iff.1 h
  have hrun₁ : c.run (before ++ [Event.primary (.synchronize digests target) now]) = some s₁ :=
    Runs.foldlM_concat_eq_some.2 ⟨s₀, h₀, h₁⟩
  have hfate₁ : Fate c [] d (requestRound s₀ d) s₁ := by
    rw [← Option.some.inj h₁]
    exact fate_synchronize digests target now s₀ hd []
  obtain ⟨hrun, hfate⟩ := Runs.foldlM_some_induction (P := fun l s =>
    c.run (before ++ [Event.primary (.synchronize digests target) now] ++ l) = some s ∧
      Fate c l d (requestRound s₀ d) s)
    ⟨by rw [List.append_nil]; exact hrun₁, hfate₁⟩
    (fun l event s t ⟨hrun, hfate⟩ ht => by
      rw [← List.append_assoc]
      exact ⟨Runs.foldlM_concat_eq_some.2 ⟨s, hrun, ht⟩,
        hfate.turn (waits_run hrun) (step_turns ht)⟩) h
  refine hfate.imp (fun hstored => ?_) (Or.imp_left fun ⟨v, hl, _⟩ => ?_)
  · obtain ⟨bytes, hl⟩ := Option.isSome_iff_exists.1 hstored
    obtain ⟨hhash, hp⟩ := (stored_run hrun).store.under d bytes hl
    exact ⟨bytes, hl, hhash, isBatch_of_processed hrun hp⟩
  · obtain ⟨w, hw, hfor, hdeliver, hhandler⟩ := (waits_run hrun).served d v hl
    exact ⟨w, hw, hfor, hdeliver, hhandler ▸ mem_senders hl⟩

/-- Node 0 has to ask node 1 for a batch, which then arrives. -/
def syncOfFour : List Event :=
  [.frame (Bincode.serialize (.batch [[7]])), .othersBatch, .result 0 .delivered]

omit [Crypto] [Bincode] in
theorem not_forgotten_four : letI := toyCrypto; letI := standardBincode
    ∃ d s, (.primary (.synchronize [d] 1) 0 :: syncOfFour).foldlM workerOfFour.step {} = some s ∧
      ((∃ bytes, s.store.lookup d = some bytes ∧ Crypto.sha512 bytes = d ∧ IsBatch bytes) ∨
        (∃ w ∈ s.waiting, w.waitFor = [d] ∧ w.deliver = d ∧ w.handler ∈ senders s) ∨
        ∃ round, (∃ now, .primary (.cleanup round) now ∈ syncOfFour) ∧ workerOfFour.gcDepth ≤ round ∧
          requestRound {} d ≤ round - workerOfFour.gcDepth) := by
  have h : letI := toyCrypto; letI := standardBincode
      ((.primary (.synchronize [Crypto.sha512 (Bincode.serialize (.batch [[7]]))] 1) 0 ::
        syncOfFour).foldlM workerOfFour.step {}).isSome := by decide +kernel
  obtain ⟨s, hs⟩ := Option.isSome_iff_exists.1 h
  exact ⟨_, s, hs, @not_forgotten _ _ toyCrypto standardBincode _ standardBincode_lawful [] _ _ _ _ _
    rfl (List.mem_singleton_self _) hs⟩

end Synchronizer

end WorkerConfig

end NovelDag
