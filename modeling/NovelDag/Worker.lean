import NovelDag.QuorumWaiter
import NovelDag.WorkerMessages
import NovelDag.Lib.Channel
import NovelDag.Lib.HashOrder
import NovelDag.Lib.Waiters

/-!
# A worker

The tasks of a worker, as `Worker::spawn` connects them, with Byzantine behaviour switched off. The
batch maker packs the transactions of clients into batches and broadcasts them; the quorum waiter sends
on those that a quorum has; a processor stores them, another one those of other workers, and the digests
go to the primary. The helper answers requests for batches, and the synchronizer asks for the batches
the primary misses. An event is a turn of one task. The store is a finite map, and its reads do not
fail.
-/

namespace NovelDag

/-- The names in `Committee::others_workers`, the addresses left out. -/
def Committee.othersWorkers (committee : Committee) (myself : PublicKey) (id : ℕ) : List PublicKey :=
  (committee.authorities.toList.filter fun e => decide (e.1 ≠ myself ∧ id ∈ e.2.workers)).map Prod.fst

structure WorkerConfig where
  name : PublicKey
  id : ℕ
  committee : Committee
  batchSize : ℕ
  gcDepth : ℕ
  syncRetryDelay : ℕ
  order : HashOrder

inductive PrimaryWorkerMessage
  | synchronize (digests : List Digest) (target : PublicKey)
  | cleanup (round : ℕ)

inductive WorkerPrimaryMessage
  | ourBatch (digest : Digest) (id : ℕ)
  | othersBatch (digest : Digest) (id : ℕ)
  deriving DecidableEq

/-- A request for batches goes to one of the other workers, or to some of them. -/
inductive BatchSync
  | send (receiver : PublicKey) (bytes : List UInt8)
  | luckyBroadcast (receivers : List PublicKey) (bytes : List UInt8)

structure Worker where
  currentBatch : Batch := []
  currentBatchSize : ℕ := 0
  /-- From the batch maker to the quorum waiter. -/
  sealed : Channel (List UInt8) := {}
  /-- What the quorum waiter is done with. -/
  waited : List QuorumWaiterMessage := []
  ownBatches : Channel (List UInt8) := {}
  /-- The messages of other workers that were acknowledged. -/
  acknowledged : List (List UInt8) := []
  othersBatches : Channel (List UInt8) := {}
  requests : Channel (List Digest × PublicKey) := {}
  store : FinMap Digest (List UInt8) := ∅
  round : ℕ := 0
  /-- The round in which a batch was asked for, the sender of the cancel channel, and when it was. -/
  pending : FinMap Digest (ℕ × ℕ × ℕ) := ∅
  waiting : List (Waiter Digest Digest) := []
  /-- How many cancel channels were made. -/
  channels : ℕ := 0
  /-- How often a map was iterated. -/
  iterations : ℕ := 0
  toPrimary : List WorkerPrimaryMessage := []
  /-- What the batch maker, the helper and the synchronizer have sent over the network. -/
  broadcasts : List (List PublicKey × List UInt8) := []
  replies : List (PublicKey × List UInt8) := []
  syncs : List BatchSync := []

namespace WorkerConfig

variable [Crypto] [Bincode] (c : WorkerConfig)

inductive Event
  | transaction (transaction : Transaction)
  | batchTimer
  /-- The quorum waiter is done with a batch: the handlers that have completed, and the others. -/
  | quorumWaiter (completed : List (PublicKey × Completion)) (pending : List PublicKey)
  | ownBatch
  | othersBatch
  /-- A frame from another worker. -/
  | frame (serialized : List UInt8)
  | helper
  | primary (message : PrimaryWorkerMessage) (now : ℕ)
  | result (i : ℕ) (polled : Polled)
  | timer (now : ℕ)

/-! ## Batches -/

omit [Crypto] [Bincode] in
def others : List PublicKey := c.committee.othersWorkers c.name c.id

def sealBatch (s : Worker) : Worker :=
  let serialized := Bincode.serialize (.batch s.currentBatch)
  { s with
    currentBatch := []
    currentBatchSize := 0
    broadcasts := s.broadcasts ++ [(c.others, serialized)]
    sealed := s.sealed.send serialized }

def push (transaction : Transaction) (s : Worker) : Worker :=
  let s := { s with
    currentBatchSize := s.currentBatchSize + transaction.length
    currentBatch := s.currentBatch ++ [transaction] }
  if c.batchSize ≤ s.currentBatchSize then c.sealBatch s else s

def quorumWaiter : QuorumWaiter := ⟨c.committee, c.committee.stake c.name⟩

/-- The quorum waiter takes a batch and is done with it. -/
def waitForQuorum (completed : List (PublicKey × Completion)) (pending : List PublicKey)
    (s : Worker) : Option Worker := do
  let (batch, sealed) ← s.sealed.recv
  if (completed.map Prod.fst ++ pending).Perm c.others then
    match c.quorumWaiter.receive ⟨batch, completed, pending⟩ with
    | (sent, true) =>
      some { s with
        sealed, waited := s.waited ++ [⟨batch, completed, pending⟩]
        ownBatches := s.ownBatches.sendAll sent }
    | (_, false) => none -- It still waits.
  else none

/-- A processor hashes a batch, stores it and reports it. -/
def process (message : Digest → ℕ → WorkerPrimaryMessage) (batch : List UInt8) (s : Worker) : Worker :=
  let digest := Crypto.sha512 batch
  { s with
    store := s.store.insert digest batch
    toPrimary := s.toPrimary ++ [message digest c.id] }

/-! ## Messages of other workers -/

/-- `WorkerReceiverHandler::dispatch`. Where it panics the task of the connection ends. -/
def dispatch (serialized : List UInt8) (s : Worker) : Worker :=
  let s := { s with acknowledged := s.acknowledged ++ [serialized] }
  match Bincode.deserialize serialized with
  | some (.ok (.batch _)) => { s with othersBatches := s.othersBatches.send serialized }
  | some (.ok (.batchRequest missing requestor)) =>
    { s with requests := s.requests.send (missing, requestor) }
  | _ => s

/-- The helper answers a request as well as it can. -/
def help (request : List Digest × PublicKey) (s : Worker) : Worker :=
  if (c.committee.worker request.2 c.id).isOk then
    { s with
      replies := s.replies ++ (request.1.filterMap s.store.lookup).map fun data => (request.2, data) }
  else s

/-! ## The synchronizer -/

/-- One step of the loop over the digests to synchronize. -/
def request (now : ℕ) (r : Worker × List Digest) (digest : Digest) : Worker × List Digest :=
  if (r.1.pending.lookup digest).isSome then r
  else
    ({ r.1 with
        waiting := r.1.waiting ++ [⟨[digest], digest, r.1.channels⟩]
        pending := r.1.pending.insert digest (r.1.round, r.1.channels, now)
        channels := r.1.channels + 1 },
      if (r.1.store.lookup digest).isSome then r.2 else r.2 ++ [digest])

def synchronize (digests : List Digest) (target : PublicKey) (now : ℕ) (s : Worker) : Worker :=
  let (s, missing) := digests.foldl (request now) (s, [])
  if (c.committee.worker target c.id).isOk then
    { s with
      syncs := s.syncs ++ [.send target (Bincode.serialize (.batchRequest missing c.name))] }
  else s

/-- An entry that goes takes its sender with it, which cancels its future. -/
def cleanup (round : ℕ) (s : Worker) : Worker :=
  let s := { s with round }
  if s.round < c.gcDepth then s
  else { s with pending := s.pending.retain fun _ v => decide (s.round - c.gcDepth < v.1) }

def handlePrimary (now : ℕ) (s : Worker) : PrimaryWorkerMessage → Worker
  | .synchronize digests target => c.synchronize digests target now s
  | .cleanup round => c.cleanup round s

/-- The senders of the cancel channels. -/
def senders (s : Worker) : List ℕ := s.pending.values.map fun v => v.2.1

/-- The keys of the store. -/
def stored (s : Worker) : Finset Digest := s.store.keys.toFinset

/-- A future returned: one that was cancelled is gone. -/
def deliver (w : Waiter Digest Digest) (s : Worker) : Polled → Worker
  | .delivered => { s with pending := s.pending.erase w.deliver }
  | .cancelled => s

/-- Ask some of the others for the batches that were asked for too long ago. -/
def retry (now : ℕ) (s : Worker) : Worker :=
  let retry := (c.order.order s.iterations s.pending.entries).filterMap fun entry =>
    if entry.2.2.2 + c.syncRetryDelay < now then some entry.1 else none
  let s := { s with iterations := s.iterations + 1 }
  if retry.isEmpty then s
  else { s with
    syncs := s.syncs ++
      [.luckyBroadcast c.others (Bincode.serialize (.batchRequest retry c.name))] }

/-- A turn, unless it is not possible. -/
def step (s : Worker) : Event → Option Worker
  | .transaction transaction => some (c.push transaction s)
  | .batchTimer => if s.currentBatch.isEmpty then some s else some (c.sealBatch s)
  | .quorumWaiter completed pending => c.waitForQuorum completed pending s
  | .ownBatch => do
    let (batch, ownBatches) ← s.ownBatches.recv
    return c.process .ourBatch batch { s with ownBatches }
  | .othersBatch => do
    let (batch, othersBatches) ← s.othersBatches.recv
    return c.process .othersBatch batch { s with othersBatches }
  | .frame serialized => some (dispatch serialized s)
  | .helper => do
    let (request, requests) ← s.requests.recv
    return c.help request { s with requests }
  | .primary message now => some (c.handlePrimary now s message)
  | .result i polled => do
    let (w, waiting) ← Waiter.poll (stored s) (senders s) s.waiting i polled
    return deliver w { s with waiting } polled
  | .timer now => some (c.retry now s)

def run (events : List Event) : Option Worker := events.foldlM c.step {}

end WorkerConfig

end NovelDag
