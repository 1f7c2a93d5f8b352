import NovelDag.CoreState
import NovelDag.Lib.HashOrder
import NovelDag.Lib.Waiters

/-!
# The waiters of a primary

The `HeaderWaiter` keeps the headers whose parents or payloads are missing, asks for these and gives
a header back to the core when the store has all of them; the `CertificateWaiter` does so for
certificates, and asks for nothing. An event is what the loop of a task awaits, with the consensus
round that is loaded at its end. The store is filled by other tasks, and its reads do not fail. As logs
the states hold what was sent and the rounds cleaned up to.
-/

namespace NovelDag

/-- `Committee::primary`, the addresses it returns left out. -/
def Committee.primary (committee : Committee) (name : PublicKey) : Except ConfigError Unit :=
  match committee.authorities.lookup name with
  | none => .error (.notInCommittee name)
  | some _ => .ok ()

/-- A key of the store: the digest of a certificate, or that of a batch with its worker's id. -/
inductive StoreKey
  | certificate (digest : Digest)
  | batch (digest : Digest) (workerId : ℕ)
  deriving DecidableEq

/-- What a header waits for. -/
def WaiterMessage.waitFor : WaiterMessage → List StoreKey
  | syncBatches missing _ => missing.map fun (digest, workerId) => .batch digest workerId
  | syncParents missing _ => missing.map .certificate

/-! ## The header waiter -/

structure HeaderWaiterConfig where
  name : PublicKey
  committee : Committee
  gcDepth : ℕ
  syncRetryDelay : ℕ
  order : HashOrder

/-- What goes to the network: a request to our worker, with who is to be asked, or to another primary,
or to some of them. -/
inductive SyncRequest
  | synchronize (workerId : ℕ) (digests : List Digest) (target : PublicKey)
  | send (receiver : PublicKey) (message : PrimaryMessage)
  | luckyBroadcast (message : PrimaryMessage)

structure HeaderWaiter where
  /-- The round of the header a certificate was asked for, and when. -/
  parentRequests : FinMap Digest (ℕ × ℕ) := ∅
  batchRequests : FinMap Digest ℕ := ∅
  /-- The round of a header, and the sender of its cancel channel. -/
  pending : FinMap Digest (ℕ × ℕ) := ∅
  waiting : List (Waiter StoreKey Header) := []
  /-- How many cancel channels were made. -/
  channels : ℕ := 0
  /-- How often a map was iterated. -/
  iterations : ℕ := 0
  store : Finset StoreKey := ∅
  panicked : Bool := false
  toCore : List Header := []
  network : List SyncRequest := []
  gcRounds : List ℕ := []

namespace HeaderWaiterConfig

variable (c : HeaderWaiterConfig)

inductive Event
  | message (message : WaiterMessage) (source : PublicKey) (now consensusRound : ℕ)
  | result (i : ℕ) (polled : Polled) (consensusRound : ℕ)
  | timer (now consensusRound : ℕ)
  /-- Another task writes to the store. -/
  | write (key : StoreKey)

/-- The future of `waiter`, and its entry in `pending`. -/
def push (message : WaiterMessage) (s : HeaderWaiter) : HeaderWaiter :=
  { s with
    pending := s.pending.insert message.deliver.id (message.deliver.round, s.channels)
    waiting := s.waiting ++ [⟨message.waitFor, message.deliver, s.channels⟩]
    channels := s.channels + 1 }

/-- One step of the loop that finds out which batches to ask for, by worker. -/
def requestBatch (round : ℕ) (r : FinMap Digest ℕ × FinMap ℕ (List Digest)) (batch : Digest × ℕ) :
    FinMap Digest ℕ × FinMap ℕ (List Digest) :=
  if (r.1.lookup batch.1).isSome then r
  else (r.1.insert batch.1 round, r.2.alter batch.2 fun digests => digests.getD [] ++ [batch.1])

/-- Ask our workers for batches, in the order of the map. A worker that is not ours is a panic. -/
def askWorkers (requiresSync : FinMap ℕ (List Digest)) (source : PublicKey) (s : HeaderWaiter) :
    HeaderWaiter :=
  let requests := c.order.order s.iterations requiresSync.entries
  let sent := requests.takeWhile fun request => (c.committee.worker c.name request.1).isOk
  { s with
    iterations := s.iterations + 1
    network := s.network ++ sent.map fun request => .synchronize request.1 request.2 source
    panicked := decide (sent.length < requests.length) }

def syncBatches (missing : List (Digest × ℕ)) (source : PublicKey) (deliver : Header)
    (s : HeaderWaiter) : HeaderWaiter :=
  let s := push (.syncBatches missing deliver) s
  let (batchRequests, requiresSync) :=
    missing.foldl (requestBatch deliver.round) (s.batchRequests, ∅)
  c.askWorkers requiresSync source { s with batchRequests }

/-- One step of the loop that finds out which certificates to ask for. -/
def requestParent (round now : ℕ) (r : FinMap Digest (ℕ × ℕ) × List Digest) (missing : Digest) :
    FinMap Digest (ℕ × ℕ) × List Digest :=
  if (r.1.lookup missing).isSome then r
  else (r.1.insert missing (round, now), r.2 ++ [missing])

/-- Ask the author of a header for certificates. It is a panic if it is not in the committee. -/
def askAuthor (requiresSync : List Digest) (author : PublicKey) (s : HeaderWaiter) : HeaderWaiter :=
  if requiresSync.isEmpty then s
  else if (c.committee.primary author).isOk then
    { s with network := s.network ++ [.send author (.certificatesRequest requiresSync c.name)] }
  else { s with panicked := true }

def syncParents (missing : List Digest) (header : Header) (now : ℕ) (s : HeaderWaiter) :
    HeaderWaiter :=
  let s := push (.syncParents missing header) s
  let (parentRequests, requiresSync) :=
    missing.foldl (requestParent header.round now) (s.parentRequests, [])
  c.askAuthor requiresSync header.author { s with parentRequests }

/-- A future returned: one that was cancelled is gone. -/
def deliver (w : Waiter StoreKey Header) (s : HeaderWaiter) : Polled → HeaderWaiter
  | .delivered =>
    { s with
      pending := s.pending.erase w.deliver.id
      batchRequests := w.deliver.payload.keys.foldl (fun m x => m.erase x) s.batchRequests
      parentRequests := (w.deliver.parents.toList ++ w.deliver.parents2.toList).foldl
        (fun m x => m.erase x) s.parentRequests
      toCore := s.toCore ++ [w.deliver] }
  | .cancelled => s

/-- Ask some of the others for the certificates that were asked for too long ago. -/
def retry (now : ℕ) (s : HeaderWaiter) : HeaderWaiter :=
  let retry := (c.order.order s.iterations s.parentRequests.entries).filterMap fun request =>
    if request.2.2 + c.syncRetryDelay < now then some request.1 else none
  let s := { s with iterations := s.iterations + 1 }
  if retry.isEmpty then s
  else { s with
    network := s.network ++ [.luckyBroadcast (.certificatesRequest retry c.name)] }

/-- The end of the loop. An entry that goes takes its sender with it, which cancels its future. -/
def cleanup (consensusRound : ℕ) (s : HeaderWaiter) : HeaderWaiter :=
  if c.gcDepth < consensusRound then
    let gcRound := consensusRound - c.gcDepth
    { s with
      pending := s.pending.retain fun _ v => decide (gcRound < v.1)
      batchRequests := s.batchRequests.retain fun _ round => decide (gcRound < round)
      parentRequests := s.parentRequests.retain fun _ v => decide (gcRound < v.1)
      gcRounds := s.gcRounds ++ [gcRound] }
  else s

/-- A message for a header that does not wait yet. -/
def accept (message : WaiterMessage) (source : PublicKey) (now : ℕ) (s : HeaderWaiter) :
    HeaderWaiter :=
  match message with
  | .syncBatches missing deliver => c.syncBatches missing source deliver s
  | .syncParents missing header => c.syncParents missing header now s

/-- The senders of the cancel channels. -/
def senders (s : HeaderWaiter) : List ℕ := s.pending.values.map Prod.snd

/-- A turn, unless the task has panicked or it is not possible. A turn that panics does not reach
the end of the loop. -/
def step (s : HeaderWaiter) : Event → Option HeaderWaiter
  | .write key => some { s with store := insert key s.store }
  | .message message source now consensusRound =>
    if s.panicked then none
    else if (s.pending.lookup message.deliver.id).isSome then some s -- It continues.
    else
      let s := c.accept message source now s
      if s.panicked then some s else some (c.cleanup consensusRound s)
  | .result i polled consensusRound =>
    if s.panicked then none
    else do
      let (w, waiting) ← Waiter.poll s.store (senders s) s.waiting i polled
      return c.cleanup consensusRound (deliver w { s with waiting } polled)
  | .timer now consensusRound =>
    if s.panicked then none else some (c.cleanup consensusRound (c.retry now s))

def run (events : List Event) : Option HeaderWaiter := events.foldlM c.step {}

end HeaderWaiterConfig

/-! ## The certificate waiter -/

structure CertificateWaiter where
  waiting : List (Waiter StoreKey Certificate) := []
  store : Finset StoreKey := ∅
  toCore : List Certificate := []

namespace CertificateWaiter

inductive Event
  | certificate (certificate : Certificate)
  | result (i : ℕ)
  /-- Another task writes to the store. -/
  | write (key : StoreKey)

/-- A turn, unless it is not possible. The futures have no cancel channels. -/
def step (s : CertificateWaiter) : Event → Option CertificateWaiter
  | .certificate certificate =>
    some { s with
      waiting := s.waiting ++
        [⟨certificate.header.parents.toList.map .certificate, certificate, 0⟩] }
  | .result i => do
    let (w, waiting) ← Waiter.poll s.store [] s.waiting i .delivered
    return { s with waiting, toCore := s.toCore ++ [w.deliver] }
  | .write key => some { s with store := insert key s.store }

def run (events : List Event) : Option CertificateWaiter := events.foldlM step {}

end CertificateWaiter

end NovelDag
