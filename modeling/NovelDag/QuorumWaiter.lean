import NovelDag.Config

/-!
# The quorum waiter of a worker

A batch comes with one handler for each other worker it was sent to. The waiter adds up the stakes
of the handlers in the order in which they complete, and sends the batch on at a quorum.
-/

namespace NovelDag

/-- How a `CancelHandler` completes: the peer acknowledged, or the sender is gone. -/
inductive Completion
  | acked
  | closed
  deriving DecidableEq

/-- A batch with its handlers: those that complete, in the order in which they do, and those that
never do. -/
structure QuorumWaiterMessage where
  batch : List UInt8
  completed : List (PublicKey × Completion)
  pending : List PublicKey := []
  deriving DecidableEq

structure QuorumWaiter where
  committee : Committee
  stake : ℕ

namespace QuorumWaiter

/-- `waiter`: how the handler completes is not looked at. -/
def waiter (_waitFor : Completion) (deliver : ℕ) : ℕ := deliver

/-- The loop over `wait_for_quorum`, and whether it breaks at the threshold. -/
def waitForQuorum (threshold : ℕ) : ℕ → List ℕ → Bool
  | _, [] => false
  | totalStake, stake :: stakes =>
    if threshold ≤ totalStake + stake then true
    else waitForQuorum threshold (totalStake + stake) stakes

variable (q : QuorumWaiter)

/-- The stakes the handlers deliver. -/
def delivered (message : QuorumWaiterMessage) : List ℕ :=
  message.completed.map fun c => waiter c.2 (q.committee.stake c.1)

/-- One message in the main loop: what is sent on, and whether the loop goes on to the next. It does
not as long as a handler is pending that could still bring the quorum. -/
def receive (message : QuorumWaiterMessage) : List (List UInt8) × Bool :=
  if q.committee.quorumThreshold ≤ q.stake then ([message.batch], true)
  else if waitForQuorum q.committee.quorumThreshold q.stake (q.delivered message) then
    ([message.batch], true)
  else ([], message.pending.isEmpty)

/-- The main loop: what is sent on for each message received. -/
def run : List QuorumWaiterMessage → List (List (List UInt8))
  | [] => []
  | message :: messages =>
    match q.receive message with
    | (sent, true) => sent :: run messages
    | (sent, false) => [sent]

end QuorumWaiter

end NovelDag
