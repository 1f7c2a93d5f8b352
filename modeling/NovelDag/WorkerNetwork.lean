import NovelDag.Worker

/-!
# A network of workers

The workers of one id, one at each authority. Those outside a set run as the worker does, and those in
it send any frames. A worker outside the set acknowledges what it has received, and no handler is
closed, as the task of a connection does not end.
-/

namespace NovelDag

/-- Workers of one committee, and the authorities that may do anything. -/
structure WorkerNetwork where
  committee : Committee
  byzantine : Finset PublicKey
  worker : PublicKey → WorkerConfig
  named : ∀ a, (worker a).name = a
  shared : ∀ a, (worker a).committee = committee

namespace WorkerNetwork

open WorkerConfig

variable (n : WorkerNetwork)

/-- Whether the handlers of a batch may have completed as they did. -/
def acknowledges (s : PublicKey → Worker) (batch : List UInt8)
    (completed : List (PublicKey × Completion)) : Bool :=
  completed.all fun e => decide (e.2 = .acked ∧ (e.1 ∈ n.byzantine ∨ batch ∈ (s e.1).acknowledged))

/-- Whether a turn of a worker is possible. -/
def possible (s : PublicKey → Worker) (a : PublicKey) : Event → Bool
  | .quorumWaiter completed _ =>
    (s a).sealed.queue.head?.all fun batch => n.acknowledges s batch completed
  | _ => true

variable [Crypto] [Bincode]

/-- A turn of one worker, unless it is not possible. -/
def step (s : PublicKey → Worker) (turn : PublicKey × Event) : Option (PublicKey → Worker) :=
  if turn.1 ∉ n.byzantine ∧ n.possible s turn.1 turn.2 then do
    let t ← (n.worker turn.1).step (s turn.1) turn.2
    return Function.update s turn.1 t
  else none

def run (turns : List (PublicKey × Event)) : Option (PublicKey → Worker) :=
  turns.foldlM n.step fun _ => {}

end WorkerNetwork

end NovelDag
