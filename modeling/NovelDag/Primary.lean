import NovelDag.Core
import NovelDag.Proposer

/-!
# A primary

The tasks of a primary that make its blocks, as `Primary::spawn` connects them: the core, the proposer
and the garbage collector, with Byzantine behaviour switched off. A move is a turn of one of them. A
task is given the next message of a channel from another task, or what comes from elsewhere: messages
of other primaries, digests of our workers, the timer, certificates that consensus has ordered, and
headers and certificates that the waiters give back. A task that panics takes nothing more, and the
others go on.
-/

namespace NovelDag

open Handler

structure PrimaryConfig where
  name : PublicKey
  committee : Committee
  dagProtocol : DagProtocol
  consensusProtocol : ConsensusProtocol
  gcDepth : ℕ
  headerSize : ℕ
  coinCommittee : CoinCommittee
  coin : ProposerCoin
  order : HashOrder
  payloads : ℕ → Finset (Digest × ℕ)

structure Primary where
  core : Core
  proposer : Proposer
  corePanicked : Bool := false
  proposerPanicked : Bool := false
  /-- How many headers of the proposer the core has received. -/
  headersReceived : ℕ := 0
  /-- The variable of the garbage collector's loop. -/
  lastCommittedRound : ℕ := 0

namespace PrimaryConfig

variable (c : PrimaryConfig)

def core : CoreConfig :=
  { name := c.name, committee := c.committee, dagProtocol := c.dagProtocol, gcDepth := c.gcDepth
    order := c.order, payloads := c.payloads }

def proposer : ProposerConfig :=
  { name := c.name, dagProtocol := c.dagProtocol, committee := c.committee
    consensusProtocol := c.consensusProtocol, headerSize := c.headerSize
    coinCommittee := c.coinCommittee, coin := c.coin }

/-- A turn of a task. -/
inductive Move
  | message (message : PrimaryMessage)
  | headerWaiter (header : Header)
  | certificateWaiter (certificate : Certificate)
  | header
  | signal
  | digest (digest : Digest) (workerId : ℕ)
  | timer
  | committed (certificate : Certificate)

variable [Crypto]

/-- The core handles an input. -/
def stepCore (s : Primary) (input : CoreConfig.Input) : Option Primary :=
  if s.corePanicked then none
  else match exec (c.core.handleInput input) s.core with
    | (.ok _, core) => some { s with core }
    | (.error _, core) => some { s with core, corePanicked := true }

/-- The proposer handles an event. -/
def stepProposer (s : Primary) (event : ProposerConfig.Event) : Option Primary :=
  if s.proposerPanicked then none
  else match c.proposer.step s.proposer event with
    | .ok proposer => some { s with proposer }
    | .error _ => some { s with proposerPanicked := true }

/-- The garbage collector receives a certificate. -/
def collect (s : Primary) (certificate : Certificate) : Option Primary :=
  if s.lastCommittedRound < certificate.round then
    let s := { s with lastCommittedRound := certificate.round }
    if s.corePanicked then some s else c.stepCore s (.consensusRound certificate.round)
  else some s

/-- What the core is given in a move, if it is a turn of the core. -/
def coreInput (s : Primary) : Move → Option CoreConfig.Input
  | .message (.certificatesRequest _ _) => none -- The helper answers it.
  | .message message => some (.message message)
  | .headerWaiter header =>
    if s.core.toHeaderWaiter.any fun m => decide (m.deliver = header) then some (.headerWaiter header)
    else none
  | .certificateWaiter certificate =>
    if certificate ∈ s.core.toCertificateWaiter then some (.certificateWaiter certificate) else none
  | .header => (s.proposer.toCore[s.headersReceived]?).map .proposer
  | _ => none

def step (s : Primary) : Move → Option Primary
  | .signal => do
    let signal ← s.core.toProposer[s.proposer.signals.length]?
    c.stepProposer s (.signal signal)
  | .digest digest workerId => c.stepProposer s (.digest digest workerId)
  | .timer => c.stepProposer s .timer
  | .committed certificate => c.collect s certificate
  | .header => do
    let input ← coreInput s .header
    c.stepCore { s with headersReceived := s.headersReceived + 1 } input
  | move => do
    let input ← coreInput s move
    c.stepCore s input

def init : Primary where
  core := c.core.init
  proposer := c.proposer.init

/-- The state after some moves, none where one of them is not possible. -/
def run (moves : List Move) : Option Primary := moves.foldlM c.step c.init

end PrimaryConfig

end NovelDag
