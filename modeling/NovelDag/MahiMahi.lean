import NovelDag.Consensus
import NovelDag.Lib.Worklist

/-!
# Mahi-Mahi consensus

Consensus over an uncertified DAG. All variants an author signed for a round are retained. Every
query of the DAG fills a cache, so the queries change the state; a failed assertion is an error with
its message. The recursive queries get fuel for the number of blocks and of rounds.
-/

namespace NovelDag

namespace MahiMahi

open Fallible

def leaderCount : ℕ := 2

structure SlotId where
  round : ℕ
  index : ℕ
  deriving DecidableEq

inductive LeaderDecision
  | commit (leader : Digest)
  | skip
  | undecided
  deriving DecidableEq

def LeaderDecision.isDecided : LeaderDecision → Bool
  | undecided => false
  | _ => true

structure LeaderSlot where
  id : SlotId
  authority : PublicKey
  deriving DecidableEq

structure DecisionRecord where
  slot : LeaderSlot
  decision : LeaderDecision
  deriving DecidableEq

/-! ## The DAG -/

structure MahiDag where
  byRound : SortedMap ℕ (SortedMap PublicKey (SortedSet Digest)) := ∅
  byDigest : FinMap Digest Certificate := ∅
  supportCache : FinMap (Digest × PublicKey × ℕ) (Option Digest) := ∅
  certificateCache : FinMap (Digest × Digest) Bool := ∅
  linkCache : FinMap (Digest × Digest) Bool := ∅

/-- Programs that query the DAG. -/
abbrev DagM := StateT MahiDag (Except String)

namespace MahiDag

def block (dag : MahiDag) (digest : Digest) : Option Certificate := dag.byDigest.lookup digest

def insert [Crypto] (dag : MahiDag) (certificate : Certificate) : MahiDag × Bool :=
  let digest := certificate.digest
  if (dag.block digest).isSome then (dag, false)
  else
    ({ dag with
        byRound := dag.byRound.alter certificate.round fun byAuthor =>
          (byAuthor.getD ∅).alter certificate.origin fun digests => (digests.getD ∅).insert digest
        byDigest := dag.byDigest.insert digest certificate }, true)

def new [Crypto] (genesis : List Certificate) : MahiDag :=
  genesis.foldl (fun dag certificate => (dag.insert certificate).1) {}

def highestRound (dag : MahiDag) : ℕ := dag.byRound.keys.getLast?.getD 0

def roundDigests (dag : MahiDag) (round : ℕ) : List Digest :=
  ((dag.byRound.lookup round).getD ∅).values.flatMap SortedSet.toList

def slotDigests (dag : MahiDag) (authority : PublicKey) (round : ℕ) : List Digest :=
  ((((dag.byRound.lookup round).getD ∅).lookup authority).getD ∅).toList

def roundCertificates (dag : MahiDag) (round : ℕ) : List Certificate :=
  (dag.roundDigests round).filterMap dag.block

/-- Fuel for a recursion down the rounds. -/
def fuel (dag : MahiDag) : ℕ := dag.byDigest.entries.length + dag.highestRound + 2

def cacheSupport (key : Digest × PublicKey × ℕ) (support : Option Digest) : DagM Unit :=
  modify fun dag => { dag with supportCache := dag.supportCache.insert key support }

def cacheCertificate (key : Digest × Digest) (certifies : Bool) : DagM Unit :=
  modify fun dag => { dag with certificateCache := dag.certificateCache.insert key certifies }

def cacheLink (key : Digest × Digest) (linked : Bool) : DagM Unit :=
  modify fun dag => { dag with linkCache := dag.linkCache.insert key linked }

/-- The loop of `find_support_inner` over the parents. -/
def findSupportLoop (inner : Digest → DagM (Option (Option Digest))) (from_ : Digest)
    (authority : PublicKey) (round : ℕ) : List Digest → DagM (Option (Option Digest))
  | [] => do
    cacheSupport (from_, authority, round) none
    return some none
  | parent :: parents => do
    match (← get).block parent with
    | none => return none
    | some block =>
      if block.round < round then findSupportLoop inner from_ authority round parents
      else if block.round = round ∧ block.origin = authority then do
        cacheSupport (from_, authority, round) (some parent)
        return some (some parent)
      else if round < block.round then do
        match ← inner parent with
        | some (some support) => do
          cacheSupport (from_, authority, round) (some support)
          return some (some support)
        | some none => findSupportLoop inner from_ authority round parents
        | none => return none
      else findSupportLoop inner from_ authority round parents

/-- `visiting` holds the blocks whose parents are being looked at. -/
def findSupportInner (authority : PublicKey) (round : ℕ) :
    ℕ → Digest → List Digest → DagM (Option (Option Digest))
  | 0, _, _ => return none
  | n + 1, from_, visiting => do
    let dag ← get
    match dag.supportCache.lookup (from_, authority, round) with
    | some cached => return some cached
    | none =>
      if from_ ∈ visiting then return none
      else match dag.block from_ with
        | none => return none
        | some block =>
          if block.round ≤ round then do
            cacheSupport (from_, authority, round) none
            return some none
          else
            findSupportLoop (fun parent => findSupportInner authority round n parent
              (from_ :: visiting)) from_ authority round block.header.parents.toList

/-- The first block at `(authority, round)` a depth-first traversal meets; the outer `none` means
that referenced history is incomplete. -/
def findSupport (from_ : Digest) (authority : PublicKey) (round : ℕ) :
    DagM (Option (Option Digest)) := do
  findSupportInner authority round (← get).fuel from_ []

def isVote (vote leader : Digest) : DagM (Option Bool) := do
  match (← get).block leader with
  | none => return none
  | some block =>
    let support ← findSupport vote block.origin block.round
    return support.map fun support => decide (support = some leader)

/-- The loop of `is_certificate` over the parents: the voters met, their stake, and whether
something was missing. -/
def isCertificateLoop (committee : Committee) (certificate leader : Digest) (voteRound : ℕ) :
    List Digest → List PublicKey → ℕ → Bool → DagM (Option Bool)
  | [], _, _, incomplete =>
    if incomplete then return none
    else do
      cacheCertificate (certificate, leader) false
      return some false
  | parent :: parents, voters, stake, incomplete => do
    match (← get).block parent with
    | none => isCertificateLoop committee certificate leader voteRound parents voters stake true
    | some block =>
      if block.round ≠ voteRound ∨ block.origin ∈ voters then
        isCertificateLoop committee certificate leader voteRound parents voters stake incomplete
      else
        match ← isVote parent leader with
        | some true =>
          if committee.quorumThreshold ≤ stake + committee.stake block.origin then do
            cacheCertificate (certificate, leader) true
            return some true
          else
            isCertificateLoop committee certificate leader voteRound parents
              (block.origin :: voters) (stake + committee.stake block.origin) incomplete
        | some false =>
          isCertificateLoop committee certificate leader voteRound parents voters stake incomplete
        | none => isCertificateLoop committee certificate leader voteRound parents voters stake true

/-- A decision-round block certifies a leader when its direct strong links contain a quorum of
distinct-author vote-round blocks supporting it. -/
def isCertificate (committee : Committee) (certificate leader : Digest) : DagM (Option Bool) := do
  let dag ← get
  match dag.certificateCache.lookup (certificate, leader) with
  | some cached => return some cached
  | none =>
    match dag.block certificate with
    | none => return none
    | some block =>
      isCertificateLoop committee certificate leader (block.round - 1)
        block.header.parents.toList [] 0 false

/-- The loop of `linked_inner` over the parents. -/
def linkedLoop (inner : Digest → DagM (Option Bool)) (from_ target : Digest) (targetRound : ℕ) :
    List Digest → Bool → DagM (Option Bool)
  | [], incomplete =>
    if incomplete then return none
    else do
      cacheLink (from_, target) false
      return some false
  | parent :: parents, incomplete => do
    match (← get).block parent with
    | none => linkedLoop inner from_ target targetRound parents true
    | some block =>
      if block.round < targetRound then
        linkedLoop inner from_ target targetRound parents incomplete
      else
        match ← inner parent with
        | some true => do
          cacheLink (from_, target) true
          return some true
        | some false => linkedLoop inner from_ target targetRound parents incomplete
        | none => linkedLoop inner from_ target targetRound parents true

def linkedInner (target : Digest) : ℕ → Digest → List Digest → DagM (Option Bool)
  | 0, _, _ => return none
  | n + 1, from_, visiting => do
    if from_ = target then return some true
    else
      let dag ← get
      match dag.linkCache.lookup (from_, target) with
      | some cached => return some cached
      | none =>
        if from_ ∈ visiting then return none
        else match dag.block target, dag.block from_ with
          | some targetBlock, some block =>
            if block.round ≤ targetBlock.round then do
              cacheLink (from_, target) false
              return some false
            else
              linkedLoop (fun parent => linkedInner target n parent (from_ :: visiting)) from_
                target targetBlock.round block.header.parents.toList false
          | _, _ => return none

/-- Reachability over both strong and weak links. -/
def linked (from_ target : Digest) : DagM (Option Bool) := do
  linkedInner target (← get).fuel from_ []

def pruneCaches (dag : MahiDag) (minRootRound : ℕ) : MahiDag :=
  let live (root : Digest) : Bool :=
    (dag.block root).elim false fun block => decide (minRootRound ≤ block.round)
  { dag with
    supportCache := dag.supportCache.retain fun key _ => live key.1
    certificateCache := dag.certificateCache.retain fun key _ => live key.1
    linkCache := dag.linkCache.retain fun key _ => live key.1 }

end MahiDag

/-! ## Deciding a slot -/

section Decide

open MahiDag

variable (committee : Committee) (waveLength : ℕ)

/-- Whether the blocks that pass a test come from authors with the stake of a quorum. -/
def quorumOf (test : Digest → DagM Bool) (missing : String) :
    List Digest → List PublicKey → ℕ → DagM Bool
  | [], _, _ => return false
  | digest :: digests, authors, stake => do
    if ← test digest then
      match (← get).block digest with
      | none => throw missing
      | some block =>
        if block.origin ∈ authors then quorumOf test missing digests authors stake
        else if committee.quorumThreshold ≤ stake + committee.stake block.origin then return true
        else
          quorumOf test missing digests (block.origin :: authors)
            (stake + committee.stake block.origin)
    else quorumOf test missing digests authors stake

/-- The candidates that a quorum of decision blocks certifies. -/
def supportedCandidates (decisionBlocks : List Digest) : List Digest → DagM (List Digest)
  | [] => return []
  | candidate :: candidates => do
    let certified ← quorumOf committee (fun decisionBlock => do
      return decide ((← isCertificate committee decisionBlock candidate) = some true))
      "indexed decision block" decisionBlocks [] 0
    let supported ← supportedCandidates decisionBlocks candidates
    return if certified then candidate :: supported else supported

def directDecision (slot : LeaderSlot) : DagM LeaderDecision := do
  let dag ← get
  let candidates := dag.slotDigests slot.authority slot.id.round
  let decisionBlocks := dag.roundDigests (slot.id.round + waveLength - 1)
  match ← supportedCandidates committee decisionBlocks candidates with
  | _ :: _ :: _ =>
    throw "Mahi-Mahi safety violation: multiple directly certified leaders in one slot"
  | [candidate] => return .commit candidate
  | [] =>
    let voteBlocks := dag.roundDigests (slot.id.round + waveLength - 2)
    let skipped ← quorumOf committee (fun voteBlock => do
      return decide ((← findSupport voteBlock slot.authority slot.id.round) = some none))
      "indexed vote block" voteBlocks [] 0
    return if skipped then .skip else .undecided

/-- Whether the anchor links a certificate for the candidate, and whether something was missing. -/
def anchorCertifies (anchor candidate : Digest) : List Digest → Bool → DagM (Bool × Bool)
  | [], incomplete => return (false, incomplete)
  | certificate :: certificates, incomplete => do
    match ← linked anchor certificate with
    | some true =>
      match ← isCertificate committee certificate candidate with
      | some true => return (true, incomplete)
      | some false => anchorCertifies anchor candidate certificates incomplete
      | none => anchorCertifies anchor candidate certificates true
    | some false => anchorCertifies anchor candidate certificates incomplete
    | none => anchorCertifies anchor candidate certificates true

/-- The candidates certified through the anchor. -/
def certifiedCandidates (anchor : Digest) (potentialCertificates : List Digest) :
    List Digest → Bool → DagM (List Digest × Bool)
  | [], incomplete => return ([], incomplete)
  | candidate :: candidates, incomplete => do
    let (certified, incomplete) ← anchorCertifies committee anchor candidate potentialCertificates
      incomplete
    let (rest, incomplete) ← certifiedCandidates anchor potentialCertificates candidates incomplete
    return (if certified then candidate :: rest else rest, incomplete)

def decideFromAnchor (slot : LeaderSlot) (anchor : Digest) : DagM LeaderDecision := do
  let dag ← get
  let candidates := dag.slotDigests slot.authority slot.id.round
  let potentialCertificates := dag.roundDigests (slot.id.round + waveLength - 1)
  match ← certifiedCandidates committee anchor potentialCertificates candidates false with
  | (_ :: _ :: _, _) =>
    throw "Mahi-Mahi safety violation: anchor links multiple certified leaders in one slot"
  | ([candidate], _) => return .commit candidate
  | ([], incomplete) => return if incomplete then .undecided else .skip

/-- The first later record past the decision round that is not skipped settles the slot. -/
def indirectDecision (slot : LeaderSlot) : List DecisionRecord → DagM LeaderDecision
  | [] => return .undecided
  | record :: later =>
    if record.slot.id.round ≤ slot.id.round + waveLength - 1 then indirectDecision slot later
    else match record.decision with
      | .skip => indirectDecision slot later
      | .undecided => return .undecided
      | .commit anchor => decideFromAnchor committee waveLength slot anchor

/-- The loop of `try_decide` over the pending slots, from the last to the first: the records in
the order of the slots, and the decisions taken. -/
def decideSlots : List LeaderSlot → FinMap SlotId LeaderDecision →
    DagM (List DecisionRecord × FinMap SlotId LeaderDecision)
  | [], decisions => return ([], decisions)
  | slot :: slots, decisions => do
    let (later, decisions) ← decideSlots slots decisions
    let cached := (decisions.lookup slot.id).getD .undecided
    let direct ← if cached.isDecided then pure cached
      else directDecision committee waveLength slot
    let decision ← if direct.isDecided then pure direct
      else indirectDecision committee waveLength slot later
    let decisions := if decision.isDecided then decisions.insert slot.id decision else decisions
    return (⟨slot, decision⟩ :: later, decisions)

end Decide

/-! ## The committer -/

structure MahiCommitter where
  dag : MahiDag
  waveLength : ℕ
  decisions : FinMap SlotId LeaderDecision
  lastDecided : Option SlotId
  emitted : List Digest

namespace MahiCommitter

def new [Crypto] (genesis : List Certificate) (waveLength : ℕ) : MahiCommitter where
  dag := MahiDag.new genesis
  waveLength
  decisions := ∅
  lastDecided := none
  emitted := genesis.map Certificate.digest

/-- The slot after the last one decided. -/
def firstPending (c : MahiCommitter) : SlotId :=
  match c.lastDecided with
  | some slot =>
    if slot.index + 1 < leaderCount then ⟨slot.round, slot.index + 1⟩ else ⟨slot.round + 1, 0⟩
  | none => ⟨1, 0⟩

/-- The slots from the first pending one up to a round. -/
def slotIds (first : SlotId) (maxLeaderRound : ℕ) : List SlotId :=
  (List.range' first.round (maxLeaderRound + 1 - first.round)).flatMap fun round =>
    let firstIndex := if round = first.round then first.index else 0
    (List.range' firstIndex (leaderCount - firstIndex)).map fun index => ⟨round, index⟩

/-- The leaders of the slots, up to the first whose leader is not known yet. -/
def leaderSlots [Crypto] (consensus : Consensus) (c : MahiCommitter) :
    List SlotId → Except String (List LeaderSlot)
  | [] => return []
  | id :: ids => do
    let coinRound := id.round + c.waveLength - 1
    match ← consensus.leaderAuthorityFromCertificates id.round coinRound id.index
      (c.dag.roundCertificates coinRound) with
    | none => return []
    | some authority => do
      let slots ← leaderSlots consensus c ids
      return ⟨id, authority⟩ :: slots

def pendingSlots [Crypto] (consensus : Consensus) (c : MahiCommitter) :
    Except String (List LeaderSlot) :=
  if c.dag.highestRound + 1 < c.waveLength then .ok []
  else
    leaderSlots consensus c (slotIds c.firstPending (c.dag.highestRound - (c.waveLength - 1)))

/-- The order of the output: by round, then by author, then by digest. -/
def outputLe (x y : Digest × Certificate) : Prop :=
  x.2.round < y.2.round ∨ (x.2.round = y.2.round ∧
    (x.2.origin < y.2.origin ∨ (x.2.origin = y.2.origin ∧ x.1 ≤ y.1)))

instance : DecidableRel outputLe := fun _ _ => inferInstanceAs (Decidable (_ ∨ _))

/-- The loop of `linearize`: what the leader reaches and has not been emitted. -/
def reachable (c : MahiCommitter) (leader : Digest) : List Digest :=
  Worklist.reach id (fun digest => decide (digest ∈ c.emitted))
    (fun _ digest => (c.dag.block digest).elim [] fun block => block.header.parents.toList)
    (1 + c.dag.byDigest.entries.length *
      (c.dag.byDigest.values.map fun block => block.header.parents.toList.length).sum)
    [leader] []

def linearize (c : MahiCommitter) (leader : Digest) :
    Except String (MahiCommitter × List Certificate) :=
  let reachable := c.reachable leader
  let blocks := reachable.filterMap fun digest => (c.dag.block digest).map fun block =>
    (digest, block)
  -- the comparison of the sort looks every digest up, as soon as there are two
  if 1 < reachable.length ∧ blocks.length < reachable.length then
    .error "reachable block is indexed"
  else
    let ordered := blocks.insertionSort outputLe
    .ok ({ c with emitted := ordered.map Prod.fst ++ c.emitted }, ordered.map Prod.snd)

/-- The loop of `try_decide` over the records, up to the first undecided one. -/
def outputRecords : List DecisionRecord → MahiCommitter →
    Except String (MahiCommitter × List Certificate)
  | [], c => .ok (c, [])
  | record :: records, c =>
    match record.decision with
    | .undecided => .ok (c, [])
    | .skip => outputRecords records { c with lastDecided := some record.slot.id }
    | .commit leader => do
      let (c, first) ← linearize { c with lastDecided := some record.slot.id } leader
      let (c, rest) ← outputRecords records c
      return (c, first ++ rest)

def tryDecide [Crypto] (consensus : Consensus) (c : MahiCommitter) :
    Except String (MahiCommitter × List Certificate) := do
  let slots ← c.pendingSlots consensus
  let ((records, decisions), dag) ←
    (decideSlots consensus.committee c.waveLength slots c.decisions).run c.dag
  let (c, sequence) ← outputRecords records { c with dag, decisions }
  return (match c.lastDecided with
    | none => c
    | some last => { c with dag := c.dag.pruneCaches (last.round - consensus.gcDepth) }, sequence)

end MahiCommitter

/-- The body of the loop of `run`. -/
def step [Crypto] (consensus : Consensus) (c : MahiCommitter) (certificate : Certificate) :
    Except String (MahiCommitter × List Certificate) :=
  let (dag, inserted) := c.dag.insert certificate
  let c := { c with dag }
  if inserted then c.tryDecide consensus else .ok (c, [])

/-- The committer after some certificates, none after a panic, and the sequence sent to
`tx_output`. -/
def run [Crypto] (consensus : Consensus) (waveLength : ℕ) (certificates : List Certificate) :
    Option MahiCommitter × List Certificate :=
  PrefixLog.run (fun c certificate => (step consensus c certificate).toOption)
    (MahiCommitter.new consensus.genesis waveLength) certificates

end MahiMahi

end NovelDag
