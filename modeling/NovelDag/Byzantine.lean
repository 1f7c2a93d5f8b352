import NovelDag.Messages

/-!
# The equivocation attack

What a Byzantine primary signs instead of one header, and to whom each version goes. The addresses
of the primaries come from the committee file; here a function gives them. What the environment
configures is a `ByzantineConfig`.
-/

namespace NovelDag

structure ByzantineConfig (Address : Type) where
  equivocation : Bool := false
  variantCount : ℕ := 0
  byzantineAddresses : Finset Address := ∅

/-- A peer with its stake and the address of its primary. -/
structure Peer (Address : Type) where
  name : PublicKey
  stake : ℕ
  address : Address

namespace ByzantineConfig

variable {Address : Type} [DecidableEq Address] (config : ByzantineConfig Address)

/-! ## Headers -/

section Headers

variable [Crypto]

/-- A version of a header, with its digest as its id and signed by its author. -/
def signVariant (variant : Header) : Header :=
  let variant := { variant with id := variant.digest }
  { variant with signature := Crypto.sign variant.author variant.id }

/-- The payload dealt out over `count` versions, in the order of the digests. -/
def splitPayload (count : ℕ) (payload : SortedMap Digest ℕ) : List (SortedMap Digest ℕ) :=
  payload.toList.zipIdx.foldl (fun payloads e =>
    payloads.modify (e.2 % count) fun part => part.insert e.1.1 e.1.2) (List.replicate count ∅)

/-- The parents without those on any of our own branches, and the parent on the branch `tag`. -/
def branchParents (parents : SortedSet Digest) (mahiParentBranches : SortedMap ℕ Digest)
    (tag : ℕ) : SortedSet Digest :=
  let parents := parents.filter fun digest => decide (digest ∉ mahiParentBranches.values)
  match mahiParentBranches.lookup tag with
  | some parent => parents.insert parent
  | none => parents

/-- `payload.remove(digest)` for the digest at `index`, if there is one. -/
def removePayload (payload : SortedMap Digest ℕ) (index : ℕ) : SortedMap Digest ℕ :=
  match payload.keys[index]? with
  | some digest => payload.filter fun d _ => decide (d ≠ digest)
  | none => payload

def signedAttackHeaders (canonical : Header) (dagProtocol : DagProtocol)
    (mahiParentBranches : SortedMap ℕ Digest) : List Header :=
  if !config.equivocation || decide (canonical.round = 0) then [canonical]
  else if dagProtocol.isMahiMahi then
    let count := max config.variantCount 1
    (splitPayload count canonical.payload).zipIdx.map fun e =>
      signVariant { canonical with
        payload := e.1
        parents := branchParents canonical.parents mahiParentBranches (e.2 + 1)
        equivocationTag := e.2 + 1 }
  else
    canonical :: (List.range config.variantCount).map fun i =>
      signVariant { canonical with
        payload := removePayload canonical.payload i
        equivocationTag := i + 1 }

end Headers

/-! ## Targets -/

section Targets

variable (committee : Committee) (address : PublicKey → Address) (ownName : PublicKey)

/-- `Committee::others_primaries`. -/
def othersPrimaries (committee : Committee) (address : PublicKey → Address)
    (myself : PublicKey) : List (PublicKey × Address) :=
  (committee.names.filter fun name => decide (name ≠ myself)).map fun name => (name, address name)

/-- The honest and the Byzantine peers, each in the order of their keys. -/
def peers : List (Peer Address) × List (Peer Address) :=
  let all := (othersPrimaries committee address ownName).map fun e =>
    (⟨e.1, committee.stake e.1, e.2⟩ : Peer Address)
  let byzantine := all.filter fun peer => decide (peer.address ∈ config.byzantineAddresses)
  let honest := all.filter fun peer => decide (peer.address ∉ config.byzantineAddresses)
  (honest.insertionSort fun x y => x.name ≤ y.name,
    byzantine.insertionSort fun x y => x.name ≤ y.name)

/-- The honest peers taken until the stake reaches the threshold. -/
def countHonest (threshold : ℕ) : ℕ → List (Peer Address) → ℕ
  | _, [] => 0
  | stake, peer :: honest =>
    if threshold ≤ stake then 0 else countHonest threshold (stake + peer.stake) honest + 1

def canonicalHonestCount : ℕ :=
  let (honest, byzantine) := config.peers committee address ownName
  let stake := committee.stake ownName + (byzantine.map Peer.stake).sum
  countHonest committee.quorumThreshold stake honest

/-- Targets for the one branch that can be certified. -/
def canonicalTargets : List Address :=
  if !config.equivocation then (othersPrimaries committee address ownName).map Prod.snd
  else
    let (honest, byzantine) := config.peers committee address ownName
    let honestCount := config.canonicalHonestCount committee address ownName
    byzantine.map Peer.address ++ (honest.take honestCount).map Peer.address

/-- Targets for one conflicting branch: every Byzantine peer and one honest peer. -/
def variantTargets (tag : ℕ) (mahiMahi : Bool) : List Address :=
  if !config.equivocation || decide (tag = 0) then []
  else
    let (honest, byzantine) := config.peers committee address ownName
    let firstHonest := if mahiMahi then 0
      else config.canonicalHonestCount committee address ownName
    let honestIndex := firstHonest + tag - 1
    byzantine.map Peer.address ++ (honest[honestIndex]?.map Peer.address).toList

/-- To whom `process_own_header` sends the version with a tag. -/
def branchTargets (tag : ℕ) (mahiMahi : Bool) : List Address :=
  if !config.equivocation then config.canonicalTargets committee address ownName
  else if mahiMahi then config.variantTargets committee address ownName tag true
  else if tag = 0 then config.canonicalTargets committee address ownName
  else config.variantTargets committee address ownName tag false

end Targets

end ByzantineConfig

end NovelDag
