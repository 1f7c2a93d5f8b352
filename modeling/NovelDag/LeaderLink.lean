import NovelDag.Messages
import NovelDag.Lib.FinMap

/-!
# Leader links

The shares over delivered blocks that the nodes of Wahoo exchange, the pool a node keeps them in,
and the link to the previous leader that it builds from the pool and its peers verify. The threshold
scheme is a parameter: what it does with shares and aggregates under the keys of some authorities.
-/

namespace NovelDag

open Encoding Fallible

/-- The operations of the threshold scheme. The keys come from the authorities and the threshold. -/
class ThresholdBls where
  Share : Type
  Aggregate : Type
  /-- Deserialize a share. -/
  readShare : List UInt8 → Option Share
  /-- The share verifies under the key of an index. -/
  shareVerifies : List PublicKey → ℕ → ℕ → Share → List UInt8 → Bool
  combineSignatures : List PublicKey → ℕ → SortedMap ℕ Share → Option Aggregate
  aggregateVerifies : List PublicKey → ℕ → Aggregate → List UInt8 → Bool
  toBytes : Aggregate → List UInt8
  /-- `Signature::from_bytes`, of 96 bytes. -/
  fromBytes : List UInt8 → Option Aggregate

/-- More verified shares than the threshold make an aggregate that verifies, and an aggregate can be
read back from its bytes. -/
class LawfulBls [ThresholdBls] : Prop where
  combine : ∀ (authorities : List PublicKey) (threshold : ℕ) (message : List UInt8)
    (shares : SortedMap ℕ ThresholdBls.Share), threshold + 1 ≤ shares.toList.length →
      (∀ e ∈ shares.toList,
        ThresholdBls.shareVerifies authorities threshold e.1 e.2 message = true) →
      ∃ signature, ThresholdBls.combineSignatures authorities threshold shares = some signature ∧
        ThresholdBls.aggregateVerifies authorities threshold signature message = true
  length_toBytes : ∀ signature, (ThresholdBls.toBytes signature).length = 96
  fromBytes_toBytes : ∀ signature,
    ThresholdBls.fromBytes (ThresholdBls.toBytes signature) = some signature

/-! ## Shares -/

def authorityIndex (authorities : List PublicKey) (authority : PublicKey) : Option ℕ :=
  (authorities.insertionSort (· ≤ ·)).idxOf? authority

def recpMessage (round : ℕ) (blockHash : Digest) : List UInt8 :=
  "wahoo-recp-v1".toList.map (fun ch => UInt8.ofNat ch.toNat) ++
    (leBytes 8 round ++ blockHash.bytes)

def recpThreshold (committeeSize : ℕ) : ℕ := (committeeSize - 1) / 3

section Shares

variable [ThresholdBls] (authorities : List PublicKey) (threshold : ℕ)

/-- The index and the share, if the author is known and the share can be read and verifies. -/
def readRecpShare (authority : PublicKey) (round : ℕ) (blockHash : Digest)
    (shareBytes : List UInt8) : Option (ℕ × ThresholdBls.Share) := do
  let index ← authorityIndex authorities authority
  let share ← ThresholdBls.readShare shareBytes
  if ThresholdBls.shareVerifies authorities threshold index share (recpMessage round blockHash) then
    some (index, share)
  else none

def verifyRecpShare (authority : PublicKey) (round : ℕ) (blockHash : Digest)
    (shareBytes : List UInt8) : Bool :=
  (readRecpShare authorities threshold authority round blockHash shareBytes).isSome

/-- The shares that verify, the first one of each index. -/
def uniqueShares (round : ℕ) (blockHash : Digest) (shares : List (PublicKey × List UInt8)) :
    SortedMap ℕ ThresholdBls.Share :=
  (shares.filterMap fun e => readRecpShare authorities threshold e.1 round blockHash e.2).foldl
    (fun m e => m.alter e.1 fun share => share.getD e.2) ∅

def combineRecpShares (round : ℕ) (blockHash : Digest) (shares : List (PublicKey × List UInt8)) :
    Option (List UInt8) :=
  let unique := uniqueShares authorities threshold round blockHash shares
  if unique.toList.length < threshold + 1 then none
  else do
    let signature ← ThresholdBls.combineSignatures authorities threshold unique
    if ThresholdBls.aggregateVerifies authorities threshold signature (recpMessage round blockHash)
    then some (ThresholdBls.toBytes signature) else none

def verifyRecpAggregate (round : ℕ) (blockHash : Digest) (aggregateBytes : List UInt8) : Bool :=
  decide (aggregateBytes.length = 96) && (ThresholdBls.fromBytes aggregateBytes).any fun signature =>
    ThresholdBls.aggregateVerifies authorities threshold signature (recpMessage round blockHash)

end Shares

/-! ## The pool -/

/-- The shares by round, block hash and author. -/
abbrev RecpPool := FinMap ℕ (FinMap Digest (FinMap PublicKey RecpMessage))

section Pool

variable (committee : Committee)

/-- Absorb an incoming share, the first of its author for the block. -/
def handleRecp (pool : RecpPool) (recp : RecpMessage) : RecpPool :=
  if committee.stake recp.author = 0 then pool
  else
    let buckets := (pool.lookup recp.round).getD ∅
    let entry := (buckets.lookup recp.blockHash).getD ∅
    if (entry.lookup recp.author).isSome then pool
    else pool.insert recp.round (buckets.insert recp.blockHash (entry.insert recp.author recp))

/-- The stake of the authors of shares. -/
def recpWeight (entries : FinMap PublicKey RecpMessage) : ℕ :=
  (entries.keys.map committee.stake).sum

/-- For each author the share on the smallest block hash. -/
def sharePerAuthor (buckets : FinMap Digest (FinMap PublicKey RecpMessage)) :
    FinMap PublicKey RecpMessage :=
  (buckets.keys.insertionSort (· ≤ ·)).foldl (fun perAuthor h =>
    perAuthor ∪ (buckets.lookup h).getD ∅) ∅

variable [ThresholdBls]

/-- The proof of the first block hash with enough stake whose shares combine. -/
def exclusiveCommit (prev : ℕ) (buckets : FinMap Digest (FinMap PublicKey RecpMessage)) :
    Option LeaderLink :=
  (buckets.keys.insertionSort (· ≤ ·)).findSome? fun h =>
    let entries := (buckets.lookup h).getD ∅
    if committee.validityThreshold ≤ recpWeight committee entries then
      (combineRecpShares committee.names (recpThreshold committee.size) prev h
        (entries.entries.map fun e => (e.1, e.2.share))).map fun proofBytes =>
          { hash := some h, proof := .exclusiveCommit proofBytes }
    else none

/-- The shares of a proof that no block was committed. -/
def noCommitShares (buckets : FinMap Digest (FinMap PublicKey RecpMessage)) : List RecpMessage :=
  (sharePerAuthor buckets).values.insertionSort fun x y => x.author ≤ y.author

/-- Build the link of the block of an odd round from the shares of the previous odd round. -/
def buildLeaderLink (pool : RecpPool) (round : ℕ) : Option LeaderLink :=
  if round < 3 ∨ round % 2 = 0 then none
  else do
    let prev := round - 2
    let buckets ← pool.lookup prev
    let totalStake := (committee.names.map committee.stake).sum
    let nMinusF := totalStake - committee.validityThreshold + 1
    (exclusiveCommit committee prev buckets).orElse fun _ =>
      if nMinusF ≤ recpWeight committee (sharePerAuthor buckets) then
        some { hash := none, proof := .noCommit (noCommitShares buckets) }
      else none

namespace LeaderLink

/-- The proof holds under the keys of the committee, for the round it attests to. -/
def verifyWithCrypto (link : LeaderLink) (attestedRound : ℕ) : Except DagError Unit := do
  link.verifyStructure committee
  let threshold := recpThreshold committee.names.length
  match link.hash, link.proof with
  | some hash, .exclusiveCommit sig =>
    ensure (verifyRecpAggregate committee.names threshold attestedRound hash sig) .invalidLeaderLink
  | none, .noCommit recps =>
    recps.forM fun r => do
      ensure (r.round = attestedRound) .invalidLeaderLink
      ensure (verifyRecpShare committee.names threshold r.author r.round r.blockHash r.share)
        .invalidLeaderLink
  | _, _ => throw .certificateRequiresQuorum

end LeaderLink

end Pool

end NovelDag
