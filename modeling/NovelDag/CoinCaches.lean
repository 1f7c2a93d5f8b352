import NovelDag.ThresholdCoin

/-!
# The caches of the threshold coin

`ThresholdCoin` keeps the shares it made, what became of the last bytes it verified for each
authority and round, and the coins it recovered, each for a window of rounds. The BLS scheme with
the keys of the committee is a parameter.
-/

namespace NovelDag

open Encoding

structure ThresholdScheme (Share Sig : Type) where
  /-- `secret_key_share(index).sign(message)` -/
  sign : ℕ → List UInt8 → Share
  /-- `bincode::serialize(&share).ok()` -/
  serialize : Share → Option (List UInt8)
  /-- `bincode::deserialize(bytes).ok()` -/
  deserialize : List UInt8 → Option Share
  /-- `public_key_share(index).verify(share, message)` -/
  verifyShare : ℕ → Share → List UInt8 → Bool
  /-- `public_key_set.combine_signatures(shares).ok()` -/
  combineSignatures : SortedMap ℕ Share → Option Sig
  /-- `public_key_set.public_key().verify(signature, message)` -/
  verify : Sig → List UInt8 → Bool
  toBytes : Sig → List UInt8

structure CachedShare (Share : Type) where
  bytes : List UInt8
  share : Option Share

structure CoinCaches (Share : Type) where
  shareCache : FinMap (ℕ × ℕ) (List UInt8) := ∅
  verifiedShareCache : FinMap (ℕ × ℕ) (CachedShare Share) := ∅
  recoveredCache : SortedMap ℕ ℕ := ∅

def cacheRounds : ℕ := 256

def coinMessage (round : ℕ) : List UInt8 :=
  "narwhal-common-coin-v1".toList.map (fun ch => UInt8.ofNat ch.toNat) ++ leBytes 8 round

/-- Drop what is more than `cacheRounds` rounds older than the newest. -/
def retainRecent {ν : Type} (cache : FinMap (ℕ × ℕ) ν) (newestRound : ℕ) : FinMap (ℕ × ℕ) ν :=
  cache.retain fun key _ => decide (newestRound - cacheRounds ≤ key.1)

def retainRecentGeneratedShares (cache : FinMap (ℕ × ℕ) (List UInt8)) (newestRound : ℕ) :
    FinMap (ℕ × ℕ) (List UInt8) := retainRecent cache newestRound

def retainRecentVerifiedShares {Share : Type} (cache : FinMap (ℕ × ℕ) (CachedShare Share))
    (newestRound : ℕ) : FinMap (ℕ × ℕ) (CachedShare Share) := retainRecent cache newestRound

/-- The loop that removes the oldest round while there are too many. -/
def evictOldest : List (ℕ × ℕ) → List (ℕ × ℕ)
  | [] => []
  | e :: entries => if cacheRounds < (e :: entries).length then evictOldest entries else e :: entries

theorem evictOldest_sublist : ∀ entries : List (ℕ × ℕ), (evictOldest entries).Sublist entries
  | [] => .slnil
  | e :: entries => by
    rw [evictOldest]
    split_ifs
    · exact (evictOldest_sublist entries).cons e
    · exact List.Sublist.refl _

/-- Keep a coin recovered. -/
def cacheCoin (cache : SortedMap ℕ ℕ) (round coin : ℕ) : SortedMap ℕ ℕ :=
  ⟨evictOldest (cache.insert round coin).toList,
    (cache.insert round coin).sorted.sublist (evictOldest_sublist _)⟩

/-- `ThresholdCoin` without its caches. -/
structure CoinKeys (Share Sig : Type) where
  coinCommittee : CoinCommittee
  threshold : ℕ
  scheme : ThresholdScheme Share Sig

namespace CoinKeys

variable {Share Sig : Type} (keys : CoinKeys Share Sig)

/-- The coin of a signature, the first eight bytes of a hash. -/
def coinValue [Crypto] (signature : Sig) : ℕ :=
  let digest := Crypto.sha512 (
    "narwhal-common-coin-output-v1".toList.map (fun ch => UInt8.ofNat ch.toNat) ++
      keys.scheme.toBytes signature)
  leValue (digest.bytes.take 8)

/-- The coin as it is computed without caches. -/
def uncached [Crypto] : ThresholdCoin Share where
  coinCommittee := keys.coinCommittee
  threshold := keys.threshold
  verifyShare round index bytes := (keys.scheme.deserialize bytes).filter fun share =>
    keys.scheme.verifyShare index share (coinMessage round)
  combine round unique := do
    let signature ← keys.scheme.combineSignatures unique
    if keys.scheme.verify signature (coinMessage round) then some (keys.coinValue signature)
    else none

/-- `authority_indices.get(authority)` -/
def authorityIndex (authority : PublicKey) : Option ℕ :=
  keys.coinCommittee.authorities.findIdx? fun a => decide (a = authority)

def makeShare (s : CoinCaches Share) (authority : PublicKey) (round : ℕ) :
    Option (List UInt8) × CoinCaches Share :=
  match keys.authorityIndex authority with
  | none => (none, s)
  | some index =>
    match s.shareCache.lookup (round, index) with
    | some share => (some share, s)
    | none =>
      let share := keys.scheme.sign index (coinMessage round)
      match keys.scheme.serialize share with
      | none => (none, s)
      | some bytes =>
        let cache := s.shareCache.insert (round, index) bytes
        let verified := s.verifiedShareCache.insert (round, index) ⟨bytes, some share⟩
        (some bytes,
          { s with
            shareCache := retainRecentGeneratedShares cache round
            verifiedShareCache := retainRecentVerifiedShares verified round })

def verifyShare (s : CoinCaches Share) (round index : ℕ) (bytes message : List UInt8) :
    Option Share × CoinCaches Share :=
  match (s.verifiedShareCache.lookup (round, index)).filter fun cached =>
    decide (cached.bytes = bytes) with
  | some cached => (cached.share, s)
  | none =>
    let share := (keys.scheme.deserialize bytes).filter fun share =>
      keys.scheme.verifyShare index share message
    let cache := s.verifiedShareCache.insert (round, index) ⟨bytes, share⟩
    (share, { s with verifiedShareCache := retainRecentVerifiedShares cache round })

/-- The loop of `recover` over the shares. -/
def uniqueShares (round : ℕ) (message : List UInt8) : List (PublicKey × List UInt8) →
    SortedMap ℕ Share → CoinCaches Share → SortedMap ℕ Share × CoinCaches Share
  | [], unique, s => (unique, s)
  | (authority, bytes) :: shares, unique, s =>
    match keys.authorityIndex authority with
    | none => uniqueShares round message shares unique s
    | some index =>
      if (unique.lookup index).isSome then uniqueShares round message shares unique s
      else match keys.verifyShare s round index bytes message with
        | (none, s) => uniqueShares round message shares unique s
        | (some share, s) =>
          if (unique.insert index share).keys.length = keys.threshold + 1 then
            (unique.insert index share, s)
          else uniqueShares round message shares (unique.insert index share) s

/-- `recover` behind its loop. -/
def combineShares [Crypto] (s : CoinCaches Share) (round : ℕ) (unique : SortedMap ℕ Share) :
    Option ℕ × CoinCaches Share :=
  if unique.keys.length < keys.threshold + 1 then (none, s)
  else match keys.scheme.combineSignatures unique with
    | none => (none, s)
    | some signature =>
      if keys.scheme.verify signature (coinMessage round) then
        let coin := keys.coinValue signature
        (some coin, { s with recoveredCache := cacheCoin s.recoveredCache round coin })
      else (none, s)

def recover [Crypto] (s : CoinCaches Share) (round : ℕ) (shares : List (PublicKey × List UInt8)) :
    Option ℕ × CoinCaches Share :=
  match s.recoveredCache.lookup round with
  | some coin => (some coin, s)
  | none =>
    let (unique, s) := keys.uniqueShares round (coinMessage round) shares ∅ s
    keys.combineShares s round unique

inductive CoinCall
  | makeShare (authority : PublicKey) (round : ℕ)
  | recover (round : ℕ) (shares : List (PublicKey × List UInt8))

inductive CoinAnswer
  | share (bytes : Option (List UInt8))
  | coin (value : Option ℕ)

def answer [Crypto] (s : CoinCaches Share) : CoinCall → CoinAnswer × CoinCaches Share
  | .makeShare authority round =>
    let (bytes, s) := keys.makeShare s authority round
    (.share bytes, s)
  | .recover round shares =>
    let (value, s) := keys.recover s round shares
    (.coin value, s)

end CoinKeys

end NovelDag
