import NovelDag.CoinCaches
import NovelDag.Lib.Answers

/-!
# The caches do not show

What a cache holds is what would be computed, whatever was put in before and whatever has been
dropped. So a share is the share of its authority and round, and a coin is recovered as without
caches, or as it was recovered before.
-/

namespace NovelDag

open Answers

namespace CoinKeys

variable {Share Sig : Type}

/-- Shares and signatures of the scheme are unique: only an authority's own share of a message
verifies, enough of them combine to a signature that verifies, and there is one such signature. -/
structure UniqueScheme (keys : CoinKeys Share Sig) : Prop where
  serialize : ∀ share, ∃ bytes, keys.scheme.serialize share = some bytes ∧
    keys.scheme.deserialize bytes = some share
  verifyShare : ∀ index share message, keys.scheme.verifyShare index share message = true ↔
    share = keys.scheme.sign index message
  combine : ∀ message (shares : SortedMap ℕ Share), keys.threshold + 1 ≤ shares.keys.length →
    (∀ index share, shares.lookup index = some share →
      share = keys.scheme.sign index message) →
    ∃ signature, keys.scheme.combineSignatures shares = some signature ∧
      keys.scheme.verify signature message = true
  verify : ∀ message signature signature', keys.scheme.verify signature message = true →
    keys.scheme.verify signature' message = true → signature = signature'

variable [Crypto] {keys : CoinKeys Share Sig}

/-- The value is that of the signature of the round. -/
def IsCoin (keys : CoinKeys Share Sig) (round value : ℕ) : Prop :=
  ∃ signature, keys.scheme.verify signature (coinMessage round) = true ∧
    value = keys.coinValue signature

theorem UniqueScheme.isCoin_unique (h : UniqueScheme keys) {round v w : ℕ}
    (hv : keys.IsCoin round v) (hw : keys.IsCoin round w) : v = w := by
  obtain ⟨signature, hs, hvalue⟩ := hv
  obtain ⟨signature', hs', hvalue'⟩ := hw
  rw [hvalue, hvalue', h.verify _ _ _ hs hs']

/-! ## The uncached coin -/

/-- The members with a valid share in the list. -/
def validMembers (keys : CoinKeys Share Sig) (round : ℕ)
    (shares : List (PublicKey × List UInt8)) : Finset PublicKey :=
  ((shares.filter fun e => (keys.authorityIndex e.1).elim false fun index =>
    (keys.uncached.verifyShare round index e.2).isSome).map Prod.fst).toFinset

theorem mem_validMembers {round : ℕ} {shares : List (PublicKey × List UInt8)} {a : PublicKey} :
    a ∈ keys.validMembers round shares ↔ ∃ bytes index share, (a, bytes) ∈ shares ∧
      keys.authorityIndex a = some index ∧
        keys.uncached.verifyShare round index bytes = some share := by
  unfold validMembers
  simp only [List.mem_toFinset, List.mem_map, List.mem_filter, Prod.exists, exists_and_right,
    exists_eq_right]
  constructor
  · rintro ⟨bytes, hmem, hvalid⟩
    rcases hindex : keys.authorityIndex a with _ | index
    · simp [hindex] at hvalid
    · rw [hindex, Option.elim_some] at hvalid
      obtain ⟨share, hshare⟩ := Option.isSome_iff_exists.1 hvalid
      exact ⟨bytes, index, share, hmem, rfl, hshare⟩
  · rintro ⟨bytes, index, share, hmem, hindex, hshare⟩
    exact ⟨bytes, hmem, by rw [hindex, Option.elim_some, hshare]; rfl⟩

omit [Crypto] in
/-- Authorities have indexes of their own. -/
theorem authorityIndex_inj {a b : PublicKey} {index : ℕ} (ha : keys.authorityIndex a = some index)
    (hb : keys.authorityIndex b = some index) : a = b := by
  have ha := List.of_findIdx?_eq_some ha
  have hb := List.of_findIdx?_eq_some hb
  rcases hc : keys.coinCommittee.authorities[index]? with _ | c
  · simp [hc] at ha
  · simp only [hc, decide_eq_true_eq] at ha hb
    exact ha.symm.trans hb

/-- What the loop collects is a valid share of a member. -/
theorem mem_of_lookup_uniqueShares {round index : ℕ} {shares : List (PublicKey × List UInt8)}
    {share : Share}
    (h : (keys.uncached.uniqueShares round shares ∅).lookup index = some share) :
    ∃ a bytes, (a, bytes) ∈ shares ∧ keys.authorityIndex a = some index ∧
      keys.uncached.verifyShare round index bytes = some share := by
  rcases ThresholdCoin.lookup_uniqueShares shares h with hempty | hvalid
  · rw [SortedMap.lookup_empty] at hempty
    cases hempty
  · exact hvalid

/-- What the loop collects is short of the threshold exactly if the valid members are. -/
theorem length_uniqueShares_lt_iff (round : ℕ) (shares : List (PublicKey × List UInt8)) :
    (keys.uncached.uniqueShares round shares ∅).keys.length < keys.threshold + 1 ↔
      (keys.validMembers round shares).card < keys.threshold + 1 := by
  have hkeys : (keys.uncached.uniqueShares round shares ∅).keys.length =
      (keys.uncached.uniqueShares round shares ∅).keys.toFinset.card :=
    (List.toFinset_card_of_nodup (SortedMap.keys_nodup _)).symm
  rw [hkeys]
  constructor
  · -- nothing valid is left out, and each index is that of one member
    intro hlt
    refine (Finset.card_le_card_of_forall_subsingleton
      (fun a index => keys.authorityIndex a = some index) (fun a ha => ?_) ?_).trans_lt hlt
    · obtain ⟨bytes, index, share, hmem, hindex, hshare⟩ := mem_validMembers.1 ha
      have hindex' : keys.uncached.authorityIndex a = some index := hindex
      exact ⟨index, List.mem_toFinset.2 (ThresholdCoin.mem_keys_uniqueShares hindex' hshare shares
        (by rw [hkeys]; exact hlt.ne) hmem), hindex⟩
    · exact fun index _ a ha b hb => authorityIndex_inj ha.2 hb.2
  · -- what is collected is a valid share of a member
    intro hlt
    refine (Finset.card_le_card_of_forall_subsingleton
      (fun index a => keys.authorityIndex a = some index) (fun index hi => ?_) ?_).trans_lt hlt
    · obtain ⟨share, hshare⟩ := SortedMap.mem_keys.1 (List.mem_toFinset.1 hi)
      obtain ⟨a, bytes, hmem, hindex, hvalid⟩ := mem_of_lookup_uniqueShares hshare
      exact ⟨a, mem_validMembers.2 ⟨bytes, index, share, hmem, hindex, hvalid⟩, hindex⟩
    · exact fun a _ index hi index' hi' => Option.some.inj (hi.2.symm.trans hi'.2)

theorem UniqueScheme.recover_uncached (h : UniqueScheme keys) (round : ℕ)
    (shares : List (PublicKey × List UInt8)) :
    (∀ v, keys.uncached.recover round shares = some v → keys.IsCoin round v) ∧
      ((keys.uncached.recover round shares).isSome = true ↔
        keys.threshold + 1 ≤ (keys.validMembers round shares).card) := by
  have hlength : (keys.uncached.uniqueShares round shares ∅).keys.length < keys.threshold + 1 ↔ _ :=
    length_uniqueShares_lt_iff round shares
  unfold ThresholdCoin.recover
  simp only []
  split_ifs with hlt
  · refine ⟨nofun, ?_⟩
    simp only [Option.isSome_none, Bool.false_eq_true, false_iff, not_le]
    exact hlength.1 hlt
  · obtain ⟨signature, hcombine, hverify⟩ := h.combine (coinMessage round)
      (keys.uncached.uniqueShares round shares ∅) (not_lt.1 hlt) fun index share hshare => by
        obtain ⟨a, bytes, -, -, hvalid⟩ := mem_of_lookup_uniqueShares hshare
        exact (h.verifyShare _ _ _).1 (Option.filter_eq_some_iff.1 hvalid).2
    have hvalue : keys.uncached.combine round (keys.uncached.uniqueShares round shares ∅) =
        some (keys.coinValue signature) := by
      change (keys.scheme.combineSignatures _ >>= _) = _
      rw [hcombine]
      simp [hverify]
    rw [hvalue]
    refine ⟨fun v hv => ⟨signature, hverify, (Option.some.inj hv).symm⟩, ?_⟩
    simp only [Option.isSome_some, true_iff]
    exact not_lt.1 fun hcard => hlt (hlength.2 hcard)

/-! ## The caches -/

/-- Every cache holds what would be computed. -/
structure Sound (keys : CoinKeys Share Sig) (s : CoinCaches Share) : Prop where
  shares : ∀ round index bytes, s.shareCache.lookup (round, index) = some bytes →
    keys.scheme.serialize (keys.scheme.sign index (coinMessage round)) = some bytes
  verified : ∀ round index cached, s.verifiedShareCache.lookup (round, index) = some cached →
    cached.share = keys.uncached.verifyShare round index cached.bytes
  recovered : ∀ round v, s.recoveredCache.lookup round = some v → keys.IsCoin round v

theorem sound_empty : Sound keys {} where
  shares _ _ _ h := by simp at h
  verified _ _ _ h := by simp at h
  recovered _ _ h := by simp at h

omit [Crypto] in
/-- What is left after an insertion is what was inserted or what was there. -/
theorem lookup_retainRecent_insert {ν : Type} {cache : FinMap (ℕ × ℕ) ν} {key k : ℕ × ℕ}
    {v w : ν} {round : ℕ} (h : (retainRecent (cache.insert key v) round).lookup k = some w) :
    k = key ∧ w = v ∨ cache.lookup k = some w := by
  obtain ⟨h, -⟩ := FinMap.lookup_retain_eq_some.1 h
  rw [FinMap.lookup_insert_ite] at h
  split_ifs at h with hk
  · exact .inl ⟨hk, (Option.some.inj h).symm⟩
  · exact .inr h

omit [Crypto] in
theorem lookup_cacheCoin {cache : SortedMap ℕ ℕ} {round coin r v : ℕ}
    (h : (cacheCoin cache round coin).lookup r = some v) :
    r = round ∧ v = coin ∨ cache.lookup r = some v := by
  have h' : (cache.insert round coin).lookup r = some v :=
    SortedMap.lookup_eq_some.2 ((evictOldest_sublist _).subset (SortedMap.lookup_eq_some.1 h))
  rw [SortedMap.lookup_insert] at h'
  split_ifs at h' with hr
  · exact .inl ⟨hr, (Option.some.inj h').symm⟩
  · exact .inr h'

variable {s : CoinCaches Share}

theorem Sound.insertVerified (hs : Sound keys s) {round index : ℕ} (cached : CachedShare Share)
    (h : cached.share = keys.uncached.verifyShare round index cached.bytes) (newest : ℕ)
    {cache : FinMap (ℕ × ℕ) (CachedShare Share)}
    (hcache : cache = s.verifiedShareCache.insert (round, index) cached) :
    Sound keys { s with verifiedShareCache := retainRecentVerifiedShares cache newest } := by
  subst hcache
  refine ⟨hs.shares, fun r i c hc => ?_, hs.recovered⟩
  rcases lookup_retainRecent_insert hc with ⟨hkey, rfl⟩ | hc
  · obtain ⟨rfl, rfl⟩ := Prod.mk.inj hkey
    exact h
  · exact hs.verified r i c hc

/-- A share is made as without caches. -/
theorem Sound.makeShare (h : UniqueScheme keys) (hs : Sound keys s) (authority : PublicKey)
    (round : ℕ) :
    (keys.makeShare s authority round).1 = ((keys.authorityIndex authority).bind fun index =>
        keys.scheme.serialize (keys.scheme.sign index (coinMessage round))) ∧
      Sound keys (keys.makeShare s authority round).2 ∧
      (keys.makeShare s authority round).2.recoveredCache = s.recoveredCache := by
  unfold CoinKeys.makeShare
  rcases keys.authorityIndex authority with _ | index
  · exact ⟨rfl, hs, rfl⟩
  simp only [Option.bind_some]
  rcases hcached : s.shareCache.lookup (round, index) with _ | share
  · simp only []
    obtain ⟨bytes, hbytes, hread⟩ := h.serialize (keys.scheme.sign index (coinMessage round))
    rw [hbytes]
    have hshare : some (keys.scheme.sign index (coinMessage round)) =
        keys.uncached.verifyShare round index bytes := by
      change _ = (keys.scheme.deserialize bytes).filter _
      rw [hread, Option.filter_some, if_pos ((h.verifyShare _ _ _).2 rfl)]
    refine ⟨rfl, ?_, rfl⟩
    have hverified := hs.insertVerified ⟨bytes, some _⟩ hshare round rfl
    refine ⟨fun r i b hb => ?_, hverified.verified, hs.recovered⟩
    rcases lookup_retainRecent_insert hb with ⟨hkey, rfl⟩ | hb
    · obtain ⟨rfl, rfl⟩ := Prod.mk.inj hkey
      exact hbytes
    · exact hs.shares r i b hb
  · exact ⟨(hs.shares round index share hcached).symm, hs, rfl⟩

/-- A share is verified as without caches. -/
theorem Sound.verifyShare (hs : Sound keys s) (round index : ℕ) (bytes : List UInt8) :
    (keys.verifyShare s round index bytes (coinMessage round)).1 =
        keys.uncached.verifyShare round index bytes ∧
      Sound keys (keys.verifyShare s round index bytes (coinMessage round)).2 ∧
      (keys.verifyShare s round index bytes (coinMessage round)).2.recoveredCache =
        s.recoveredCache := by
  unfold CoinKeys.verifyShare
  split
  · rename_i cached hcached
    obtain ⟨hlookup, hbytes⟩ := Option.filter_eq_some_iff.1 hcached
    rw [hs.verified round index cached hlookup, of_decide_eq_true hbytes]
    exact ⟨rfl, hs, rfl⟩
  · exact ⟨rfl, hs.insertVerified ⟨bytes, _⟩ rfl round rfl, rfl⟩

theorem Sound.uniqueShares (round : ℕ) : ∀ (shares : List (PublicKey × List UInt8))
    (unique : SortedMap ℕ Share) {s : CoinCaches Share}, Sound keys s →
      (keys.uniqueShares round (coinMessage round) shares unique s).1 =
          keys.uncached.uniqueShares round shares unique ∧
        Sound keys (keys.uniqueShares round (coinMessage round) shares unique s).2 ∧
        (keys.uniqueShares round (coinMessage round) shares unique s).2.recoveredCache =
          s.recoveredCache
  | [], unique, s, hs => ⟨rfl, hs, rfl⟩
  | (authority, bytes) :: shares, unique, s, hs => by
    rw [CoinKeys.uniqueShares, ThresholdCoin.uniqueShares]
    have hindex : keys.uncached.authorityIndex authority = keys.authorityIndex authority := rfl
    rw [hindex]
    rcases keys.authorityIndex authority with _ | index
    · exact Sound.uniqueShares round shares unique hs
    simp only []
    split_ifs with hmet
    · exact Sound.uniqueShares round shares unique hs
    · obtain ⟨hshare, hs', hrecovered⟩ := hs.verifyShare round index bytes
      rw [← hshare]
      rcases hv : keys.verifyShare s round index bytes (coinMessage round) with ⟨_ | share, s'⟩ <;>
        rw [hv] at hs' hrecovered
      · obtain ⟨h₁, h₂, h₃⟩ := Sound.uniqueShares round shares unique hs'
        exact ⟨h₁, h₂, h₃.trans hrecovered⟩
      · simp only []
        have hthreshold : keys.uncached.threshold = keys.threshold := rfl
        rw [hthreshold]
        split_ifs with hfull
        · exact ⟨rfl, hs', hrecovered⟩
        · obtain ⟨h₁, h₂, h₃⟩ := Sound.uniqueShares round shares (unique.insert index share) hs'
          exact ⟨h₁, h₂, h₃.trans hrecovered⟩

/-- What combines is combined as without caches, and a coin returned may be kept. -/
theorem combineShares_cases (keys : CoinKeys Share Sig) (s : CoinCaches Share) (round : ℕ)
    (unique : SortedMap ℕ Share) :
    (keys.combineShares s round unique).1 = (if unique.keys.length < keys.threshold + 1 then none
        else keys.uncached.combine round unique) ∧
      ((keys.combineShares s round unique).2 = s ∨
        ∃ coin, (keys.combineShares s round unique).1 = some coin ∧
          (keys.combineShares s round unique).2 =
            { s with recoveredCache := cacheCoin s.recoveredCache round coin }) := by
  unfold combineShares uncached
  simp only [Option.bind_eq_bind]
  split_ifs with hlt
  · exact ⟨rfl, .inl rfl⟩
  · rcases keys.scheme.combineSignatures unique with _ | signature
    · exact ⟨rfl, .inl rfl⟩
    · simp only [Option.bind_some]
      split_ifs
      · exact ⟨rfl, .inr ⟨_, rfl, rfl⟩⟩
      · exact ⟨rfl, .inl rfl⟩

/-- A coin is the one kept, or recovered as without caches. What is kept then was kept before, or is
what has just been returned. -/
theorem Sound.recover (h : UniqueScheme keys) (hs : Sound keys s) (round : ℕ)
    (shares : List (PublicKey × List UInt8)) :
    (keys.recover s round shares).1 =
        (s.recoveredCache.lookup round).or (keys.uncached.recover round shares) ∧
      Sound keys (keys.recover s round shares).2 ∧
      ∀ r v, (keys.recover s round shares).2.recoveredCache.lookup r = some v →
        s.recoveredCache.lookup r = some v ∨
          r = round ∧ (keys.recover s round shares).1 = some v := by
  have hcoin := (h.recover_uncached round shares).1
  unfold CoinKeys.recover
  rcases s.recoveredCache.lookup round with _ | coin
  · simp only [Option.none_or]
    obtain ⟨hunique, hs', hrecovered⟩ := hs.uniqueShares round shares ∅
    have hrecover : keys.uncached.recover round shares =
        if (keys.uncached.uniqueShares round shares ∅).keys.length < keys.threshold + 1 then none
        else keys.uncached.combine round (keys.uncached.uniqueShares round shares ∅) := rfl
    rw [hrecover, ← hunique] at hcoin ⊢
    generalize keys.uniqueShares round (coinMessage round) shares ∅ s = loop at *
    obtain ⟨hvalue, hcaches⟩ := combineShares_cases keys loop.2 round loop.1
    rw [← hvalue] at hcoin
    refine ⟨hvalue, ?_, fun r v hv => ?_⟩
    · rcases hcaches with hsame | ⟨coin, hsome, hkept⟩
      · rw [hsame]
        exact hs'
      · rw [hkept]
        refine ⟨hs'.shares, hs'.verified, fun r v hv => ?_⟩
        rcases lookup_cacheCoin hv with ⟨rfl, rfl⟩ | hv
        · exact hcoin _ hsome
        · exact hs'.recovered r v hv
    · rw [← hrecovered]
      rcases hcaches with hsame | ⟨coin, hsome, hkept⟩
      · rw [hsame] at hv
        exact .inl hv
      · rw [hkept] at hv
        rcases lookup_cacheCoin hv with ⟨rfl, rfl⟩ | hv
        · exact .inr ⟨rfl, hsome⟩
        · exact .inl hv
  · exact ⟨rfl, hs, fun r v hv => .inl hv⟩

/-! ## Runs -/

/-- A call that recovered the coin of a round. -/
def Recovered (round : ℕ) (e : CoinCall × CoinAnswer) : Prop :=
  ∃ shares v, e = (.recover round shares, .coin (some v))

/-- After some calls the caches are sound, and the coins kept are ones returned. -/
structure After (keys : CoinKeys Share Sig) (s : CoinCaches Share)
    (h : List (CoinCall × CoinAnswer)) : Prop where
  sound : Sound keys s
  recovered : ∀ round v, s.recoveredCache.lookup round = some v → ∃ e ∈ h, Recovered round e

theorem After.answer (hscheme : UniqueScheme keys) {h : List (CoinCall × CoinAnswer)}
    (hs : After keys s h) (call : CoinCall) :
    After keys (keys.answer s call).2 (h ++ [(call, (keys.answer s call).1)]) := by
  have hold : ∀ round v, s.recoveredCache.lookup round = some v →
      ∃ e ∈ h ++ [(call, (keys.answer s call).1)], Recovered round e := by
    intro round v hv
    obtain ⟨e, he, hr⟩ := hs.recovered round v hv
    exact ⟨e, List.mem_append_left _ he, hr⟩
  cases call with
  | makeShare authority round =>
    obtain ⟨-, hsound, hcache⟩ := hs.sound.makeShare hscheme authority round
    exact ⟨hsound, fun r v hv => hold r v (hcache ▸ hv)⟩
  | recover round shares =>
    obtain ⟨-, hsound, hcache⟩ := hs.sound.recover hscheme round shares
    refine ⟨hsound, fun r v hv => ?_⟩
    rcases hcache r v hv with hv | ⟨rfl, hv⟩
    · exact hold r v hv
    · refine ⟨_, List.mem_append_right _ List.mem_cons_self, shares, v, ?_⟩
      rw [← hv]
      rfl

/-- What the coin answers to a call, after the calls before. -/
def Transparent (keys : CoinKeys Share Sig) (before : List (CoinCall × CoinAnswer)) :
    CoinCall → CoinAnswer → Prop
  | .makeShare authority round, answer =>
    answer = .share ((keys.authorityIndex authority).bind fun index =>
      keys.scheme.serialize (keys.scheme.sign index (coinMessage round)))
  | .recover round shares, answer => ∃ value, answer = .coin value ∧
      (∀ v, value = some v → keys.IsCoin round v) ∧
      (keys.threshold + 1 ≤ (keys.validMembers round shares).card → value.isSome = true) ∧
      ((keys.validMembers round shares).card < keys.threshold + 1 →
        (∀ e ∈ before, ¬ Recovered round e) → value = none)

theorem After.transparent (hscheme : UniqueScheme keys) {h : List (CoinCall × CoinAnswer)}
    (hs : After keys s h) (call : CoinCall) :
    Transparent keys h call (keys.answer s call).1 := by
  cases call with
  | makeShare authority round =>
    exact congrArg CoinAnswer.share (hs.sound.makeShare hscheme authority round).1
  | recover round shares =>
    obtain ⟨hvalue, -, -⟩ := hs.sound.recover hscheme round shares
    obtain ⟨hcoin, hsome⟩ := hscheme.recover_uncached round shares
    refine ⟨(keys.recover s round shares).1, rfl, fun v hv => ?_, fun hcard => ?_,
      fun hcard hbefore => ?_⟩
    · rw [hvalue] at hv
      rcases hcached : s.recoveredCache.lookup round with _ | w
      · rw [hcached, Option.none_or] at hv
        exact hcoin v hv
      · rw [hcached, Option.some_or] at hv
        exact Option.some.inj hv ▸ hs.sound.recovered round w hcached
    · rw [hvalue, Option.isSome_or, hsome.2 hcard, Bool.or_true]
    · have hcached : s.recoveredCache.lookup round = none := by
        rw [Option.eq_none_iff_forall_not_mem]
        intro v hv
        obtain ⟨e, he, hr⟩ := hs.recovered round v hv
        exact hbefore e he hr
      rw [hvalue, hcached, Option.none_or, ← Option.not_isSome_iff_eq_none, hsome]
      exact not_le.2 hcard

/-- Over any sequence of calls the caches do not show, and a round has one coin. -/
theorem coin_transparent (keys : CoinKeys Share Sig) (hscheme : UniqueScheme keys) :
    (∀ calls before call answer after,
      trace keys.answer {} calls = before ++ (call, answer) :: after →
        Transparent keys before call answer) ∧
      ∀ round v w, keys.IsCoin round v → keys.IsCoin round w → v = w := by
  refine ⟨fun calls before call answer after h => ?_, fun _ _ _ => hscheme.isCoin_unique⟩
  have hstart : After keys {} [] := ⟨sound_empty, fun _ _ hv => by simp at hv⟩
  obtain ⟨s, hs, -, rfl⟩ := exists_before (I := After keys) hstart
    (fun _ _ call _ hs => hs.answer hscheme call) h
  exact hs.transparent hscheme call

end CoinKeys

namespace CoinKeys

/-- Shares that spell their index and message out. -/
def toyScheme : ThresholdScheme (List UInt8) (List UInt8) where
  sign index message := List.replicate index 0 ++ 1 :: message
  serialize := some
  deserialize := some
  verifyShare index share message := decide (share = List.replicate index 0 ++ 1 :: message)
  combineSignatures shares := shares.toList.head?.map fun e => e.2.drop (e.1 + 1)
  verify signature message := decide (signature = message)
  toBytes := id

def toyKeys : CoinKeys (List UInt8) (List UInt8) :=
  ⟨⟨[0, 1, 2, 3], CoinCommittee.four_ne_nil⟩, 1, toyScheme⟩

theorem toyKeys_unique : UniqueScheme toyKeys where
  serialize share := ⟨share, rfl, rfl⟩
  verifyShare index share message := decide_eq_true_iff
  combine message shares hlength hshares := by
    rcases hlist : shares.toList with _ | ⟨⟨index, share⟩, entries⟩
    · rw [SortedMap.keys, hlist] at hlength
      simp at hlength
    · have hshare := hshares index share (SortedMap.lookup_eq_some.2 (by rw [hlist]; simp))
      refine ⟨message, ?_, decide_eq_true rfl⟩
      change (shares.toList.head?.map _) = _
      have hdrop : (List.replicate index 0 ++ 1 :: message : List UInt8).drop (index + 1) =
          message := by
        rw [List.drop_append, List.length_replicate]
        simp
      rw [hlist, List.head?_cons, Option.map_some, hshare]
      exact congrArg some hdrop
  verify message signature signature' h h' :=
    (of_decide_eq_true h).trans (of_decide_eq_true h').symm

/-- Bytes that are no share, then the shares of two members. -/
def toyShares : List (PublicKey × List UInt8) :=
  [(0, [9]), (0, 1 :: coinMessage 7), (1, 0 :: 1 :: coinMessage 7)]

theorem coin_transparent_toy : letI := toyCrypto
    Transparent toyKeys [] (.recover 7 toyShares) (toyKeys.answer {} (.recover 7 toyShares)).1 ∧
      (toyKeys.recover {} 7 toyShares).1.isSome = true := by
  let _ := toyCrypto
  exact ⟨(coin_transparent toyKeys toyKeys_unique).1 [.recover 7 toyShares] [] _ _ [] rfl,
    by decide⟩

end CoinKeys

end NovelDag
