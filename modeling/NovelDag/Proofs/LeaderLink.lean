import NovelDag.LeaderLink
import NovelDag.Lib.KeyOrder

/-!
# Links that verify

Shares that combine make a link that verifies. A link that says no block was committed takes the
shares of the pool as they came, and it verifies only if all of these do.
-/

namespace NovelDag

open Fallible

/-! ## What the pool holds -/

/-- The share of an author on a block hash. -/
def shareOn (buckets : FinMap Digest (FinMap PublicKey RecpMessage)) (h : Digest)
    (a : PublicKey) : Option RecpMessage :=
  ((buckets.lookup h).getD ∅).lookup a

theorem shareOn_insert (buckets : FinMap Digest (FinMap PublicKey RecpMessage))
    (h h' : Digest) (a a' : PublicKey) (r : RecpMessage) :
    shareOn (buckets.insert h (((buckets.lookup h).getD ∅).insert a r)) h' a' =
      if h' = h ∧ a' = a then some r else shareOn buckets h' a' := by
  unfold shareOn
  rw [FinMap.lookup_insert_ite]
  by_cases hh : h' = h
  · rw [if_pos hh, Option.getD_some, FinMap.lookup_insert_ite, hh]
    simp only [true_and]
  · rw [if_neg hh, if_neg fun e => hh e.1]

/-- Every share is kept under its own round, hash and author, and its author is a member. -/
def RecpPool.Filed (committee : Committee) (pool : RecpPool) : Prop :=
  ∀ round buckets h a r, pool.lookup round = some buckets → shareOn buckets h a = some r →
    r.round = round ∧ r.blockHash = h ∧ r.author = a ∧ 0 < committee.stake a

section Pool

variable {committee : Committee}

theorem handleRecp_filed {pool : RecpPool} (hp : pool.Filed committee) (recp : RecpMessage) :
    (handleRecp committee pool recp).Filed committee := by
  unfold handleRecp
  simp only []
  split_ifs with hstake
  · exact hp
  · exact hp
  · intro round buckets h a r hl hs
    rw [FinMap.lookup_insert_ite] at hl
    split_ifs at hl with hround
    · obtain rfl := Option.some.inj hl
      rw [shareOn_insert] at hs
      split_ifs at hs with hkey
      · obtain ⟨rfl, rfl⟩ := hkey
        obtain rfl := Option.some.inj hs
        exact ⟨hround.symm, rfl, rfl, Nat.pos_of_ne_zero hstake⟩
      · rcases hb : pool.lookup recp.round with _ | old
        · rw [hb] at hs
          simp [shareOn] at hs
        · rw [hb] at hs
          exact hround ▸ hp recp.round old h a r hb hs
    · exact hp round buckets h a r hl hs

/-- What arrives in whatever order is kept where it belongs. -/
theorem foldl_handleRecp_filed (recps : List RecpMessage) :
    RecpPool.Filed committee (recps.foldl (handleRecp committee) ∅) := by
  refine List.foldlRecOn recps (handleRecp committee) (motive := RecpPool.Filed committee) ?_
    fun pool hp recp _ => handleRecp_filed hp recp
  intro round buckets h a r hl
  simp at hl

end Pool

/-! ## Shares that combine -/

section Combine

variable [ThresholdBls] {authorities : List PublicKey} {threshold round : ℕ} {blockHash : Digest}

omit [ThresholdBls] in
/-- Different authorities have different indices. -/
theorem authorityIndex_inj {a b : PublicKey} {i : ℕ} (ha : authorityIndex authorities a = some i)
    (hb : authorityIndex authorities b = some i) : a = b := by
  obtain ⟨_, ha, -⟩ := List.findIdx?_eq_some_iff_getElem.1 ha
  obtain ⟨_, hb, -⟩ := List.findIdx?_eq_some_iff_getElem.1 hb
  exact (eq_of_beq ha).symm.trans (eq_of_beq hb)

theorem readRecpShare_eq_some {a : PublicKey} {bytes : List UInt8}
    {e : ℕ × ThresholdBls.Share}
    (h : readRecpShare authorities threshold a round blockHash bytes = some e) :
    authorityIndex authorities a = some e.1 ∧
      ThresholdBls.shareVerifies authorities threshold e.1 e.2 (recpMessage round blockHash) =
        true := by
  unfold readRecpShare at h
  obtain ⟨index, hi, h⟩ := Option.bind_eq_some_iff.1 h
  obtain ⟨share, -, h⟩ := Option.bind_eq_some_iff.1 h
  split_ifs at h with hv
  obtain rfl := Option.some.inj h
  exact ⟨hi, hv⟩

/-- Of different authors every share that verifies is kept. -/
theorem uniqueShares_perm {shares : List (PublicKey × List UInt8)}
    (hn : (shares.map Prod.fst).Nodup) :
    (uniqueShares authorities threshold round blockHash shares).toList.Perm
      (shares.filterMap fun e => readRecpShare authorities threshold e.1 round blockHash e.2) := by
  refine (SortedMap.toList_foldl_alter_perm (fun v share => share.getD v) (fun _ => rfl) _ ∅ ?_).trans
    (by rw [SortedMap.toList_empty, List.append_nil])
  rw [SortedMap.keys, SortedMap.toList_empty, List.map_nil, List.append_nil]
  refine List.Pairwise.map _ (R := fun e e' => e.1 ≠ e'.1) (fun _ _ h => h) ?_
  refine List.Pairwise.filterMap _ ?_ (List.pairwise_map.1 hn)
  intro e e' hne d hd d' hd' heq
  refine hne (authorityIndex_inj (readRecpShare_eq_some hd).1 ?_)
  rw [heq]
  exact (readRecpShare_eq_some hd').1

/-- Combined shares are an aggregate that verifies. -/
theorem verifyRecpAggregate_of_combine [LawfulBls] {shares : List (PublicKey × List UInt8)}
    {bytes : List UInt8}
    (h : combineRecpShares authorities threshold round blockHash shares = some bytes) :
    verifyRecpAggregate authorities threshold round blockHash bytes = true := by
  unfold combineRecpShares at h
  simp only [] at h
  split_ifs at h
  obtain ⟨signature, -, h⟩ := Option.bind_eq_some_iff.1 h
  split_ifs at h with hv
  obtain rfl := Option.some.inj h
  simp [verifyRecpAggregate, LawfulBls.length_toBytes, LawfulBls.fromBytes_toBytes, hv]

/-- Shares of different authors combine if and only if enough of them verify. -/
theorem combineRecpShares_isSome [LawfulBls] {shares : List (PublicKey × List UInt8)}
    (hn : (shares.map Prod.fst).Nodup) :
    (combineRecpShares authorities threshold round blockHash shares).isSome ↔
      threshold + 1 ≤ shares.countP fun e =>
        verifyRecpShare authorities threshold e.1 round blockHash e.2 := by
  have hperm : (uniqueShares authorities threshold round blockHash shares).toList.Perm
      (shares.filterMap fun e => readRecpShare authorities threshold e.1 round blockHash e.2) :=
    uniqueShares_perm hn
  have hlen : (uniqueShares authorities threshold round blockHash shares).toList.length =
      shares.countP fun e => verifyRecpShare authorities threshold e.1 round blockHash e.2 := by
    rw [hperm.length_eq, List.length_filterMap_eq_countP]
    rfl
  unfold combineRecpShares
  simp only [hlen]
  split_ifs with hlt
  · simp only [Option.isSome_none, Bool.false_eq_true, false_iff]
    omega
  · obtain ⟨signature, hc, hv⟩ := LawfulBls.combine authorities threshold
      (recpMessage round blockHash) _ (by rw [hlen]; exact not_lt.1 hlt) fun e he => by
        obtain ⟨d, -, hd⟩ := List.mem_filterMap.1 (hperm.mem_iff.1 he)
        exact (readRecpShare_eq_some hd).2
    simp only [hc, Option.bind_eq_bind, Option.bind_some, hv, if_true, Option.isSome_some, true_iff]
    omega

end Combine

/-! ## Shares that do not -/

section PerAuthor

/-- The share of an author on the smallest block hash. -/
def IsFirstShare (buckets : FinMap Digest (FinMap PublicKey RecpMessage)) (a : PublicKey)
    (r : RecpMessage) : Prop :=
  ∃ h, shareOn buckets h a = some r ∧ ∀ h', (shareOn buckets h' a).isSome → h ≤ h'

theorem mem_keys_of_shareOn {buckets : FinMap Digest (FinMap PublicKey RecpMessage)} {h : Digest}
    {a : PublicKey} (hs : (shareOn buckets h a).isSome) : h ∈ buckets.keys := by
  by_contra hn
  rw [shareOn, FinMap.lookup_eq_none_iff.2 hn] at hs
  simp at hs

theorem lookup_sharePerAuthor {buckets : FinMap Digest (FinMap PublicKey RecpMessage)}
    {a : PublicKey} {r : RecpMessage} :
    (sharePerAuthor buckets).lookup a = some r ↔ IsFirstShare buckets a r := by
  unfold sharePerAuthor
  rw [FinMap.lookup_foldl_union, AList.lookup_empty, Option.none_or]
  change (_ : List Digest).findSome? (fun h => shareOn buckets h a) = some r ↔ _
  have hmem : ∀ {h}, (shareOn buckets h a).isSome →
      h ∈ buckets.keys.insertionSort (· ≤ ·) := fun hs =>
    (List.mem_insertionSort _).2 (mem_keys_of_shareOn hs)
  rw [KeyOrder.findSome?_eq_some (List.pairwise_insertionSort (· ≤ ·) buckets.keys)]
  constructor
  · rintro ⟨h, -, hs, hmin⟩
    exact ⟨h, hs, fun h' hs' => hmin h' (hmem hs') hs'⟩
  · rintro ⟨h, hs, hmin⟩
    exact ⟨h, hmem (by rw [hs]; rfl), hs, fun h' _ hs' => hmin h' hs'⟩

end PerAuthor

/-! ## Links -/

section Build

variable {committee : Committee} {buckets : FinMap Digest (FinMap PublicKey RecpMessage)}

theorem seenRecps_eq_ok : ∀ (recps : List RecpMessage) (seen : List PublicKey),
    (∀ r ∈ recps, 0 < committee.stake r.author) → (recps.map RecpMessage.author).Nodup →
      (∀ r ∈ recps, r.author ∉ seen) → seenRecps committee recps seen =
        .ok ((recps.map RecpMessage.author).reverse ++ seen)
  | [], _, _, _, _ => rfl
  | r :: recps, seen, hs, hn, hd => by
    obtain ⟨hr, hs⟩ := List.forall_mem_cons.1 hs
    obtain ⟨hnr, hn⟩ := List.nodup_cons.1 hn
    obtain ⟨hdr, hd⟩ := List.forall_mem_cons.1 hd
    have ih := seenRecps_eq_ok recps (r.author :: seen) hs hn fun r' hr' hm => by
      rcases List.mem_cons.1 hm with heq | hm
      · exact hnr (heq ▸ List.mem_map_of_mem hr')
      · exact hd r' hr' hm
    rw [seenRecps, check_bind_eq_ok, check_bind_eq_ok]
    refine ⟨by simpa using hr, by simpa using hdr, ?_⟩
    rw [ih, List.map_cons, List.reverse_cons, List.append_assoc, List.singleton_append]

/-- The shares of a no-commit proof come one from each author of a share. -/
theorem map_author_noCommitShares (hf : ∀ h a r, shareOn buckets h a = some r → r.author = a) :
    ((noCommitShares buckets).map RecpMessage.author).Perm (sharePerAuthor buckets).keys := by
  refine ((List.perm_insertionSort _ _).map _).trans (.of_eq ?_)
  rw [FinMap.values, List.map_map]
  refine List.map_congr_left fun e he => ?_
  obtain ⟨h, hs, -⟩ := lookup_sharePerAuthor.1 (FinMap.ext_lookup_iff.2 he)
  exact hf h e.1 e.2 hs

theorem mem_noCommitShares {r : RecpMessage} :
    r ∈ noCommitShares buckets ↔ ∃ a, IsFirstShare buckets a r := by
  rw [noCommitShares, List.mem_insertionSort, FinMap.mem_values]
  simp only [lookup_sharePerAuthor]

/-- The structure of a no-commit link is right if its shares are filed and have the stake. -/
theorem verifyStructure_noCommit
    (hf : ∀ h a r, shareOn buckets h a = some r → r.author = a ∧ 0 < committee.stake a)
    (hw : (committee.names.map committee.stake).sum - committee.validityThreshold + 1 ≤
      recpWeight committee (sharePerAuthor buckets)) :
    LeaderLink.verifyStructure committee
      { hash := none, proof := .noCommit (noCommitShares buckets) } = .ok () := by
  have hperm := map_author_noCommitShares fun h a r hs => (hf h a r hs).1
  have hstaked : ∀ r ∈ noCommitShares buckets, 0 < committee.stake r.author := fun r hr => by
    obtain ⟨a, h, hs, -⟩ := mem_noCommitShares.1 hr
    obtain ⟨rfl, hstake⟩ := hf h a r hs
    exact hstake
  have hseen := seenRecps_eq_ok (noCommitShares buckets) [] hstaked
    (hperm.nodup_iff.2 (AList.keys_nodup _)) (fun _ _ => List.not_mem_nil)
  simp only [LeaderLink.verifyStructure, hseen, List.append_nil]
  rw [bind_eq_ok]
  refine ⟨_, rfl, ?_⟩
  rw [ensure_eq_ok, decide_eq_true_iff, ((List.reverse_perm _).trans hperm).map _ |>.sum_eq]
  exact hw

variable [ThresholdBls] {prev : ℕ}

/-- Some block hash has shares with the stake of a proof, and enough of them verify to combine. -/
def SharesCombine (committee : Committee) (prev : ℕ)
    (buckets : FinMap Digest (FinMap PublicKey RecpMessage)) : Prop :=
  ∃ h entries, buckets.lookup h = some entries ∧
    committee.validityThreshold ≤ recpWeight committee entries ∧
      recpThreshold committee.size + 1 ≤ entries.entries.countP fun e =>
        verifyRecpShare committee.names (recpThreshold committee.size) e.1 prev h e.2.share

theorem exclusiveCommit_isSome [LawfulBls] :
    (exclusiveCommit committee prev buckets).isSome ↔ SharesCombine committee prev buckets := by
  have hentries : ∀ (h : Digest) (entries : FinMap PublicKey RecpMessage),
      (combineRecpShares committee.names (recpThreshold committee.size) prev h
        (entries.entries.map fun e => (e.1, e.2.share))).isSome ↔
      recpThreshold committee.size + 1 ≤ entries.entries.countP fun e =>
        verifyRecpShare committee.names (recpThreshold committee.size) e.1 prev h e.2.share := by
    intro h entries
    rw [combineRecpShares_isSome (by rw [List.map_map]; exact AList.keys_nodup entries),
      List.countP_map]
    rfl
  rw [exclusiveCommit, List.findSome?_isSome_iff]
  constructor
  · rintro ⟨h, hmem, hs⟩
    obtain ⟨entries, hl⟩ := FinMap.mem_keys_iff.1 ((List.mem_insertionSort _).1 hmem)
    simp only [hl, Option.getD_some] at hs
    split_ifs at hs with hw
    · rw [Option.isSome_map] at hs
      exact ⟨h, entries, hl, hw, (hentries h entries).1 hs⟩
    · simp at hs
  · rintro ⟨h, entries, hl, hw, hc⟩
    refine ⟨h, (List.mem_insertionSort _).2 (FinMap.mem_keys_iff.2 ⟨entries, hl⟩), ?_⟩
    simp only [hl, Option.getD_some]
    rw [if_pos hw, Option.isSome_map]
    exact (hentries h entries).2 hc

/-- A link on combined shares verifies. -/
theorem verifyWithCrypto_exclusiveCommit [LawfulBls] {link : LeaderLink}
    (h : exclusiveCommit committee prev buckets = some link) :
    link.verifyWithCrypto committee prev = .ok () := by
  obtain ⟨hash, -, h⟩ := List.exists_of_findSome?_eq_some h
  simp only [] at h
  split_ifs at h
  obtain ⟨bytes, hc, rfl⟩ := Option.map_eq_some_iff.1 h
  have hv := verifyRecpAggregate_of_combine hc
  have hne : (!bytes.isEmpty) = true := by
    have hlen := (Bool.and_eq_true_iff.1 hv).1
    rcases bytes with _ | _
    · simp at hlen
    · rfl
  refine check_bind_eq_ok.2 ⟨?_, ?_⟩
  · exact ensure_eq_ok.2 hne
  · rw [committee.size_eq_length_names] at hv
    exact ensure_eq_ok.2 hv

/-- A no-commit link verifies if and only if each of its shares does. -/
theorem verifyWithCrypto_noCommit
    (hf : ∀ h a r, shareOn buckets h a = some r →
      r.round = prev ∧ r.blockHash = h ∧ r.author = a ∧ 0 < committee.stake a)
    (hw : (committee.names.map committee.stake).sum - committee.validityThreshold + 1 ≤
      recpWeight committee (sharePerAuthor buckets)) :
    LeaderLink.verifyWithCrypto committee { hash := none, proof := .noCommit (noCommitShares buckets) }
      prev = .ok () ↔
    ∀ a r, IsFirstShare buckets a r → verifyRecpShare committee.names
      (recpThreshold committee.size) a prev r.blockHash r.share = true := by
  rw [LeaderLink.verifyWithCrypto, check_bind_eq_ok,
    verifyStructure_noCommit (fun h a r hs => (hf h a r hs).2.2) hw]
  simp only [true_and, forM_eq_ok, check_bind_eq_ok, ensure_eq_ok, decide_eq_true_iff,
    mem_noCommitShares, forall_exists_index, ← committee.size_eq_length_names]
  constructor
  · intro h a r hr
    obtain ⟨-, hv⟩ := h r a hr
    obtain ⟨h', hs, -⟩ := hr
    obtain ⟨hround, -, hauthor, -⟩ := hf h' a r hs
    rwa [hauthor, hround] at hv
  · intro h r a hr
    have hv := h a r hr
    obtain ⟨h', hs, -⟩ := hr
    obtain ⟨hround, -, hauthor, -⟩ := hf h' a r hs
    exact ⟨hround, by rwa [hauthor, hround]⟩

/-- The link that a node builds verifies if and only if it was built on shares that combine, or the
share of each author on its smallest block hash verifies. -/
theorem verifyWithCrypto_buildLeaderLink_iff [LawfulBls] (committee : Committee)
    (recps : List RecpMessage) {round : ℕ} {link : LeaderLink}
    (h : buildLeaderLink committee (recps.foldl (handleRecp committee) ∅) round = some link) :
    link.verifyWithCrypto committee (round - 2) = .ok () ↔
      ∃ buckets, (recps.foldl (handleRecp committee) ∅).lookup (round - 2) = some buckets ∧
        (SharesCombine committee (round - 2) buckets ∨
          ∀ a r, IsFirstShare buckets a r → verifyRecpShare committee.names
            (recpThreshold committee.size) a (round - 2) r.blockHash r.share = true) := by
  have hfiled : RecpPool.Filed committee (recps.foldl (handleRecp committee) ∅) :=
    foldl_handleRecp_filed recps
  unfold buildLeaderLink at h
  split_ifs at h
  obtain ⟨buckets, hl, h⟩ := Option.bind_eq_some_iff.1 h
  have hbuckets : ∀ {p : FinMap Digest (FinMap PublicKey RecpMessage) → Prop},
      (∃ b, (recps.foldl (handleRecp committee) ∅).lookup (round - 2) = some b ∧ p b) ↔
        p buckets := by
    intro p
    rw [hl]
    simp
  rw [hbuckets, ← exclusiveCommit_isSome]
  rcases he : exclusiveCommit committee (round - 2) buckets with _ | built
  · rw [he] at h
    simp only [Option.orElse_none] at h
    split_ifs at h with hw
    obtain rfl := Option.some.inj h
    rw [verifyWithCrypto_noCommit (fun h a r hs => hfiled _ buckets h a r hl hs) hw]
    simp
  · rw [he] at h
    obtain rfl := Option.some.inj h
    simp [verifyWithCrypto_exclusiveCommit he]

end Build

end NovelDag

/-! ## A toy scheme -/

namespace NovelDag

open Fallible

/-- A share is its index and the message, an aggregate is the message cut to size. -/
@[reducible] def toyBls : ThresholdBls where
  Share := List UInt8
  Aggregate := List.Vector UInt8 96
  readShare := some
  shareVerifies _ _ index share message := decide (share = UInt8.ofNat index :: message)
  combineSignatures _ _ shares := shares.values.head?.map fun share =>
    ⟨(share.tail ++ List.replicate 96 0).take 96, by simp⟩
  aggregateVerifies _ _ signature message :=
    decide (signature.toList = (message ++ List.replicate 96 0).take 96)
  toBytes := List.Vector.toList
  fromBytes bytes := if h : bytes.length = 96 then some ⟨bytes, h⟩ else none

theorem toyBls_lawful : @LawfulBls toyBls := by
  refine @LawfulBls.mk toyBls ?_ (fun signature => signature.2) fun signature => dif_pos signature.2
  intro authorities threshold message shares hlen hv
  obtain ⟨e, l, he⟩ := List.exists_cons_of_length_pos (Nat.zero_lt_of_lt hlen)
  have hshare : @Eq (List UInt8) e.2 (UInt8.ofNat e.1 :: message) :=
    of_decide_eq_true (hv e (by simp [he]))
  have hhead : shares.values.head? = some (UInt8.ofNat e.1 :: message) := by
    rw [SortedMap.values, he, ← hshare]
    rfl
  refine ⟨⟨(message ++ List.replicate 96 0).take 96, by simp⟩, ?_, decide_eq_true rfl⟩
  change shares.values.head?.map _ = _
  rw [hhead]
  rfl

/-- The share of an author on a block hash of round 1. -/
def toyRecp (author : ℕ) (blockHash : Digest) : RecpMessage :=
  { blockHash, round := 1, author := ⟨Fin.ofNat _ author⟩,
    share := UInt8.ofNat author :: recpMessage 1 blockHash }

/-- A share that is no signature of anyone ends up in a link that no peer accepts. -/
theorem not_verifyWithCrypto_buildLeaderLink : letI := toyBls
    ∃ link, buildLeaderLink (.uniform 4) ([toyRecp 0 7, toyRecp 1 8,
      { toyRecp 2 9 with share := [] }].foldl (handleRecp (.uniform 4)) ∅) 3 = some link ∧
      link.verifyWithCrypto (.uniform 4) 1 ≠ .ok () := by
  let _ := toyBls
  exact ⟨_, Option.eq_some_of_isSome (by decide), by decide⟩

theorem verifyWithCrypto_buildLeaderLink_toy : letI := toyBls
    ∃ link, buildLeaderLink (.uniform 4) ([toyRecp 0 7, toyRecp 1 7,
      toyRecp 2 9].foldl (handleRecp (.uniform 4)) ∅) 3 = some link ∧
      link.verifyWithCrypto (.uniform 4) 1 = .ok () := by
  let _ := toyBls
  have h := Option.eq_some_of_isSome (o := buildLeaderLink (.uniform 4) ([toyRecp 0 7, toyRecp 1 7,
    toyRecp 2 9].foldl (handleRecp (.uniform 4)) ∅) 3) (by decide)
  have hb := Option.eq_some_of_isSome (o := ([toyRecp 0 7, toyRecp 1 7,
    toyRecp 2 9].foldl (handleRecp (.uniform 4)) ∅).lookup 1) (by decide)
  refine ⟨_, h, (@verifyWithCrypto_buildLeaderLink_iff toyBls toyBls_lawful _ _ _ _ h).2
    ⟨_, hb, .inl ⟨7, _, Option.eq_some_of_isSome (by decide), ?_, ?_⟩⟩⟩
  · decide
  · decide

end NovelDag
