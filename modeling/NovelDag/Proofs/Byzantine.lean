import NovelDag.Byzantine

/-!
# Whom the versions of a header reach

The peers are cut once: the Byzantine peers and the shortest honest prefix that brings a quorum get
the branch that can be certified, and each honest peer behind the cut one further branch. Without
certificates the cut is at the front. The payload is dealt out over the branches.
-/

namespace NovelDag

namespace ByzantineConfig

/-! ## Peers -/

section Peers

variable {Address : Type} [DecidableEq Address] (config : ByzantineConfig Address)
  (committee : Committee) (address : PublicKey → Address) (ownName : PublicKey)

def honestNames : List PublicKey :=
  committee.names.filter fun n => decide (n ≠ ownName ∧ address n ∉ config.byzantineAddresses)

def byzantineNames : List PublicKey :=
  committee.names.filter fun n => decide (n ≠ ownName ∧ address n ∈ config.byzantineAddresses)

def peerOf (name : PublicKey) : Peer Address := ⟨name, committee.stake name, address name⟩

omit [DecidableEq Address] in
/-- Members are listed in the order of their keys already. -/
theorem insertionSort_peers {names : List PublicKey} (h : names.Sublist committee.names) :
    (names.map (peerOf committee address)).insertionSort (fun x y => x.name ≤ y.name) =
      names.map (peerOf committee address) := by
  apply List.Pairwise.insertionSort_eq
  exact List.pairwise_map.2 ((committee.authorities.keys_sorted.sublist h).imp fun h => le_of_lt h)

theorem peers_eq : config.peers committee address ownName =
    ((config.honestNames committee address ownName).map (peerOf committee address),
      (config.byzantineNames committee address ownName).map (peerOf committee address)) := by
  have hfilter : ∀ p : Address → Bool,
      ((((committee.names.filter fun name => decide (name ≠ ownName)).map fun name =>
        (name, address name)).map fun e => (⟨e.1, committee.stake e.1, e.2⟩ : Peer Address)).filter
          fun peer => p peer.address) =
        (committee.names.filter fun n => decide (n ≠ ownName) && p (address n)).map
          (peerOf committee address) := by
    intro p
    rw [List.map_map, List.filter_map, List.filter_filter]
    congr 1
    refine List.filter_congr fun n _ => ?_
    rw [Bool.and_comm]
    rfl
  have hhonest := hfilter fun a => decide (a ∉ config.byzantineAddresses)
  have hbyzantine := hfilter fun a => decide (a ∈ config.byzantineAddresses)
  unfold peers othersPrimaries honestNames byzantineNames
  simp only [Bool.decide_and]
  rw [hhonest, hbyzantine, insertionSort_peers committee address List.filter_sublist,
    insertionSort_peers committee address List.filter_sublist]

variable {config committee address ownName} {peer : Peer Address}

theorem address_of_mem_honest (h : peer ∈ (config.peers committee address ownName).1) :
    peer.address ∉ config.byzantineAddresses := by
  rw [peers_eq] at h
  obtain ⟨n, hn, rfl⟩ := List.mem_map.1 h
  have hp := (List.mem_filter.1 hn).2
  simp only [decide_eq_true_eq] at hp
  exact hp.2

theorem address_of_mem_byzantine (h : peer ∈ (config.peers committee address ownName).2) :
    peer.address ∈ config.byzantineAddresses := by
  rw [peers_eq] at h
  obtain ⟨n, hn, rfl⟩ := List.mem_map.1 h
  have hp := (List.mem_filter.1 hn).2
  simp only [decide_eq_true_eq] at hp
  exact hp.2

/-- Honest peers have addresses of their own. -/
theorem nodup_honest_addresses
    (hinj : ∀ a ∈ committee.names, ∀ b ∈ committee.names, address a = address b → a = b) :
    ((config.peers committee address ownName).1.map Peer.address).Nodup := by
  rw [peers_eq, List.map_map]
  refine List.Nodup.map_on ?_ (committee.names_nodup.filter _)
  intro a ha b hb hab
  exact hinj a (List.mem_of_mem_filter ha) b (List.mem_of_mem_filter hb) hab

theorem honest_sorted :
    ((config.peers committee address ownName).1.map Peer.name).Pairwise (· < ·) := by
  rw [peers_eq, List.map_map]
  have hnames : (config.honestNames committee address ownName).map
      (Peer.name ∘ peerOf committee address) = config.honestNames committee address ownName :=
    List.map_id _
  rw [hnames]
  exact committee.authorities.keys_sorted.sublist List.filter_sublist

/-- Nobody is missing: all stake is our own, that of a Byzantine or that of an honest peer. -/
theorem totalVotes_le_peers : committee.totalVotes ≤ committee.stake ownName +
    ((config.peers committee address ownName).2.map Peer.stake).sum +
    ((config.peers committee address ownName).1.map Peer.stake).sum := by
  have hsplit : ∀ names : List PublicKey, names.Nodup → (names.map committee.stake).sum ≤
      (if ownName ∈ names then committee.stake ownName else 0) +
      ((names.filter fun n =>
        decide (n ≠ ownName ∧ address n ∈ config.byzantineAddresses)).map committee.stake).sum +
      ((names.filter fun n =>
        decide (n ≠ ownName ∧ address n ∉ config.byzantineAddresses)).map committee.stake).sum := by
    intro names
    induction names with
    | nil => simp
    | cons n names ih =>
      intro hnodup
      obtain ⟨hn, hnodup⟩ := List.nodup_cons.1 hnodup
      have ih := ih hnodup
      simp only [ne_eq] at ih
      rw [List.map_cons, List.sum_cons, List.filter_cons, List.filter_cons]
      by_cases hown : n = ownName
      · subst hown
        rw [if_neg hn] at ih
        simp only [List.mem_cons_self, if_true, ne_eq, not_true, false_and, decide_false,
          Bool.false_eq_true, if_false]
        omega
      · have hmem : ownName ∈ n :: names ↔ ownName ∈ names := by
          simp [Ne.symm hown]
        by_cases hbyz : address n ∈ config.byzantineAddresses
        · simp only [hmem, hown, hbyz, ne_eq, not_false_eq_true, and_self, decide_true, if_true,
            not_true, and_false, decide_false, Bool.false_eq_true, if_false, List.map_cons,
            List.sum_cons]
          omega
        · simp only [hmem, hown, hbyz, ne_eq, not_false_eq_true, and_self, decide_true, if_true,
            and_false, decide_false, Bool.false_eq_true, if_false, List.map_cons, List.sum_cons]
          omega
  have htotal : (committee.names.map committee.stake).sum = committee.totalVotes := by
    rw [Committee.totalVotes_eq_weight, Weighted.sum_map_eq_weight _ committee.names_nodup]
    rfl
  have h := hsplit committee.names committee.names_nodup
  rw [htotal] at h
  rw [peers_eq, List.map_map, List.map_map]
  refine h.trans ?_
  refine Nat.add_le_add_right (Nat.add_le_add_right ?_ _) _
  split_ifs
  · exact le_rfl
  · exact Nat.zero_le _

end Peers

/-! ## The cut -/

section Cut

variable {Address : Type} [DecidableEq Address]

/-- The stake of some peers together. -/
def peerStake (peers : List (Peer Address)) : ℕ := (peers.map Peer.stake).sum

omit [DecidableEq Address] in
theorem peerStake_append (l l' : List (Peer Address)) :
    peerStake (l ++ l') = peerStake l + peerStake l' := by
  unfold peerStake
  rw [List.map_append, List.sum_append]

omit [DecidableEq Address] in
/-- The prefix taken reaches the threshold if all do, and no shorter one does. -/
theorem countHonest_spec (threshold : ℕ) : ∀ (honest : List (Peer Address)) (stake : ℕ),
    (threshold ≤ stake + peerStake honest →
      threshold ≤ stake + peerStake (honest.take (countHonest threshold stake honest))) ∧
    ∀ k < countHonest threshold stake honest, stake + peerStake (honest.take k) < threshold
  | [], stake => by simp [countHonest]
  | peer :: honest, stake => by
    have hcons : ∀ l, stake + peerStake (peer :: l) = stake + peer.stake + peerStake l := by
      intro l
      simp [peerStake, Nat.add_assoc]
    obtain ⟨ihreach, ihshort⟩ := countHonest_spec threshold honest (stake + peer.stake)
    rw [countHonest]
    split_ifs with hreached
    · exact ⟨fun _ => by omega, fun k hk => absurd hk (Nat.not_lt_zero _)⟩
    · refine ⟨fun h => ?_, fun k hk => ?_⟩
      · rw [List.take_succ_cons, hcons]
        rw [hcons] at h
        exact ihreach h
      · rcases k with _ | k
        · rw [List.take_zero]
          simp only [peerStake, List.map_nil, List.sum_nil]
          omega
        · rw [List.take_succ_cons, hcons]
          exact ihshort k (by omega)

variable {config : ByzantineConfig Address} {committee : Committee} {address : PublicKey → Address}
  {ownName : PublicKey}

theorem canonicalTargets_eq (hequiv : config.equivocation = true) :
    config.canonicalTargets committee address ownName =
      ((config.peers committee address ownName).2 ++ (config.peers committee address ownName).1.take
        (config.canonicalHonestCount committee address ownName)).map Peer.address := by
  unfold canonicalTargets
  rw [hequiv, List.map_append]
  rfl

theorem variantTargets_eq (hequiv : config.equivocation = true) {tag : ℕ} (htag : tag ≠ 0)
    (mahiMahi : Bool) : config.variantTargets committee address ownName tag mahiMahi =
      (config.peers committee address ownName).2.map Peer.address ++
        ((config.peers committee address ownName).1[
          (if mahiMahi then 0 else config.canonicalHonestCount committee address ownName) +
            tag - 1]?.map Peer.address).toList := by
  unfold variantTargets
  rw [hequiv]
  simp [htag]

omit [DecidableEq Address] in
/-- Where the addresses differ, a peer's address stands at its place only. -/
theorem getElem?_address_inj {peers : List (Peer Address)} (hnodup : (peers.map Peer.address).Nodup)
    {i j : ℕ} {peer : Peer Address} (hi : peers[i]? = some peer) :
    peers[j]?.map Peer.address = some peer.address ↔ j = i := by
  constructor
  · intro h
    have hj : (peers.map Peer.address)[j]? = some peer.address := by rw [List.getElem?_map, h]
    have hi' : (peers.map Peer.address)[i]? = some peer.address := by
      rw [List.getElem?_map, hi, Option.map_some]
    obtain ⟨hlt, -⟩ := List.getElem?_eq_some_iff.1 hj
    exact (List.getElem?_inj hlt hnodup).1 (hj.trans hi'.symm)
  · rintro rfl
    rw [hi, Option.map_some]

omit [DecidableEq Address] in
theorem mem_take_address_iff {peers : List (Peer Address)}
    (hnodup : (peers.map Peer.address).Nodup) {i k : ℕ} {peer : Peer Address}
    (hi : peers[i]? = some peer) : peer.address ∈ (peers.take k).map Peer.address ↔ i < k := by
  constructor
  · intro h
    obtain ⟨j, hj⟩ := List.mem_iff_getElem?.1 h
    rw [List.getElem?_map, List.getElem?_take] at hj
    split_ifs at hj with hlt
    · rwa [← (getElem?_address_inj hnodup hi).1 hj]
    · cases hj
  · intro h
    refine List.mem_map_of_mem (List.mem_iff_getElem?.2 ⟨i, ?_⟩)
    rw [List.getElem?_take, if_pos h, hi]

/-- Which branch an honest peer gets depends on its place. -/
theorem mem_branchTargets_iff (hequiv : config.equivocation = true)
    (hinj : ∀ a ∈ committee.names, ∀ b ∈ committee.names, address a = address b → a = b)
    {i : ℕ} {peer : Peer Address}
    (hpeer : (config.peers committee address ownName).1[i]? = some peer) (tag : ℕ)
    (mahiMahi : Bool) :
    peer.address ∈ config.branchTargets committee address ownName tag mahiMahi ↔
      if mahiMahi = false ∧ tag = 0 then
        i < config.canonicalHonestCount committee address ownName
      else tag ≠ 0 ∧ i + 1 =
        (if mahiMahi then 0 else config.canonicalHonestCount committee address ownName) + tag := by
  have hnodup : ((config.peers committee address ownName).1.map Peer.address).Nodup :=
    nodup_honest_addresses hinj
  have hbyz : peer.address ∉
      (config.peers committee address ownName).2.map Peer.address := by
    rintro h
    obtain ⟨other, hother, he⟩ := List.mem_map.1 h
    exact address_of_mem_honest (List.mem_of_getElem? hpeer)
      (he ▸ address_of_mem_byzantine hother)
  have hvariant : tag ≠ 0 →
      (peer.address ∈ config.variantTargets committee address ownName tag mahiMahi ↔ i + 1 =
        (if mahiMahi then 0 else config.canonicalHonestCount committee address ownName) + tag) := by
    intro htag
    rw [variantTargets_eq hequiv htag, List.mem_append, or_iff_right hbyz, Option.mem_toList,
      getElem?_address_inj hnodup hpeer]
    omega
  unfold branchTargets
  rw [hequiv]
  cases mahiMahi with
  | true =>
    by_cases htag : tag = 0
    · simp [htag, variantTargets]
    · simpa [htag] using hvariant htag
  | false =>
    by_cases htag : tag = 0
    · simp only [htag, Bool.not_true, Bool.false_eq_true, if_false, if_true, and_self]
      rw [canonicalTargets_eq hequiv, List.map_append, List.mem_append, or_iff_right hbyz,
        mem_take_address_iff hnodup hpeer]
    · simpa [htag] using hvariant htag

/-- The branches of one round go to different honest peers, and all to every Byzantine peer. -/
structure Routes (config : ByzantineConfig Address) (committee : Committee)
    (address : PublicKey → Address) (ownName : PublicKey) (mahiMahi : Bool) : Prop where
  apart : ∀ peer ∈ (config.peers committee address ownName).1, ∀ tag tag', tag ≠ tag' →
    peer.address ∈ config.branchTargets committee address ownName tag mahiMahi →
      peer.address ∉ config.branchTargets committee address ownName tag' mahiMahi
  byzantine : ∀ peer ∈ (config.peers committee address ownName).2, ∀ tag,
    (mahiMahi = true → tag ≠ 0) →
      peer.address ∈ config.branchTargets committee address ownName tag mahiMahi

theorem routes (hequiv : config.equivocation = true)
    (hinj : ∀ a ∈ committee.names, ∀ b ∈ committee.names, address a = address b → a = b)
    (mahiMahi : Bool) : Routes config committee address ownName mahiMahi := by
  refine ⟨fun peer hpeer tag tag' hne h h' => ?_, fun peer hpeer tag htag => ?_⟩
  · obtain ⟨i, hi⟩ := List.mem_iff_getElem?.1 hpeer
    rw [mem_branchTargets_iff hequiv hinj hi] at h h'
    cases mahiMahi with
    | true =>
      simp only [Bool.true_eq_false, false_and, if_false, if_true] at h h'
      omega
    | false =>
      simp only [true_and, Bool.false_eq_true, if_false] at h h'
      split_ifs at h h' <;> omega
  · have hmem : peer.address ∈ (config.peers committee address ownName).2.map Peer.address :=
      List.mem_map_of_mem hpeer
    unfold branchTargets
    rw [hequiv]
    cases mahiMahi with
    | true =>
      simp only [Bool.not_true, Bool.false_eq_true, if_false, if_true]
      rw [variantTargets_eq hequiv (htag rfl)]
      exact List.mem_append_left _ hmem
    | false =>
      simp only [Bool.not_true, Bool.false_eq_true, if_false]
      split_ifs with hzero
      · rw [canonicalTargets_eq hequiv, List.map_append]
        exact List.mem_append_left _ hmem
      · rw [variantTargets_eq hequiv hzero]
        exact List.mem_append_left _ hmem

/-- The targets of the canonical branch bring a quorum, with as few honest peers as possible. -/
structure CanonicalQuorum (config : ByzantineConfig Address) (committee : Committee)
    (address : PublicKey → Address) (ownName : PublicKey) : Prop where
  sorted : ((config.peers committee address ownName).1.map Peer.name).Pairwise (· < ·)
  targets : config.canonicalTargets committee address ownName =
    ((config.peers committee address ownName).2 ++ (config.peers committee address ownName).1.take
      (config.canonicalHonestCount committee address ownName)).map Peer.address
  quorum : committee.quorumThreshold ≤ committee.stake ownName +
    peerStake ((config.peers committee address ownName).2 ++
      (config.peers committee address ownName).1.take
        (config.canonicalHonestCount committee address ownName))
  shortest : ∀ k < config.canonicalHonestCount committee address ownName,
    committee.stake ownName + peerStake ((config.peers committee address ownName).2 ++
      (config.peers committee address ownName).1.take k) < committee.quorumThreshold

theorem canonicalQuorum (hequiv : config.equivocation = true) (hstake : 0 < committee.totalVotes) :
    CanonicalQuorum config committee address ownName := by
  have htotal := @totalVotes_le_peers _ _ config committee address ownName
  have hthreshold : committee.quorumThreshold ≤ committee.totalVotes := by
    unfold Committee.quorumThreshold
    omega
  obtain ⟨hreach, hshort⟩ := countHonest_spec committee.quorumThreshold
    (config.peers committee address ownName).1
    (committee.stake ownName + peerStake (config.peers committee address ownName).2)
  refine ⟨honest_sorted, canonicalTargets_eq hequiv, ?_, fun k hk => ?_⟩
  · rw [peerStake_append, ← Nat.add_assoc]
    exact hreach (hthreshold.trans htotal)
  · rw [peerStake_append, ← Nat.add_assoc]
    exact hshort k hk

end Cut

/-! ## Versions -/

section Versions

variable [Crypto] {Address : Type} {config : ByzantineConfig Address} {canonical : Header}
  {branches : SortedMap ℕ Digest}

omit [Crypto] in
theorem length_splitPayload (count : ℕ) (payload : SortedMap Digest ℕ) :
    (splitPayload count payload).length = count := by
  have hfold : ∀ (l : List ((Digest × ℕ) × ℕ)) (parts : List (SortedMap Digest ℕ)),
      (l.foldl (fun parts e => parts.modify (e.2 % count) fun part =>
        part.insert e.1.1 e.1.2) parts).length = parts.length := by
    intro l
    induction l with
    | nil => exact fun _ => rfl
    | cons e l ih =>
      intro parts
      rw [List.foldl_cons, ih, List.length_modify]
  unfold splitPayload
  rw [hfold, List.length_replicate]

omit [Crypto] in
/-- A part has the entries dealt to its place. -/
theorem lookup_deal (count j : ℕ) (d : Digest) : ∀ (l : List ((Digest × ℕ) × ℕ))
    (parts : List (SortedMap Digest ℕ)), (l.map fun e => e.1.1).Nodup →
      ((l.foldl (fun parts e => parts.modify (e.2 % count) fun part =>
        part.insert e.1.1 e.1.2) parts)[j]?).map (fun part => part.lookup d) =
        parts[j]?.map fun part =>
          ((l.find? fun e => decide (e.1.1 = d ∧ e.2 % count = j)).map fun e => e.1.2).or
            (part.lookup d)
  | [], parts, _ => by simp
  | e :: l, parts, hnodup => by
    obtain ⟨hnew, hnodup⟩ := List.nodup_cons.1 hnodup
    rw [List.foldl_cons, lookup_deal count j d l _ hnodup, List.getElem?_modify, List.find?_cons]
    by_cases hj : e.2 % count = j
    · by_cases hd : e.1.1 = d
      · -- no later entry has the digest
        have hnone : l.find? (fun e => decide (e.1.1 = d ∧ e.2 % count = j)) = none := by
          rw [List.find?_eq_none]
          intro e' he' h
          exact hnew (List.mem_map.2 ⟨e', he', (of_decide_eq_true h).1.trans hd.symm⟩)
        rw [hnone]
        rcases parts[j]? with _ | part
        · simp
        · simp [hj, hd]
      · rcases parts[j]? with _ | part
        · simp
        · simp [hj, hd, Ne.symm hd]
    · rcases parts[j]? with _ | part
      · simp
      · simp [hj]

omit [Crypto] in
theorem lookup_splitPayload {count j : ℕ} {payload part : SortedMap Digest ℕ}
    (hpart : (splitPayload count payload)[j]? = some part) (d : Digest) :
    part.lookup d = (payload.toList.zipIdx.find? fun e =>
      decide (e.1.1 = d ∧ e.2 % count = j)).map fun e => e.1.2 := by
  have hj : j < count := by
    have hlt := (List.getElem?_eq_some_iff.1 hpart).1
    rwa [length_splitPayload] at hlt
  have hnodup : (payload.toList.zipIdx.map fun e => e.1.1).Nodup := by
    have hkeys : payload.toList.zipIdx.map (fun e => e.1.1) = payload.keys := by
      have hmap : payload.toList.zipIdx.map (fun e => e.1.1) =
          (payload.toList.zipIdx.map Prod.fst).map Prod.fst := List.map_map.symm
      rw [hmap, List.zipIdx_map_fst, SortedMap.keys]
    rw [hkeys]
    exact payload.keys_nodup
  have h := lookup_deal count j d payload.toList.zipIdx (List.replicate count ∅) hnodup
  unfold splitPayload at hpart
  rw [hpart, List.getElem?_replicate, if_pos hj] at h
  simpa using h

omit [Crypto] in
/-- An entry of the payload is in the part its place is dealt to, and in no other. -/
theorem lookup_splitPayload_of_mem {count j i : ℕ} {payload part : SortedMap Digest ℕ}
    (hpart : (splitPayload count payload)[j]? = some part) {d : Digest} {w : ℕ}
    (hi : payload.toList[i]? = some (d, w)) :
    part.lookup d = if j = i % count then some w else none := by
  have hself : ((d, w), i) ∈ payload.toList.zipIdx := List.mem_zipIdx_iff_getElem?.2 hi
  have honly : ∀ e ∈ payload.toList.zipIdx, e.1.1 = d → e = ((d, w), i) := by
    intro e he hd
    have he' := List.mem_zipIdx_iff_getElem?.1 he
    have hkey : payload.keys[e.2]? = some d := by
      rw [SortedMap.keys, List.getElem?_map, he', Option.map_some, hd]
    have hkey' : payload.keys[i]? = some d := by
      rw [SortedMap.keys, List.getElem?_map, hi, Option.map_some]
    have hplace : e.2 = i := (List.getElem?_inj (List.getElem?_eq_some_iff.1 hkey).1
      payload.keys_nodup).1 (hkey.trans hkey'.symm)
    rw [hplace, hi] at he'
    exact Prod.ext (Option.some.inj he').symm hplace
  rw [lookup_splitPayload hpart]
  rcases hfind : payload.toList.zipIdx.find? fun e =>
      decide (e.1.1 = d ∧ e.2 % count = j) with _ | e
  · have hno := List.find?_eq_none.1 hfind _ hself
    simp only [decide_eq_true_eq, true_and] at hno
    rw [if_neg (Ne.symm hno), hfind, Option.map_none]
  · have hfound := List.find?_some hfind
    simp only [decide_eq_true_eq] at hfound
    obtain rfl := honly e (List.mem_of_find?_eq_some hfind) hfound.1
    rw [if_pos hfound.2.symm, hfind, Option.map_some]

omit [Crypto] in
theorem mem_branchParents {parents : SortedSet Digest} {tag : ℕ} {d : Digest} :
    d ∈ branchParents parents branches tag ↔
      d ∈ parents ∧ d ∉ branches.values ∨ branches.lookup tag = some d := by
  unfold branchParents
  rcases branches.lookup tag with _ | parent
  · simp
  · simp only [SortedSet.mem_insert, SortedSet.mem_filter, decide_eq_true_eq, Option.some.injEq]
    rw [or_comm, eq_comm]

/-- The versions share out the payload of the canonical header, and each has at most its own branch
parent besides the parents on no branch. -/
structure MahiSplit (canonical : Header) (branches : SortedMap ℕ Digest) (variants : List Header) :
    Prop where
  tags : ∀ (j : ℕ) (v : Header), variants[j]? = some v → v.equivocationTag = j + 1
  payload : ∀ d w, canonical.payload.lookup d = some w → ∃ i < variants.length,
    ∀ j v, variants[j]? = some v → v.payload.lookup d = if j = i then some w else none
  subset : ∀ v ∈ variants, ∀ d w, v.payload.lookup d = some w →
    canonical.payload.lookup d = some w
  parents : ∀ v ∈ variants, ∀ d ∈ canonical.parents, d ∉ branches.values → d ∈ v.parents
  branch : ∀ v ∈ variants, ∀ d ∈ v.parents, d ∈ branches.values →
    branches.lookup v.equivocationTag = some d

/-- What is at each place of the versions for Mahi-Mahi. -/
theorem signedAttackHeaders_mahiMahi (branches : SortedMap ℕ Digest) {protocol : DagProtocol}
    (hequiv : config.equivocation = true) (hround : 1 ≤ canonical.round)
    (hmahi : protocol.isMahiMahi = true) :
    (config.signedAttackHeaders canonical protocol branches).length = max config.variantCount 1 ∧
      ∀ (j : ℕ) (v : Header),
        (config.signedAttackHeaders canonical protocol branches)[j]? = some v →
        ∃ part, (splitPayload (max config.variantCount 1) canonical.payload)[j]? = some part ∧
          v.payload = part ∧ v.parents = branchParents canonical.parents branches (j + 1) ∧
            v.equivocationTag = j + 1 := by
  have hround' : canonical.round ≠ 0 := by omega
  unfold signedAttackHeaders
  simp only [hequiv, hround', hmahi, decide_false, Bool.not_true, Bool.or_self,
    Bool.false_eq_true, if_false, if_true]
  refine ⟨by rw [List.length_map, List.length_zipIdx, length_splitPayload], fun j v hv => ?_⟩
  rw [List.getElem?_map, List.getElem?_zipIdx, Option.map_map, Option.map_eq_some_iff] at hv
  obtain ⟨part, hpart, rfl⟩ := hv
  refine ⟨part, hpart, rfl, ?_, ?_⟩
  · simp [signVariant]
  · simp [signVariant]

theorem mahiSplit {protocol : DagProtocol} (hequiv : config.equivocation = true)
    (hround : 1 ≤ canonical.round) (hmahi : protocol.isMahiMahi = true) :
    MahiSplit canonical branches (config.signedAttackHeaders canonical protocol branches) := by
  obtain ⟨hlength, hplace⟩ := signedAttackHeaders_mahiMahi branches hequiv hround hmahi
  generalize config.signedAttackHeaders canonical protocol branches = variants at *
  have hmem : ∀ v ∈ variants, ∃ j, variants[j]? = some v := fun v hv =>
    List.mem_iff_getElem?.1 hv
  refine ⟨fun j v hv => ?_, fun d w hd => ?_, fun v hv d w hd => ?_, fun v hv d hd hno => ?_,
    fun v hv d hd hbranch => ?_⟩
  · obtain ⟨part, -, -, -, htag⟩ := hplace j v hv
    exact htag
  · obtain ⟨i, hi⟩ := List.mem_iff_getElem?.1 (SortedMap.lookup_eq_some.1 hd)
    refine ⟨i % max config.variantCount 1, ?_, fun j v hv => ?_⟩
    · rw [hlength]
      exact Nat.mod_lt _ (by omega)
    · obtain ⟨part, hpart, rfl, -, -⟩ := hplace j v hv
      exact lookup_splitPayload_of_mem hpart hi
  · obtain ⟨j, hj⟩ := hmem v hv
    obtain ⟨part, hpart, rfl, -, -⟩ := hplace j v hj
    rw [lookup_splitPayload hpart, Option.map_eq_some_iff] at hd
    obtain ⟨e, he, rfl⟩ := hd
    have hdigest := List.find?_some he
    simp only [decide_eq_true_eq] at hdigest
    have hentry : e.1 ∈ canonical.payload.toList :=
      List.fst_mem_of_mem_zipIdx (List.mem_of_find?_eq_some he)
    rw [SortedMap.lookup_eq_some, ← hdigest.1]
    exact hentry
  · obtain ⟨j, hj⟩ := hmem v hv
    obtain ⟨part, -, -, hparents, -⟩ := hplace j v hj
    rw [hparents, mem_branchParents]
    exact .inl ⟨hd, hno⟩
  · obtain ⟨j, hj⟩ := hmem v hv
    obtain ⟨part, -, -, hparents, htag⟩ := hplace j v hj
    rw [hparents, mem_branchParents] at hd
    rcases hd with ⟨-, hno⟩ | hown
    · exact absurd hbranch hno
    · rw [htag, hown]

/-- The versions of one round have different tags. -/
theorem nodup_tags {protocol : DagProtocol} (htag : canonical.equivocationTag = 0) :
    ((config.signedAttackHeaders canonical protocol branches).map Header.equivocationTag).Nodup := by
  have hsucc : ∀ l : List ℕ, l.Nodup → (l.map (· + 1)).Nodup := fun l hl =>
    hl.map fun _ _ h => Nat.succ.inj h
  unfold signedAttackHeaders
  split_ifs
  · exact List.nodup_singleton _
  · rw [List.map_map]
    have hmap : ∀ parts : List (SortedMap Digest ℕ), parts.zipIdx.map (Header.equivocationTag ∘
        fun e => signVariant { canonical with
          payload := e.1
          parents := branchParents canonical.parents branches (e.2 + 1)
          equivocationTag := e.2 + 1 }) = (List.range parts.length).map (· + 1) := by
      intro parts
      have hcomp := congrArg (List.map (· + 1)) (List.zipIdx_map_snd 0 parts)
      rw [List.map_map, ← List.range_eq_range'] at hcomp
      exact hcomp
    rw [hmap]
    exact hsucc _ List.nodup_range
  · rw [List.map_cons, List.map_map, htag]
    refine List.nodup_cons.2 ⟨fun h => ?_, hsucc _ List.nodup_range⟩
    obtain ⟨i, -, hi⟩ := List.mem_map.1 h
    exact Nat.succ_ne_zero i hi

end Versions

/-- In equivocation mode, in a committee with stake: the versions of a round have different tags and
go to different honest peers and to all Byzantine ones, the canonical one to a quorum with as few
honest peers as possible, and for Mahi-Mahi they share out the payload and the branch parents of a
header above the genesis round. -/
theorem equivocation_routing [Crypto] {Address : Type} [DecidableEq Address]
    (config : ByzantineConfig Address) (committee : Committee) (address : PublicKey → Address)
    (ownName : PublicKey) (hequiv : config.equivocation = true)
    (hinj : ∀ a ∈ committee.names, ∀ b ∈ committee.names, address a = address b → a = b)
    (hstake : 0 < committee.totalVotes) :
    (∀ mahiMahi, Routes config committee address ownName mahiMahi) ∧
      CanonicalQuorum config committee address ownName ∧
      ∀ (canonical : Header) (protocol : DagProtocol) (branches : SortedMap ℕ Digest),
        (canonical.equivocationTag = 0 → ((config.signedAttackHeaders canonical protocol
          branches).map Header.equivocationTag).Nodup) ∧
        (protocol.isMahiMahi = true → 1 ≤ canonical.round → MahiSplit canonical branches
          (config.signedAttackHeaders canonical protocol branches)) :=
  ⟨routes hequiv hinj, canonicalQuorum hequiv hstake, fun _ _ _ =>
    ⟨nodup_tags, fun hmahi hround => mahiSplit hequiv hround hmahi⟩⟩

/-- Four authorities without stake. -/
def stakelessCommittee : Committee :=
  ⟨SortedMap.ofList ((List.range 4).map fun i => (⟨Fin.ofNat _ i⟩, ⟨0, [0]⟩))⟩

/-- One Byzantine primary of four, which makes three versions. Its address is its key. -/
def attackConfig : ByzantineConfig PublicKey := ⟨true, 3, {3}⟩

/-- A header of round zero on two of the own branches. -/
def genesisOnBranches : Header := { parents := SortedSet.ofList [5, 6] }

/-- Without stake there is no quorum to reach, and a header of round zero is sent out as it is. -/
theorem not_equivocation_routing : letI := toyCrypto
    (∀ a ∈ stakelessCommittee.names, ∀ b ∈ stakelessCommittee.names, id a = id b → a = b) ∧
      ¬ CanonicalQuorum attackConfig stakelessCommittee id 3 ∧
      ¬ MahiSplit genesisOnBranches (SortedMap.ofList [(1, 5), (2, 6)])
        (attackConfig.signedAttackHeaders genesisOnBranches .mahiMahi
          (SortedMap.ofList [(1, 5), (2, 6)])) := by
  let _ := toyCrypto
  refine ⟨by decide, fun h => ?_, fun h => ?_⟩
  · have hquorum := h.quorum
    revert hquorum
    decide
  · have hbranch := h.branch genesisOnBranches (by decide) 5 (by decide)
      (by decide)
    revert hbranch
    decide

/-- Two Byzantine primaries of seven, and two versions. -/
def pairConfig : ByzantineConfig PublicKey := ⟨true, 2, {5, 6}⟩

/-- A header with three batches, on two of the own branches and on one other parent. -/
def forkedHeader : Header :=
  { author := 6, round := 2, payload := SortedMap.ofList [(11, 0), (12, 1), (13, 0)]
    parents := SortedSet.ofList [4, 5, 6] }

/-- The branches of authority 6: its Byzantine peer is on each, every honest peer on one. -/
theorem equivocation_routing_seven : letI := toyCrypto
    [0, 1, 2].map (fun tag => pairConfig.branchTargets (.uniform 7) id 6 tag false) =
        [[5, 0, 1, 2], [5, 3], [5, 4]] ∧
      Routes pairConfig (.uniform 7) id 6 false ∧ CanonicalQuorum pairConfig (.uniform 7) id 6 ∧
      (pairConfig.signedAttackHeaders forkedHeader .mahiMahi
          (SortedMap.ofList [(1, 5), (2, 6)])).map (fun v => (v.payload.toList, v.parents.toList)) =
        [([(11, 0), (13, 0)], [4, 5]), ([(12, 1)], [4, 6])] ∧
      ((pairConfig.signedAttackHeaders forkedHeader .narwhal ∅).map Header.equivocationTag).Nodup ∧
      MahiSplit forkedHeader (SortedMap.ofList [(1, 5), (2, 6)])
        (pairConfig.signedAttackHeaders forkedHeader .mahiMahi
          (SortedMap.ofList [(1, 5), (2, 6)])) := by
  let _ := toyCrypto
  obtain ⟨hroutes, hquorum, hheaders⟩ := equivocation_routing pairConfig (.uniform 7) id 6 rfl
    (by decide) (by decide)
  obtain ⟨htags, -⟩ := hheaders forkedHeader .narwhal ∅
  obtain ⟨-, hsplit⟩ := hheaders forkedHeader .mahiMahi (SortedMap.ofList [(1, 5), (2, 6)])
  exact ⟨by decide, hroutes false, hquorum, by decide, htags rfl, hsplit rfl (by decide)⟩

end ByzantineConfig

end NovelDag
