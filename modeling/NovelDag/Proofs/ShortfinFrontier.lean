import NovelDag.Proofs.ShortfinWave
import NovelDag.Proofs.ShortfinRun

/-!
# The frontier of a Shortfin wave

The blocks of the last round below a boundary are anchored by the authors of the boundary records
that reference them, and with the blocks of the leader they are what a wave is collected from. A
record the traversal from there does not take in has no part in the wave.

The authors are counted, while the threshold is one of stake. The two agree for every record map
exactly when no set of members has the stake of the threshold with fewer heads.
-/

namespace NovelDag

namespace Shortfin

variable [Crypto]

/-! ## Records that are not reached -/

omit [Crypto] in
theorem min?_eq_of_dominated {l l' : List ℕ} (hsub : ∀ n ∈ l, n ∈ l')
    (hdom : ∀ n ∈ l', ∃ k ∈ l, k ≤ n) : l'.min? = l.min? := by
  rcases hl : l.min? with _ | m
  · rw [List.min?_eq_none_iff] at hl ⊢
    refine List.eq_nil_iff_forall_not_mem.2 fun n hn => ?_
    obtain ⟨k, hk, -⟩ := hdom n hn
    simp [hl] at hk
  · rw [List.min?_eq_some_iff] at hl ⊢
    refine ⟨hsub m hl.1, fun n hn => ?_⟩
    obtain ⟨k, hk, hkn⟩ := hdom n hn
    exact (hl.2 k hk).trans hkn

section Orphans

variable {records records' : ShortfinRecords} {x : Certificate} {r validityThreshold : ℕ}
  {leaderBlocks : List Certificate} {state : State}

/-- The records with one more, whose digest and header id are new. -/
structure AddsRecord (records : ShortfinRecords) (x : Certificate) (records' : ShortfinRecords) :
    Prop where
  lookup : records'.lookup x.digest = some x
  erase : records'.erase x.digest = records
  id : ∀ c ∈ records.values, c.header.id ≠ x.header.id

/-- The blocks the traversal starts from. -/
def frontier (records : ShortfinRecords) (r validityThreshold : ℕ)
    (leaderBlocks : List Certificate) : List Certificate :=
  leaderBlocks ++ (recordsAtRound records (r - 1)).filter fun certificate =>
    isAnchored records r validityThreshold certificate

/-- The records below a round that are not committed. -/
def waveIndex (state : State) (records : ShortfinRecords) (r : ℕ) : ShortfinRecords :=
  records.retain fun _ certificate =>
    decide (certificate.round < r) && uncommitted state.lastCommitted certificate

/-- The ids the traversal of a wave collects. -/
def waveReach (state : State) (records : ShortfinRecords) (r validityThreshold : ℕ)
    (leaderBlocks : List Certificate) : List Digest :=
  causalReachability (frontier records r validityThreshold leaderBlocks)
    (waveIndex state records r) state.lastCommitted

namespace AddsRecord

variable (h : AddsRecord records x records')
include h

theorem filter_values {p : Certificate → Bool} (hp : p x = false) :
    records.values.filter p = records'.values.filter p := by
  rw [← h.erase]
  exact FinMap.filter_values_erase h.lookup hp

theorem lookup_of_ne {d : Digest} (hd : d ≠ x.digest) : records.lookup d = records'.lookup d := by
  rw [← h.erase]
  exact AList.lookup_erase_ne hd

theorem lookup_self : records.lookup x.digest = none := by
  rw [← h.erase]
  exact AList.lookup_erase _ _

theorem recordsAtRound_eq {n : ℕ} (hn : x.round ≠ n) :
    recordsAtRound records n = recordsAtRound records' n :=
  h.filter_values (decide_eq_false hn)

theorem isAnchored_eq (hr : x.round ≠ r) (c : Certificate) :
    isAnchored records r validityThreshold c = isAnchored records' r validityThreshold c := by
  unfold isAnchored anchored
  rw [h.recordsAtRound_eq hr]

/-- The blocks with other ids that the traversal starts from are the same. -/
theorem frontier_filter (hr : x.round ≠ r) :
    (frontier records r validityThreshold leaderBlocks).filter
        (fun c => decide (c.header.id ≠ x.header.id)) =
      (frontier records' r validityThreshold leaderBlocks).filter
        fun c => decide (c.header.id ≠ x.header.id) := by
  unfold frontier recordsAtRound
  simp only [List.filter_append, List.filter_filter, h.isAnchored_eq hr]
  rw [h.filter_values (by simp)]

/-- The records with other ids that a record leads to are the same. -/
theorem linkedRecords_filter (links : SortedSet Digest) :
    (linkedRecords (waveIndex state records r) links).filter
        (fun c => decide (c.header.id ≠ x.header.id)) =
      (linkedRecords (waveIndex state records' r) links).filter
        fun c => decide (c.header.id ≠ x.header.id) := by
  unfold linkedRecords waveIndex
  rw [List.filter_filterMap, List.filter_filterMap]
  refine List.filterMap_congr fun d _ => ?_
  rw [FinMap.lookup_retain, FinMap.lookup_retain]
  by_cases hd : d = x.digest
  · subst hd
    rw [h.lookup_self, h.lookup]
    simp only [Option.filter_none, Option.filter_some]
    split_ifs <;> simp [Option.filter_some]
  · rw [h.lookup_of_ne hd]

theorem mem_values {c : Certificate} :
    c ∈ records'.values ↔ c ∈ records.values ∨ c = x := by
  simp only [FinMap.mem_values]
  constructor
  · rintro ⟨d, hd⟩
    by_cases hdx : d = x.digest
    · rw [hdx, h.lookup] at hd
      exact .inr (Option.some.inj hd).symm
    · exact .inl ⟨d, h.lookup_of_ne hdx ▸ hd⟩
  · rintro (⟨d, hd⟩ | rfl)
    · have hdx : d ≠ x.digest := fun hdx => by
        rw [hdx, h.lookup_self] at hd
        cases hd
      exact ⟨d, h.lookup_of_ne hdx ▸ hd⟩
    · exact ⟨_, h.lookup⟩

/-- The frontier has the new record more if it is anchored. -/
theorem mem_frontier (hr : x.round ≠ r) {c : Certificate} :
    c ∈ frontier records' r validityThreshold leaderBlocks ↔
      c ∈ frontier records r validityThreshold leaderBlocks ∨
        c = x ∧ x.round = r - 1 ∧ isAnchored records' r validityThreshold x = true := by
  simp only [frontier, recordsAtRound, List.mem_append, List.mem_filter, h.mem_values,
    h.isAnchored_eq hr, decide_eq_true_eq]
  constructor
  · rintro (hc | ⟨⟨hc | rfl, hround⟩, ha⟩)
    · exact .inl (.inl hc)
    · exact .inl (.inr ⟨⟨hc, hround⟩, ha⟩)
    · exact .inr ⟨rfl, hround, ha⟩
  · rintro ((hc | ⟨⟨hc, hround⟩, ha⟩) | ⟨rfl, hround, ha⟩)
    · exact .inl hc
    · exact .inr ⟨⟨.inl hc, hround⟩, ha⟩
    · exact .inr ⟨⟨.inr rfl, hround⟩, ha⟩

/-- The lowest round of the frontier stays, if an anchored new record finds one as low there. -/
theorem min_round_frontier (hr : x.round ≠ r)
    (hlow : x.round = r - 1 → isAnchored records' r validityThreshold x = true →
      ∃ b ∈ frontier records r validityThreshold leaderBlocks, b.round < r) :
    ((frontier records' r validityThreshold leaderBlocks).map Certificate.round).min? =
      ((frontier records r validityThreshold leaderBlocks).map Certificate.round).min? := by
  refine min?_eq_of_dominated (fun n hn => ?_) fun n hn => ?_
  · obtain ⟨c, hc, rfl⟩ := List.mem_map.1 hn
    exact List.mem_map_of_mem ((h.mem_frontier hr).2 (.inl hc))
  · obtain ⟨c, hc, rfl⟩ := List.mem_map.1 hn
    rcases (h.mem_frontier hr).1 hc with hc | ⟨rfl, hround, ha⟩
    · exact ⟨_, List.mem_map_of_mem hc, le_rfl⟩
    · obtain ⟨b, hb, hbr⟩ := hlow hround ha
      exact ⟨_, List.mem_map_of_mem hb, by omega⟩

end AddsRecord

/-- The traversal of a wave, with the items of an id left out, on more fuel. -/
def reachWithout (s : ShortfinState) (r floor : ℕ) (k : Digest) (m : ℕ)
    (seeds : List Certificate) : List Digest :=
  Worklist.reach (fun c => c.header.id) (skips s floor)
    (fun visited c => ((linksOf s r c).filter fun q => decide (q.header.id ∉ visited)).filter
      fun q => decide (q.header.id ≠ k))
    m (seeds.reverse.filter fun c => decide (c.header.id ≠ k)) []

omit [Crypto] in
/-- The items of an id that is not collected might as well not be there. -/
theorem causalReachability_eq {s : ShortfinState} {seeds : List Certificate} {k : Digest}
    (hk : k ∉ causalReachability seeds (indexOf s r) s.state.lastCommitted) :
    ∃ n, ∀ m, n ≤ m → causalReachability seeds (indexOf s r) s.state.lastCommitted =
      reachWithout s r ((seeds.map Certificate.round).min?.getD 0 - 100) k m seeds := by
  refine ⟨seeds.length + (seeds.length + (indexOf s r).entries.length) * linkCount s r seeds,
    fun m hm => ?_⟩
  exact Worklist.reach_eq_filter (P := fun x => x ∈ seeds ++ (indexOf s r).values)
    (K := idsOf s r seeds) expands_linksOf (fun _ _ _ => mem_of_mem_linksOf)
    (fun _ hx => .inl (id_mem_idsOf hx)) (fun _ => length_linksOf_le) _ hm edges_idsOf_le
    (fun _ hx => List.mem_append_left _ (List.mem_reverse.1 hx)) hk

/-- With the items of the new id left out, the traversals are one. -/
theorem AddsRecord.reachWithout_eq (h : AddsRecord records x records') (hr : x.round ≠ r)
    (floor m : ℕ) :
    reachWithout ⟨state, records', []⟩ r floor x.header.id m
        (frontier records' r validityThreshold leaderBlocks) =
      reachWithout ⟨state, records, []⟩ r floor x.header.id m
        (frontier records r validityThreshold leaderBlocks) := by
  have hlinks : ∀ c, (linksOf ⟨state, records', []⟩ r c).filter
      (fun q => decide (q.header.id ≠ x.header.id)) =
        (linksOf ⟨state, records, []⟩ r c).filter fun q => decide (q.header.id ≠ x.header.id) := by
    intro c
    unfold linksOf
    rw [List.filter_append, List.filter_append]
    exact congrArg₂ _ (h.linkedRecords_filter _).symm (h.linkedRecords_filter _).symm
  unfold reachWithout
  rw [List.filter_reverse, List.filter_reverse, h.frontier_filter hr]
  congr 1
  funext visited c
  rw [List.filter_comm, hlinks, List.filter_comm]

/-- The traversal takes in the same ids with the new record as without it. -/
theorem AddsRecord.waveReach_eq (h : AddsRecord records x records') (hr : x.round ≠ r)
    (hx : x.header.id ∉ waveReach state records' r validityThreshold leaderBlocks)
    (hlow : x.round = r - 1 → isAnchored records' r validityThreshold x = true →
      leaderBlocks = [] ∨ ∃ b ∈ leaderBlocks, b.round < r) :
    waveReach state records' r validityThreshold leaderBlocks =
      waveReach state records r validityThreshold leaderBlocks := by
  obtain ⟨n', hn'⟩ := causalReachability_eq (s := ⟨state, records', []⟩) hx
  by_cases hempty : frontier records r validityThreshold leaderBlocks = []
  · -- without a frontier nothing is reached, whatever the floor
    have hnil : ∀ s floor m, reachWithout s r floor x.header.id m [] = [] := fun s floor m => by
      cases m <;> rfl
    have h₁ : waveReach state records r validityThreshold leaderBlocks = [] := by
      unfold waveReach
      rw [hempty, causalReachability]
      generalize List.length _ + _ = n
      cases n <;> rfl
    rw [h₁, waveReach]
    refine (hn' n' le_rfl).trans ?_
    rw [h.reachWithout_eq hr, hempty, hnil]
  have hlow' : x.round = r - 1 → isAnchored records' r validityThreshold x = true →
      ∃ b ∈ frontier records r validityThreshold leaderBlocks, b.round < r := by
    intro hround ha
    rcases hlow hround ha with rfl | ⟨b, hb, hbr⟩
    · obtain ⟨b, hb⟩ := List.exists_mem_of_ne_nil _ hempty
      refine ⟨b, hb, ?_⟩
      simp only [frontier, recordsAtRound, List.nil_append, List.mem_filter,
        decide_eq_true_eq] at hb
      omega
    · exact ⟨b, List.mem_append_left _ hb, hbr⟩
  have hfloor := h.min_round_frontier hr hlow'
  -- a block of the frontier with the new id is skipped, or it would be reached with the record
  have hnew : x.header.id ∉ waveReach state records r validityThreshold leaderBlocks := by
    refine Worklist.notMem_reach (fun visited c y hy => ?_) _ (fun y hy hid => ?_) (by simp)
    · obtain ⟨p, -, hp⟩ := mem_linksOf (s := ⟨state, records, []⟩).1 (List.mem_filter.1 hy).1
      exact h.id y (mem_values_indexOf.1 (FinMap.mem_values.2 ⟨p, hp⟩)).1
    · by_contra hskip
      refine hx (hid ▸ seed_mem_causalReachability (s := ⟨state, records', []⟩)
        ((h.mem_frontier hr).2 (.inl (List.mem_reverse.1 hy))) ?_)
      rw [hfloor]
      exact Bool.not_eq_true _ ▸ hskip
  obtain ⟨n, hn⟩ := causalReachability_eq (s := ⟨state, records, []⟩) hnew
  refine (hn' (n' + n) (Nat.le_add_right _ _)).trans ?_
  rw [hfloor, h.reachWithout_eq hr]
  exact (hn (n' + n) (Nat.le_add_left _ _)).symm

omit [Crypto] in
theorem min_round_le {seeds : List Certificate} {c : Certificate} (hc : c ∈ seeds) :
    (seeds.map Certificate.round).min?.getD 0 ≤ c.round := by
  rcases hm : (seeds.map Certificate.round).min? with _ | m
  · exact Nat.zero_le _
  · exact (List.min?_eq_some_iff.1 hm).2 _ (List.mem_map_of_mem hc)

/-- What the QCs of the reached and of the boundary records certify. -/
def certifiedTargets (state : State) (records : ShortfinRecords) (r validityThreshold : ℕ)
    (leaderBlocks : List Certificate) : List Digest :=
  (((waveIndex state records r).values.filter fun cert =>
      decide (cert.header.id ∈ waveReach state records r validityThreshold leaderBlocks)) ++
    recordsAtRound records r).filterMap fun cert => cert.header.qc.map EmbeddedQc.target

theorem collectWave_eq (r : ℕ) (state : State) (validityThreshold : ℕ)
    (leaderBlocks : List Certificate) (records : ShortfinRecords) :
    collectWave r state validityThreshold leaderBlocks records =
      ((waveIndex state records r).values.filter fun c =>
        (decide (c.header.id ∈ certifiedTargets state records r validityThreshold leaderBlocks) &&
          !c.votes.isEmpty) &&
          if c.round = r - 1 then isAnchored records r validityThreshold c
          else decide (c.header.id ∈ waveReach state records r validityThreshold
            leaderBlocks)).insertionSort
        fun x y => toLex (x.round, x.header.id) ≤ toLex (y.round, y.header.id) := rfl

/-- A record that is not reached has no part in the wave. -/
theorem collectWave_orphan (r : ℕ) (state : State) (validityThreshold : ℕ)
    (leaderBlocks : List Certificate) (records records' : ShortfinRecords) (x : Certificate)
    (h : AddsRecord records x records') (hr : x.round ≠ r)
    (hx : x.header.id ∉ waveReach state records' r validityThreshold leaderBlocks)
    (hlow : x.round = r - 1 → isAnchored records' r validityThreshold x = true →
      leaderBlocks = [] ∨ ∃ b ∈ leaderBlocks, b.round < r) :
    collectWave r state validityThreshold leaderBlocks records' =
      collectWave r state validityThreshold leaderBlocks records := by
  have hreach := h.waveReach_eq hr hx hlow
  have hfilter : ∀ p : Certificate → Bool,
      ((decide (x.round < r) && uncommitted state.lastCommitted x) = true → p x = false) →
        (waveIndex state records' r).values.filter p =
          (waveIndex state records r).values.filter p := by
    intro p hp
    unfold waveIndex
    rw [FinMap.values_retain, FinMap.values_retain, List.filter_filter, List.filter_filter]
    refine (h.filter_values ?_).symm
    rw [Bool.and_eq_false_iff]
    by_cases hi : (decide (x.round < r) && uncommitted state.lastCommitted x) = true
    · exact .inl (hp hi)
    · exact .inr (Bool.not_eq_true _ ▸ hi)
  have htargets : ((waveIndex state records' r).values.filter fun c => decide
      (c.header.id ∈ waveReach state records' r validityThreshold leaderBlocks)) ++
        recordsAtRound records' r =
      ((waveIndex state records r).values.filter fun c => decide
        (c.header.id ∈ waveReach state records r validityThreshold leaderBlocks)) ++
          recordsAtRound records r := by
    rw [h.recordsAtRound_eq hr, hfilter _ (fun _ => decide_eq_false hx), hreach]
  -- the record is not output: it is neither anchored nor reached
  have hout : ∀ certified : Certificate → Bool,
      ((waveIndex state records' r).values.filter fun c => certified c &&
        if c.round = r - 1 then isAnchored records' r validityThreshold c
        else decide (c.header.id ∈ waveReach state records' r validityThreshold leaderBlocks)) =
      (waveIndex state records r).values.filter fun c => certified c &&
        if c.round = r - 1 then isAnchored records r validityThreshold c
        else decide (c.header.id ∈ waveReach state records r validityThreshold leaderBlocks) := by
    intro certified
    rw [hfilter _ fun hi => ?_]
    · simp only [h.isAnchored_eq hr, hreach]
    rw [Bool.and_eq_true, decide_eq_true_eq] at hi
    split_ifs with hround
    · have ha : isAnchored records' r validityThreshold x = false := by
        by_contra ha
        rw [Bool.not_eq_false] at ha
        have hseed : x ∈ frontier records' r validityThreshold leaderBlocks :=
          (h.mem_frontier hr).2 (.inr ⟨rfl, hround, ha⟩)
        have hle := min_round_le hseed
        refine hx (seed_mem_causalReachability (s := ⟨state, records', []⟩) hseed ?_)
        rw [Bool.or_eq_false_iff, Bool.not_eq_false', decide_eq_false_iff_not]
        exact ⟨by omega, hi.2⟩
      rw [ha, Bool.and_false]
    · rw [decide_eq_false hx, Bool.and_false]
  rw [collectWave_eq, collectWave_eq, hout]
  unfold certifiedTargets
  rw [htargets]

/-- A map with a new entry. -/
theorem AddsRecord.insert (hd : records.lookup x.digest = none)
    (hid : ∀ c ∈ records.values, c.header.id ≠ x.header.id) :
    AddsRecord records x (AList.insert x.digest x records) where
  lookup := AList.lookup_insert _
  erase := by
    have hkeys : x.digest ∉ records := AList.lookup_eq_none.1 hd
    refine AList.ext ?_
    rw [AList.insert_of_notMem hkeys]
    exact List.kerase_cons_eq rfl
  id := hid

end Orphans

/-! ## Anchoring by heads and by stake -/

section Anchoring

variable {committee : Committee} {records : ShortfinRecords} {r : ℕ}

/-- The authors of boundary records that reference a record, each of them once. -/
def anchoringAuthors (records : ShortfinRecords) (r : ℕ) (digest : Digest) : Finset PublicKey :=
  (((recordsAtRound records r).filter fun certificate =>
    decide (digest ∈ certificate.header.parents)).map Certificate.origin).toFinset

/-- The stake of these authors reaches the validity threshold. -/
def AnchoredByStake (committee : Committee) (records : ShortfinRecords) (r : ℕ)
    (certificate : Certificate) : Prop :=
  committee.validityThreshold ≤
    Weighted.weight committee.stake (anchoringAuthors records r certificate.digest)

/-- The committee is not empty, and members with the stake of the validity threshold are as many as
it says. -/
def HeadsSuffice (committee : Committee) : Prop :=
  committee.names ≠ [] ∧ ∀ S ⊆ committee.members,
    committee.validityThreshold ≤ Weighted.weight committee.stake S →
      committee.validityThreshold ≤ S.card

omit [Crypto] in
theorem anchored_eq_card (digest : Digest) :
    anchored records r digest = (anchoringAuthors records r digest).card := by
  rw [anchored, anchoringAuthors, List.card_toFinset]

omit [Crypto] in
/-- Every boundary author is one of the records of the round. -/
theorem anchoringAuthors_subset (hmember : ∀ c ∈ recordsAtRound records r,
    c.origin ∈ committee.members) (digest : Digest) :
    anchoringAuthors records r digest ⊆ committee.members := by
  intro a ha
  simp only [anchoringAuthors, List.mem_toFinset, List.mem_map, List.mem_filter] at ha
  obtain ⟨c, ⟨hc, -⟩, rfl⟩ := ha
  exact hmember c hc

omit [Crypto] in
theorem validityThreshold_pos (hpos : ∀ a ∈ committee.names, 0 < committee.stake a)
    (hne : committee.names ≠ []) : 0 < committee.validityThreshold := by
  obtain ⟨a, ha⟩ := List.exists_mem_of_ne_nil _ hne
  have hle := Weighted.weight_mono committee.stake
    (Finset.singleton_subset_iff.2 (List.mem_toFinset.2 ha) : {a} ⊆ committee.members)
  have hstake := hpos a ha
  rw [← Committee.totalVotes_eq_weight, Weighted.weight, Finset.sum_singleton] at hle
  unfold Committee.validityThreshold
  omega

omit [Crypto] in
/-- Members are as many as they have stake at most. -/
theorem card_le_weight (hpos : ∀ a ∈ committee.names, 0 < committee.stake a)
    {S : Finset PublicKey} (hS : S ⊆ committee.members) :
    S.card ≤ Weighted.weight committee.stake S := by
  rw [Finset.card_eq_sum_ones]
  exact Finset.sum_le_sum fun a ha => hpos a (List.mem_toFinset.1 (hS ha))

/-- On one record the two agree unless its authors have the stake and not the heads. -/
theorem isAnchored_iff (hpos : ∀ a ∈ committee.names, 0 < committee.stake a)
    (hne : committee.names ≠ [])
    (hmember : ∀ c ∈ recordsAtRound records r, c.origin ∈ committee.members)
    (certificate : Certificate) :
    (isAnchored records r committee.validityThreshold certificate = true ↔
        AnchoredByStake committee records r certificate) ↔
      (AnchoredByStake committee records r certificate →
        committee.validityThreshold ≤ (anchoringAuthors records r certificate.digest).card) := by
  have hthreshold := validityThreshold_pos hpos hne
  have hcard := card_le_weight hpos (anchoringAuthors_subset hmember certificate.digest)
  unfold isAnchored AnchoredByStake
  rw [anchored_eq_card, decide_eq_true_eq]
  constructor
  · intro h hstake
    exact (h.2 hstake).2
  · intro h
    exact ⟨fun ha => by omega, fun hstake => ⟨by have := h hstake; omega, h hstake⟩⟩

/-- A boundary record of an author on a block. -/
def referenceTo (target : Digest) (author : PublicKey) : Certificate :=
  { header := { author, round := 1, parents := SortedSet.ofList [target] } }

omit [Crypto] in
/-- Records of one round by the authors of a set, each on the block. -/
theorem exists_records (S : Finset PublicKey) (target : Digest) :
    ∃ records : ShortfinRecords, (∀ c ∈ recordsAtRound records 1, c.origin ∈ S) ∧
      anchoringAuthors records 1 target = S := by
  let entries : List (Digest × Certificate) :=
    S.toList.map fun a => (⟨a.val⟩, referenceTo target a)
  have hkeys : (entries.map Prod.fst).Nodup := by
    rw [List.map_map]
    refine S.nodup_toList.map fun a b hab => PublicKey.val_injective ?_
    exact congrArg Digest.val hab
  have hvalues : ∀ c, c ∈ recordsAtRound (FinMap.ofList entries) 1 ↔
      ∃ a ∈ S, referenceTo target a = c := by
    intro c
    rw [recordsAtRound, List.mem_filter, FinMap.mem_values, decide_eq_true_eq]
    constructor
    · rintro ⟨⟨d, hd⟩, -⟩
      obtain ⟨a, ha, he⟩ := List.mem_map.1 (FinMap.mem_of_lookup_ofList hd)
      exact ⟨a, Finset.mem_toList.1 ha, (Prod.mk.inj he).2⟩
    · rintro ⟨a, ha, rfl⟩
      refine ⟨⟨⟨a.val⟩, FinMap.lookup_ofList_of_mem hkeys ?_⟩, rfl⟩
      exact List.mem_map.2 ⟨a, Finset.mem_toList.2 ha, rfl⟩
  refine ⟨FinMap.ofList entries, fun c hc => ?_, ?_⟩
  · obtain ⟨a, ha, rfl⟩ := (hvalues c).1 hc
    exact ha
  · ext a
    simp only [anchoringAuthors, List.mem_toFinset, List.mem_map, List.mem_filter, hvalues,
      decide_eq_true_eq]
    constructor
    · rintro ⟨c, ⟨⟨b, hb, rfl⟩, -⟩, rfl⟩
      exact hb
    · intro ha
      exact ⟨_, ⟨⟨a, ha, rfl⟩, by simp [referenceTo]⟩, rfl⟩

/-- Anchoring follows stake for all records of members if and only if heads suffice. -/
theorem anchored_by_stake_iff (committee : Committee)
    (hpos : ∀ a ∈ committee.names, 0 < committee.stake a) :
    (∀ (records : ShortfinRecords) (r : ℕ) (certificate : Certificate),
      (∀ c ∈ recordsAtRound records r, c.origin ∈ committee.members) → certificate.round + 1 = r →
        (isAnchored records r committee.validityThreshold certificate = true ↔
          AnchoredByStake committee records r certificate)) ↔ HeadsSuffice committee := by
  constructor
  · intro h
    have hne : committee.names ≠ [] := by
      -- without members the threshold is zero, and the stake of nobody reaches it
      intro hnil
      have hzero : committee.validityThreshold = 0 := by
        rw [Committee.validityThreshold, Committee.totalVotes_eq_weight, Committee.members, hnil]
        simp
      have hone := (h ∅ 1 default (by simp [recordsAtRound, FinMap.values]) rfl).2
        (by simp [AnchoredByStake, hzero])
      simp [isAnchored, anchored, recordsAtRound, FinMap.values] at hone
    refine ⟨hne, fun S hS hstake => ?_⟩
    obtain ⟨records, hrecords, hauthors⟩ := exists_records S (default : Certificate).digest
    have hmember : ∀ c ∈ recordsAtRound records 1, c.origin ∈ committee.members :=
      fun c hc => hS (hrecords c hc)
    have hone := (isAnchored_iff hpos hne hmember default).1 (h records 1 default hmember rfl)
    unfold AnchoredByStake at hone
    rw [hauthors] at hone
    exact hone hstake
  · rintro ⟨hne, hS⟩ records r certificate hmember -
    exact (isAnchored_iff hpos hne hmember certificate).2
      (hS _ (anchoringAuthors_subset hmember certificate.digest))

end Anchoring

end Shortfin

/-! ## Two small waves -/

namespace Shortfin

/-- A block on some blocks that carries a QC for some of them, with a vote. -/
def toyBlock (author : PublicKey) (round : ℕ) (parents certified : List Certificate)
    (tag : ℕ) : Certificate :=
  letI := toyCrypto
  let header : Header :=
    { author, round, equivocationTag := tag
      parents := SortedSet.ofList (parents.map Certificate.digest)
      qc := certified.head?.map fun c => { target := c.header.id, round := c.round } }
  { header := { header with id := header.digest }, votes := [{}] }

def toyRecords (blocks : List Certificate) : ShortfinRecords :=
  letI := toyCrypto
  FinMap.ofList (blocks.map fun c => (c.digest, c))

/-- Everything below some rounds is committed. -/
def toyState (committed : List (PublicKey × ℕ)) : State where
  lastCommittedRound := 0
  lastCommitted := FinMap.ofList committed
  dag := ∅

/-- A block of round 2, one on it by the leader in round 3, and one that nothing references. -/
def lowBlock : Certificate := toyBlock 1 2 [] [] 0

def leaderBlock : Certificate := toyBlock 0 3 [lowBlock] [lowBlock] 0

def orphanBlock : Certificate := toyBlock 1 2 [] [leaderBlock] 1

theorem collectWave_orphanBlock : letI := toyCrypto
    let records := toyRecords [lowBlock, leaderBlock]
    collectWave 4 (toyState []) 2 [leaderBlock] (records.insert orphanBlock.digest orphanBlock) =
        collectWave 4 (toyState []) 2 [leaderBlock] records ∧
      collectWave 4 (toyState []) 2 [leaderBlock] records = [lowBlock] := by
  let _ := toyCrypto
  exact ⟨collectWave_orphan 4 (toyState []) 2 [leaderBlock] _ _ orphanBlock
    (AddsRecord.insert (by decide +kernel) (by decide +kernel)) (by decide +kernel)
    (by decide +kernel) (by decide +kernel), by decide +kernel⟩

/-- A block a hundred rounds below a committed block of round 103, and a leader block of the
boundary round 104 on both. -/
def deepBlock : Certificate := toyBlock 1 3 [] [] 0

def committedBlock : Certificate := toyBlock 2 103 [] [] 0

def highLeader : Certificate := toyBlock 0 104 [deepBlock, committedBlock] [deepBlock] 0

/-- The committed block is in the frontier and reaches nothing, but it lowers the floor of the
traversal. -/
theorem not_collectWave_orphan : ¬ ∀ [Crypto] (r : ℕ) (state : State) (validityThreshold : ℕ)
    (leaderBlocks : List Certificate) (records records' : ShortfinRecords) (x : Certificate),
    AddsRecord records x records' → x.round ≠ r →
      x.header.id ∉ waveReach state records' r validityThreshold leaderBlocks →
        collectWave r state validityThreshold leaderBlocks records' =
          collectWave r state validityThreshold leaderBlocks records := by
  intro hall
  let _ := toyCrypto
  have h := @hall toyCrypto 104 (toyState [(2, 103)]) 1 [highLeader]
    (toyRecords [deepBlock, highLeader]) _ committedBlock
    (AddsRecord.insert (by decide +kernel) (by decide +kernel)) (by decide +kernel)
    (by decide +kernel)
  revert h
  decide +kernel

/-- Four authorities, the first one with half of the stake. -/
def heavyCommittee : Committee :=
  ⟨SortedMap.ofList [(0, ⟨3, [0]⟩), (1, ⟨1, [0]⟩), (2, ⟨1, [0]⟩), (3, ⟨1, [0]⟩)]⟩

/-- The heavy authority alone references the block of the leader, with more stake than the threshold
asks for. -/
theorem not_anchored_by_stake : ¬ ∀ [Crypto] (committee : Committee) (records : ShortfinRecords)
    (r : ℕ) (certificate : Certificate), (∀ a ∈ committee.names, 0 < committee.stake a) →
      certificate.round + 1 = r →
        (isAnchored records r committee.validityThreshold certificate = true ↔
          AnchoredByStake committee records r certificate) := by
  intro hall
  have h := (@hall toyCrypto heavyCommittee
    (toyRecords [lowBlock, leaderBlock, toyBlock 0 4 [leaderBlock] [] 0]) 4 leaderBlock
    (by decide) (by decide)).2
  unfold AnchoredByStake at h
  revert h
  decide +kernel

theorem uniform_headsSuffice : HeadsSuffice (.uniform 4) := by
  have hone : ∀ a ∈ (Committee.uniform 4).names, (Committee.uniform 4).stake a = 1 := by
    decide
  refine ⟨by decide, fun S hS hstake => ?_⟩
  rwa [Weighted.weight, Finset.sum_congr rfl fun a ha => hone a (List.mem_toFinset.1 (hS ha)),
    ← Finset.card_eq_sum_ones] at hstake

/-- Two authorities of one stake each, one of them with two boundary records. -/
theorem anchored_by_stake_uniform : letI := toyCrypto
    let records := toyRecords [lowBlock, leaderBlock, toyBlock 1 4 [leaderBlock] [] 0,
      toyBlock 1 4 [leaderBlock] [] 1, toyBlock 2 4 [leaderBlock] [] 0]
    isAnchored records 4 (Committee.uniform 4).validityThreshold leaderBlock = true ↔
      AnchoredByStake (.uniform 4) records 4 leaderBlock := by
  let _ := toyCrypto
  exact (anchored_by_stake_iff (.uniform 4) (by decide)).2 uniform_headsSuffice _ 4
    leaderBlock (by decide +kernel) (by decide +kernel)

end Shortfin

end NovelDag
