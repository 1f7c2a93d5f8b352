import NovelDag.Proofs.MahiDecisions
import NovelDag.Proofs.ConsensusState
import NovelDag.Lib.KeyOrder

/-!
# Agreement in Mahi-Mahi

What a node has output once it has passed a number of slots is a function of the verdicts on them:
each committed leader adds what it reaches and no leader before it did, in one order. So a node
refines the sequence `Emits` of the whole universe, and two nodes agree.
-/

namespace NovelDag

namespace MahiMahi

open Fallible MahiDag AnchorDecision PrefixLog

variable [Crypto]

/-! ## What the slots output -/

section Emits

variable (committee : Committee) (U : Digest → Option Header) (waveLength : ℕ)
  (schedule : ℕ → ℕ → PublicKey)

/-- The place of a block in the output: by round, then by author, then by digest. -/
def outputKey (x : Digest × Header) : ℕ ×ₗ PublicKey ×ₗ Digest :=
  toLex (x.2.round, toLex (x.2.author, x.1))

/-- The parents of a block. -/
def parentsIn (U : Digest → Option Header) (d : Digest) : List Digest :=
  (U d).elim [] fun h => h.parents.toList

/-- The blocks a leader reaches past those that are out, in the order of the output. -/
structure Ordered (emitted : List Digest) (leader : Digest) (blocks : List (Digest × Header)) :
    Prop where
  nodup : blocks.Nodup
  sorted : blocks.Pairwise fun x y => outputKey x ≤ outputKey y
  mem : ∀ d h, (d, h) ∈ blocks ↔ U d = some h ∧ d ∉ emitted ∧
    Relation.ReflTransGen (Worklist.Step (· ∈ emitted) (parentsIn U)) leader d

/-- What is out once a number of slots has been passed. -/
inductive Emits : ℕ → List Digest → List Header → Prop
  | start : Emits 0 ((Certificate.genesis committee).map Certificate.digest) []
  | skip {s : ℕ} {emitted : List Digest} {out : List Header} (h : Emits s emitted out)
      (hs : Supported committee U waveLength schedule s .skip) : Emits (s + 1) emitted out
  | commit {s : ℕ} {emitted : List Digest} {out : List Header} (h : Emits s emitted out)
      {leader : Digest} (hs : Supported committee U waveLength schedule s (.commit leader))
      {blocks : List (Digest × Header)} (hb : Ordered U emitted leader blocks) :
      Emits (s + 1) (blocks.map Prod.fst ++ emitted) (out ++ blocks.map Prod.snd)

variable {committee U waveLength schedule} {B : Finset PublicKey}

omit [Crypto] in
theorem Ordered.unique {emitted : List Digest} {leader : Digest}
    {blocks blocks' : List (Digest × Header)} (h : Ordered U emitted leader blocks)
    (h' : Ordered U emitted leader blocks') : blocks = blocks' := by
  refine KeyOrder.eq_of_mem_iff h.nodup h'.nodup h.sorted h'.sorted (fun x hx y hy hkey => ?_)
    fun x => (h.mem _ _).trans (h'.mem _ _).symm
  have hd : x.1 = y.1 := congrArg (fun t => (ofLex (ofLex t).2).2) hkey
  have hhx := ((h.mem x.1 x.2).1 hx).1
  rw [hd, ((h.mem y.1 y.2).1 hy).1] at hhx
  exact Prod.ext hd (Option.some.inj hhx.symm)

/-- The output is a function of the number of slots. -/
theorem Emits.unique (hU : MahiUniverse committee B U) {s : ℕ} {emitted emitted' : List Digest}
    {out out' : List Header} (h : Emits committee U waveLength schedule s emitted out)
    (h' : Emits committee U waveLength schedule s emitted' out') :
    emitted = emitted' ∧ out = out' := by
  induction h generalizing emitted' out' with
  | start =>
    cases h'
    exact ⟨rfl, rfl⟩
  | skip h hs ih =>
    cases h' with
    | skip h' hs' => exact ih h'
    | commit h' hs' hb' => cases hs.unique (consistent hU) hs'
  | commit h hs hb ih =>
    cases h' with
    | skip h' hs' => cases hs.unique (consistent hU) hs'
    | commit h' hs' hb' =>
      obtain ⟨rfl, rfl⟩ := ih h'
      cases hs.unique (consistent hU) hs'
      obtain rfl := hb.unique hb'
      exact ⟨rfl, rfl⟩

/-- More slots only add to the output. -/
theorem Emits.prefix_of_le (hU : MahiUniverse committee B U) {s t : ℕ}
    {emitted emitted' : List Digest} {out out' : List Header}
    (h : Emits committee U waveLength schedule s emitted out)
    (h' : Emits committee U waveLength schedule t emitted' out') (hst : s ≤ t) : out <+: out' := by
  induction h' with
  | start =>
    obtain rfl : s = 0 := by omega
    rw [(h.unique hU .start).2]
  | @skip t _ _ h' hs' ih =>
    rcases Nat.le_succ_iff.1 hst with hle | rfl
    · exact ih hle
    · rw [(h.unique hU (.skip h' hs')).2]
  | @commit t _ _ h' _ hs' _ hb' ih =>
    rcases Nat.le_succ_iff.1 hst with hle | rfl
    · exact (ih hle).trans (List.prefix_append _ _)
    · rw [(h.unique hU (.commit h' hs' hb')).2]

theorem Emits.comparable (hU : MahiUniverse committee B U) {s t : ℕ}
    {emitted emitted' : List Digest} {out out' : List Header}
    (h : Emits committee U waveLength schedule s emitted out)
    (h' : Emits committee U waveLength schedule t emitted' out') : Comparable out out' :=
  (Nat.le_total s t).imp (h.prefix_of_le hU h') (h'.prefix_of_le hU h)

end Emits

/-! ## The slots a node decides -/

section Slots

variable {waveLength : ℕ} {schedule : ℕ → ℕ → PublicKey} {committee : Committee}
  {consensus : Consensus}

/-- A configuration that follows the schedule wherever it knows a leader. -/
structure Schedule (committee : Committee) (waveLength : ℕ) (schedule : ℕ → ℕ → PublicKey)
    (consensus : Consensus) : Prop where
  committee : consensus.committee = committee
  mahiMahi : consensus.dagProtocol.isMahiMahi = true
  leader : ∀ round index certificates authority,
    consensus.leaderAuthorityFromCertificates round (round + waveLength - 1) index certificates =
      .ok (some authority) → authority = schedule round index

/-- The schedules of Mahi-Mahi cover every round from the first. -/
theorem leaderAuthority_ok (h : consensus.dagProtocol.isMahiMahi = true) {r : ℕ}
    (coinRound index : ℕ) (hr : 1 ≤ r) (certificates : List Certificate) : ∃ leader,
    consensus.leaderAuthorityFromCertificates r coinRound index certificates = .ok leader := by
  have hcoin : ∃ value, consensus.roundRobinCoin r = .ok value := by
    rw [Consensus.roundRobinCoin]
    rcases hp : consensus.dagProtocol <;> simp_all [DagProtocol.isMahiMahi,
      DagProtocol.mahiMahiWaveLength, roundRobinSlot, Nat.not_lt.2 hr]
  obtain ⟨value, hvalue⟩ := hcoin
  rw [Consensus.leaderAuthorityFromCertificates, hvalue]
  rcases consensus.consensusProtocol <;> exact ⟨_, rfl⟩

omit [Crypto] in
theorem slotIds_succ (first : SlotId) (a : ℕ) (ha : first.round < a) : ∀ n : ℕ,
    ((List.range' a n).flatMap fun round =>
      (List.range' (if round = first.round then first.index else 0)
        (leaderCount - if round = first.round then first.index else 0)).map
          fun index => (⟨round, index⟩ : SlotId)) =
      (List.range' (2 * (a - 1)) (2 * n)).map slotAt
  | 0 => rfl
  | n + 1 => by
    rw [List.range'_succ, List.flatMap_cons, slotIds_succ first (a + 1) (by omega) n,
      if_neg (by omega), Nat.mul_succ, List.range'_succ, List.range'_succ]
    simp only [leaderCount, List.range', List.map_cons, List.map_nil, List.cons_append,
      List.nil_append, slotAt, List.cons.injEq, SlotId.mk.injEq]
    have : 2 * (a - 1) + 1 + 1 = 2 * (a + 1 - 1) := by omega
    refine ⟨by omega, by omega, ?_⟩
    rw [this]

omit [Crypto] in
/-- The slots from a pending one on are numbered one after the other. -/
theorem slotIds_eq (s maxLeaderRound : ℕ) :
    MahiCommitter.slotIds (slotAt s) maxLeaderRound =
      (List.range' s (2 * maxLeaderRound - s)).map slotAt := by
  rw [MahiCommitter.slotIds]
  rcases hn : maxLeaderRound + 1 - (slotAt s).round with _ | n
  · simp only [slotAt, leaderCount] at hn
    rw [show 2 * maxLeaderRound - s = 0 by omega]
    rfl
  · rw [List.range'_succ, List.flatMap_cons, slotIds_succ _ _ (Nat.lt_succ_self _) n, if_pos rfl]
    simp only [slotAt, leaderCount] at hn ⊢
    -- the first round has both slots left or its second one
    rcases Nat.mod_two_eq_zero_or_one s with h | h
    · have hfirst : List.range' 0 (2 - 0) = [0, 1] := rfl
      rw [h, hfirst, show 2 * maxLeaderRound - s = 2 * n + 1 + 1 by omega, List.range'_succ,
        List.range'_succ, show 2 * (1 + s / 2 + 1 - 1) = s + 1 + 1 by omega]
      exact congrArg₂ List.cons (congrArg₂ SlotId.mk rfl h.symm)
        (congrArg₂ List.cons (congrArg₂ SlotId.mk (by simp only [leaderCount]; omega)
          (by simp only [leaderCount]; omega)) rfl)
    · have hfirst : List.range' 1 (2 - 1) = [1] := rfl
      rw [h, hfirst, show 2 * maxLeaderRound - s = 2 * n + 1 by omega, List.range'_succ,
        show 2 * (1 + s / 2 + 1 - 1) = s + 1 by omega]
      exact congrArg₂ List.cons (congrArg₂ SlotId.mk rfl h.symm) rfl

/-- The blocks of a DAG settle who leads the slot. -/
def Known (consensus : Consensus) (waveLength : ℕ) (D : MahiDag) (s : ℕ) : Prop :=
  ∃ authority, consensus.leaderAuthorityFromCertificates (slotAt s).round
    ((slotAt s).round + waveLength - 1) (slotAt s).index
    (D.roundCertificates ((slotAt s).round + waveLength - 1)) = .ok (some authority)

/-- The slot is one `pending_slots` looks at. -/
def Eligible (consensus : Consensus) (waveLength : ℕ) (D : MahiDag) (s : ℕ) : Prop :=
  s < 2 * (D.highestRound - (waveLength - 1)) ∧ Known consensus waveLength D s

/-- The leaders found are those of the schedule, up to the first one that is not known. -/
theorem leaderSlots_eq (hc : Schedule committee waveLength schedule consensus)
    {c : MahiCommitter} (hw : c.waveLength = waveLength) : ∀ n s : ℕ, ∃ m ≤ n,
      c.leaderSlots consensus ((List.range' s n).map slotAt) =
        .ok ((List.range' s m).map (slotOf schedule)) ∧
      (∀ u, s ≤ u → u < s + m → Known consensus waveLength c.dag u) ∧
      (m < n → ¬ Known consensus waveLength c.dag (s + m))
  | 0, _ => ⟨0, le_rfl, rfl, fun u _ _ => by omega, fun h => absurd h (lt_irrefl _)⟩
  | n + 1, s => by
    obtain ⟨m, hmn, hm, hknown, hunknown⟩ := leaderSlots_eq hc hw n (s + 1)
    obtain ⟨leader, hleader⟩ := leaderAuthority_ok hc.mahiMahi
      ((slotAt s).round + c.waveLength - 1) (slotAt s).index
      (show 1 ≤ (slotAt s).round from Nat.le_add_right _ _)
      (c.dag.roundCertificates ((slotAt s).round + c.waveLength - 1))
    rw [List.range'_succ, List.map_cons, MahiCommitter.leaderSlots, hleader]
    rw [hw] at hleader
    rcases leader with _ | authority
    · refine ⟨0, Nat.zero_le _, rfl, fun u _ _ => by omega, fun _ ⟨a, ha⟩ => ?_⟩
      rw [Nat.add_zero, hleader] at ha
      cases ha
    · have ha := hc.leader _ _ _ _ hleader
      refine ⟨m + 1, Nat.succ_le_succ hmn, ?_, fun u hsu hu => ?_, fun hlt => ?_⟩
      · rw [List.range'_succ, List.map_cons]
        change (c.leaderSlots consensus _ >>= fun slots =>
          .ok (⟨slotAt s, authority⟩ :: slots)) = _
        rw [hm, ha]
        rfl
      · rcases hsu.eq_or_lt with rfl | hlt
        · exact ⟨authority, hleader⟩
        · exact hknown u hlt (by omega)
      · rw [show s + (m + 1) = s + 1 + m by omega]
        exact hunknown (by omega)

theorem pendingSlots_eq (hc : Schedule committee waveLength schedule consensus)
    {c : MahiCommitter} (hw : c.waveLength = waveLength) {s : ℕ}
    (hs : c.firstPending = slotAt s) :
    ∃ n, c.pendingSlots consensus = .ok ((List.range' s n).map (slotOf schedule)) ∧
      (∀ u, s ≤ u → u < s + n → Eligible consensus waveLength c.dag u) ∧
      ¬ Eligible consensus waveLength c.dag (s + n) := by
  rw [MahiCommitter.pendingSlots]
  split_ifs with hlt
  · refine ⟨0, rfl, fun u _ _ => by omega, fun h => ?_⟩
    have := h.1
    omega
  · rw [hs, slotIds_eq, hw]
    obtain ⟨m, hm, hslots, hknown, hunknown⟩ := leaderSlots_eq hc hw
      (2 * (c.dag.highestRound - (waveLength - 1)) - s) s
    refine ⟨m, hslots, fun u hsu hu => ⟨by omega, hknown u hsu hu⟩, fun h => ?_⟩
    have := h.1
    exact hunknown (by omega) h.2

omit [Crypto] in
theorem firstPending_of_lastDecided {c : MahiCommitter} {s : ℕ}
    (h : c.lastDecided = some (slotAt s)) : c.firstPending = slotAt (s + 1) := by
  by_cases hi : (slotAt s).index + 1 < leaderCount
  all_goals
    simp only [MahiCommitter.firstPending, h, hi, if_true, if_false]
    simp only [slotAt, leaderCount] at hi ⊢
    exact congrArg₂ SlotId.mk (by omega) (by omega)

end Slots

/-! ## The blocks a node has -/

section Insert

variable {U : Digest → Option Header} {committee : Committee} {D : MahiDag} {x : Certificate}

theorem insert_of_isSome (h : (D.block x.digest).isSome = true) : D.insert x = (D, false) := by
  rw [MahiDag.insert, if_pos h]

theorem block_insert (h : ¬ (D.block x.digest).isSome = true) (d : Digest) :
    (D.insert x).1.block d = if d = x.digest then some x else D.block d := by
  rw [MahiDag.insert, if_neg h]
  exact FinMap.lookup_insert_ite _ _ _ _

theorem mem_slotDigests_insert (h : ¬ (D.block x.digest).isSome = true) {a : PublicKey} {r : ℕ}
    {d : Digest} : d ∈ (D.insert x).1.slotDigests a r ↔
      (d = x.digest ∧ x.round = r ∧ x.origin = a) ∨ d ∈ D.slotDigests a r := by
  rw [MahiDag.insert, if_neg h]
  simp only [slotDigests, SortedMap.lookup_alter]
  by_cases hr : r = x.round
  · subst hr
    by_cases ha : a = x.origin
    · subst ha
      simp [← SortedSet.mem_def]
    · simp [ha, Ne.symm ha]
  · simp [hr, Ne.symm hr]

theorem block_insert_of_block {d : Digest} {c : Certificate} (h : D.block d = some c) :
    (D.insert x).1.block d = some c := by
  by_cases hx : (D.block x.digest).isSome = true
  · rw [insert_of_isSome hx, h]
  · rw [block_insert hx, if_neg, h]
    rintro rfl
    exact hx (by rw [h]; rfl)

theorem exists_block_insert : ∃ q, (D.insert x).1.block x.digest = some q := by
  by_cases hx : (D.block x.digest).isSome = true
  · rw [insert_of_isSome hx]
    exact Option.isSome_iff_exists.1 hx
  · rw [block_insert hx, if_pos rfl]
    exact ⟨x, rfl⟩

/-- A block that was not there before is one of those inserted. -/
theorem block_insert_eq_some {x c : Certificate} {d : Digest}
    (h : (D.insert x).1.block d = some c) : D.block d = some c ∨ c.digest = d ∧ c = x := by
  by_cases hx : (D.block x.digest).isSome = true
  · rw [insert_of_isSome hx] at h
    exact .inl h
  · rw [block_insert hx] at h
    split_ifs at h with hd
    · cases h
      exact .inr ⟨hd.symm, rfl⟩
    · exact .inl h

theorem sub_insert (hD : ∀ {d c}, D.block d = some c → U d = some c.header)
    (hx : U x.digest = some x.header) {d : Digest} {c : Certificate}
    (hd : (D.insert x).1.block d = some c) : U d = some c.header := by
  by_cases h : (D.block x.digest).isSome = true
  · rw [insert_of_isSome h] at hd
    exact hD hd
  · rw [block_insert h] at hd
    split_ifs at hd with hdx
    · cases hd
      rwa [hdx]
    · exact hD hd

theorem slot_insert (hD : ∀ {a r d}, d ∈ D.slotDigests a r ↔
    ∃ c, D.block d = some c ∧ c.round = r ∧ c.origin = a) {a : PublicKey} {r : ℕ} {d : Digest} :
    d ∈ (D.insert x).1.slotDigests a r ↔
      ∃ c, (D.insert x).1.block d = some c ∧ c.round = r ∧ c.origin = a := by
  by_cases h : (D.block x.digest).isSome = true
  · rw [insert_of_isSome h]
    exact hD
  have hno : D.block x.digest = none := by simpa using h
  rw [mem_slotDigests_insert h, hD]
  simp only [block_insert h]
  split_ifs with hdx
  · subst hdx
    simp [hno]
  · simp [hdx]

theorem Indexed.insert (hD : Indexed U D) (hx : U x.digest = some x.header)
    (hp : ∀ p ∈ x.header.parents, ∃ q, D.block p = some q) : Indexed U (D.insert x).1 := by
  refine ⟨sub_insert hD.sub hx, fun {d c} hd p hmem => ?_, slot_insert hD.slot⟩
  have hparent : ∃ q, D.block p = some q := by
    by_cases h : (D.block x.digest).isSome = true
    · rw [insert_of_isSome h] at hd
      exact hD.closed hd p hmem
    · rw [block_insert h] at hd
      split_ifs at hd with hdx
      · cases hd
        exact hp p hmem
      · exact hD.closed hd p hmem
  obtain ⟨q, hq⟩ := hparent
  exact ⟨q, block_insert_of_block hq⟩

theorem Caches.insert (h : Caches committee U D) : Caches committee U (D.insert x).1 := by
  by_cases hx : (D.block x.digest).isSome = true
  · rwa [insert_of_isSome hx]
  · rw [MahiDag.insert, if_neg hx]
    exact ⟨h.support, h.certificate, h.link⟩

def MahiDag.insertAll (D : MahiDag) (xs : List Certificate) : MahiDag :=
  xs.foldl (fun D x => (D.insert x).1) D

theorem insertAll_cons (x : Certificate) (xs : List Certificate) :
    D.insertAll (x :: xs) = (D.insert x).1.insertAll xs := rfl

theorem block_insertAll_of_block : ∀ (xs : List Certificate) {D : MahiDag} {d : Digest}
    {c : Certificate}, D.block d = some c → (D.insertAll xs).block d = some c
  | [], _, _, _, h => h
  | _ :: xs, _, _, _, h => block_insertAll_of_block xs (block_insert_of_block h)

/-- Blocks without parents can be put in in any order. -/
theorem indexed_new {B : Finset PublicKey} (hU : MahiUniverse committee B U) :
    Indexed U (MahiDag.new (Certificate.genesis committee)) ∧
      Caches committee U (MahiDag.new (Certificate.genesis committee)) ∧
      ∀ g ∈ Certificate.genesis committee, ∃ q,
        (MahiDag.new (Certificate.genesis committee)).block g.digest = some q := by
  have hfold : ∀ (gs : List Certificate) (D : MahiDag),
    (∀ g ∈ gs, g ∈ Certificate.genesis committee) →
      Indexed U D → Caches committee U D →
      Indexed U (gs.foldl (fun D g => (D.insert g).1) D) ∧
        Caches committee U (gs.foldl (fun D g => (D.insert g).1) D) ∧
        (∀ d c, D.block d = some c → ∃ q, (gs.foldl (fun D g => (D.insert g).1) D).block d = some q) ∧
        ∀ g ∈ gs, ∃ q, (gs.foldl (fun D g => (D.insert g).1) D).block g.digest = some q := by
    intro gs
    induction gs with
    | nil => exact fun D _ hD hc => ⟨hD, hc, fun d c h => ⟨c, h⟩, by simp⟩
    | cons g gs ih =>
      intro D hgs hD hc
      obtain ⟨hg, hgs⟩ := List.forall_mem_cons.1 hgs
      obtain ⟨h₁, h₂, h₃, h₄⟩ := ih (D.insert g).1 hgs
        (hD.insert (hU.genesis g hg) (by simp [(Certificate.genesis_parents hg).1])) hc.insert
      refine ⟨h₁, h₂, fun d c h => h₃ d c (block_insert_of_block h),
        List.forall_mem_cons.2 ⟨?_, h₄⟩⟩
      obtain ⟨q, hq⟩ := exists_block_insert (D := D) (x := g)
      exact h₃ _ q hq
  obtain ⟨h₁, h₂, -, h₄⟩ := hfold (Certificate.genesis committee) {} (fun _ h => h)
    ⟨fun h => by simp [MahiDag.block] at h, fun h => by simp [MahiDag.block] at h,
      by simp [slotDigests, MahiDag.block]⟩
    ⟨fun h => by simp at h, fun h => by simp at h, fun h => by simp at h⟩
  exact ⟨h₁, h₂, h₄⟩

omit [Crypto] in
theorem Holds.pruneCaches (h : Caches committee U D) (minRootRound : ℕ) :
    Holds committee U D (D.pruneCaches minRootRound) where
  byRound := rfl
  byDigest := rfl
  caches := by
    constructor
    · intro v a r s hl
      exact h.support (FinMap.lookup_retain_eq_some.1 hl).1
    · intro c l b hl
      exact h.certificate (FinMap.lookup_retain_eq_some.1 hl).1
    · intro f t b hl
      exact h.link (FinMap.lookup_retain_eq_some.1 hl).1

end Insert

/-! ## The output of a node -/

section Linearize

variable {U : Digest → Option Header} {D : MahiDag}

omit [Crypto] in
/-- In the DAG the parents are those of the universe. -/
theorem Indexed.parents_eq (hD : Indexed U D) (d : Digest) (h : ∃ q, D.block d = some q) :
    ((D.block d).elim [] fun block => block.header.parents.toList) = parentsIn U d := by
  obtain ⟨q, hq⟩ := h
  rw [parentsIn, hD.sub hq, hq]
  rfl

omit [Crypto] in
theorem Indexed.closed_parentsIn (hD : Indexed U D) (d : Digest) (h : ∃ q, D.block d = some q) :
    ∀ p ∈ parentsIn U d, ∃ q, D.block p = some q := by
  obtain ⟨q, hq⟩ := h
  rw [parentsIn, hD.sub hq]
  exact hD.closed hq

omit [Crypto] in
/-- What the loop of `linearize` collects, by the links there are. -/
theorem mem_reachable_links {c : MahiCommitter} {leader d : Digest} :
    d ∈ c.reachable leader ↔ d ∉ c.emitted ∧
      Relation.ReflTransGen (Worklist.Step (· ∈ c.emitted) fun digest =>
        (c.dag.block digest).elim [] fun block => block.header.parents.toList) leader d := by
  have hlookup : ∀ x, x ∈ c.dag.byDigest.keys.toFinset ∨
      ((c.dag.block x).elim [] fun block => block.header.parents.toList) = [] := fun x => by
    rw [List.mem_toFinset, or_iff_not_imp_left]
    intro hx
    rw [MahiDag.block, FinMap.lookup_eq_none_iff.2 hx]
    rfl
  have hlength : ∀ x, ((c.dag.block x).elim [] fun block =>
      block.header.parents.toList).length ≤
        (c.dag.byDigest.values.map fun block => block.header.parents.toList.length).sum := fun x => by
    rcases hx : c.dag.block x with _ | q
    · exact Nat.zero_le _
    · exact List.le_sum_of_mem (List.mem_map_of_mem (FinMap.mem_values.2 ⟨x, hx⟩))
  have hfuel : Worklist.edges c.dag.byDigest.keys.toFinset
      (c.dag.byDigest.values.map fun block => block.header.parents.toList.length).sum
        [leader] [] ≤ 1 + c.dag.byDigest.entries.length *
      (c.dag.byDigest.values.map fun block => block.header.parents.toList.length).sum := by
    rw [Worklist.edges, List.length_singleton, List.toFinset_nil, Finset.sdiff_empty]
    refine Nat.add_le_add_left (Nat.mul_le_mul_right _ ?_) 1
    exact (List.toFinset_card_le _).trans (by simp [AList.keys, List.keys])
  have hexpands : Worklist.Expands (id : Digest → Digest)
      (fun _ digest => (c.dag.block digest).elim [] fun block => block.header.parents.toList)
      (fun digest => (c.dag.block digest).elim [] fun block => block.header.parents.toList) :=
    ⟨fun _ _ => List.Sublist.refl _, fun _ _ y hy => .inr hy⟩
  rw [MahiCommitter.reachable, Worklist.mem_reach (P := fun _ => True) hexpands
    (fun _ _ _ _ h => h) (fun _ _ _ _ => trivial) (fun x _ => hlookup x) (fun x _ => hlength x) _
    hfuel (fun _ _ => trivial) (fun k hk => by cases hk)]
  simp only [List.not_mem_nil, false_or, List.mem_singleton, exists_eq_left, id_eq,
    exists_eq_right_right, decide_eq_false_iff_not]
  exact and_comm

omit [Crypto] in
/-- What the loop of `linearize` collects. -/
theorem mem_reachable (hD : Indexed U D) {c : MahiCommitter} (hc : c.dag = D) {leader : Digest}
    (hl : ∃ q, D.block leader = some q) (d : Digest) :
    d ∈ c.reachable leader ↔ d ∉ c.emitted ∧
      Relation.ReflTransGen (Worklist.Step (· ∈ c.emitted) (parentsIn U)) leader d := by
  subst hc
  refine mem_reachable_links.trans (and_congr_right fun _ => ⟨fun hpath => ?_, fun hpath => ?_⟩)
  · refine (Worklist.reflTransGen_congr hD.parents_eq (fun x hx y hy => ?_) hl hpath).2
    exact hD.closed_parentsIn x hx y (hD.parents_eq x hx ▸ hy)
  · exact (Worklist.reflTransGen_congr (fun x hx => (hD.parents_eq x hx).symm)
      hD.closed_parentsIn hl hpath).2

omit [Crypto] in
theorem outputLe_iff {x y : Digest × Certificate} : MahiCommitter.outputLe x y ↔
    outputKey (x.1, x.2.header) ≤ outputKey (y.1, y.2.header) := by
  rw [outputKey, outputKey, Prod.Lex.le_iff, Prod.Lex.le_iff]
  rfl

instance : Std.Total MahiCommitter.outputLe :=
  ⟨fun _ _ => by rw [outputLe_iff, outputLe_iff]; exact le_total _ _⟩

instance : IsTrans (Digest × Certificate) MahiCommitter.outputLe :=
  ⟨fun _ _ _ => by rw [outputLe_iff, outputLe_iff, outputLe_iff]; exact le_trans⟩

omit [Crypto] in
/-- The output of a leader that reaches indexed blocks only. -/
theorem linearize_of_indexed {c : MahiCommitter} {leader : Digest}
    (hin : ∀ d ∈ c.reachable leader, ∃ q, c.dag.block d = some q) :
    ∃ ordered : List (Digest × Certificate),
      c.linearize leader =
        .ok ({ c with emitted := ordered.map Prod.fst ++ c.emitted }, ordered.map Prod.snd) ∧
      (ordered.map Prod.fst).Nodup ∧ ordered.Pairwise MahiCommitter.outputLe ∧
      ∀ x, x ∈ ordered ↔ x.1 ∈ c.reachable leader ∧ c.dag.block x.1 = some x.2 := by
  obtain ⟨blocks, hblocks⟩ : ∃ blocks, (c.reachable leader).filterMap (fun digest =>
    (c.dag.block digest).map fun block => (digest, block)) = blocks := ⟨_, rfl⟩
  have hfst : blocks.map Prod.fst = c.reachable leader := by
    rw [← hblocks, List.map_filterMap]
    refine (List.filterMap_congr fun d hd => ?_).trans List.filterMap_some
    obtain ⟨q, hq⟩ := hin d hd
    rw [hq]
    rfl
  have hblock : ∀ x, x ∈ blocks ↔ x.1 ∈ c.reachable leader ∧ c.dag.block x.1 = some x.2 := by
    rintro ⟨d, q⟩
    rw [← hblocks, List.mem_filterMap]
    simp only [Option.map_eq_some_iff, Prod.mk.injEq]
    constructor
    · rintro ⟨d', hd', q', hq', rfl, rfl⟩
      exact ⟨hd', hq'⟩
    · rintro ⟨hd, hq⟩
      exact ⟨d, hd, q, hq, rfl, rfl⟩
  have hperm := List.perm_insertionSort MahiCommitter.outputLe blocks
  refine ⟨blocks.insertionSort MahiCommitter.outputLe, ?_, ?_,
    List.pairwise_insertionSort MahiCommitter.outputLe blocks, fun x => ?_⟩
  · have hlength : (c.reachable leader).length = blocks.length := by rw [← hfst, List.length_map]
    rw [MahiCommitter.linearize]
    simp only [hblocks, hlength, lt_irrefl, and_false, if_false]
  · exact (hperm.map Prod.fst).nodup_iff.2 (hfst ▸ Worklist.nodup_reach _ List.nodup_nil)
  · rw [hperm.mem_iff]
    exact hblock x

omit [Crypto] in
/-- The output of a leader that is in the DAG. -/
theorem linearize_eq (hD : Indexed U D) {c : MahiCommitter} (hc : c.dag = D) {leader : Digest}
    (hl : ∃ q, D.block leader = some q) : ∃ blocks sequence,
      c.linearize leader =
        .ok ({ c with emitted := blocks.map Prod.fst ++ c.emitted }, sequence) ∧
      sequence.map Certificate.header = blocks.map Prod.snd ∧
      (∀ q ∈ sequence, ∃ d, D.block d = some q) ∧ Ordered U c.emitted leader blocks := by
  have hmem := mem_reachable hD hc hl
  -- every digest collected is in the DAG
  have hin : ∀ d ∈ c.reachable leader, ∃ q, c.dag.block d = some q := fun d hd => by
    rw [hc]
    exact (Worklist.reflTransGen_congr (fun _ _ => rfl) hD.closed_parentsIn hl
      ((hmem d).1 hd).2).1
  obtain ⟨ordered, hlin, hnodup, hsorted, hblock⟩ := linearize_of_indexed hin
  rw [hc] at hblock
  refine ⟨ordered.map fun x => (x.1, x.2.header), ordered.map Prod.snd, ?_, ?_, fun q hq => ?_,
    ?_, ?_, ?_⟩
  · rw [hlin, List.map_map]
    rfl
  · rw [List.map_map, List.map_map]
    rfl
  · obtain ⟨x, hx, rfl⟩ := List.mem_map.1 hq
    exact ⟨x.1, ((hblock x).1 hx).2⟩
  · refine List.Nodup.of_map Prod.fst ?_
    rw [List.map_map]
    exact hnodup
  · exact hsorted.map _ fun x y h => outputLe_iff.1 h
  · intro d h
    simp only [List.mem_map, Prod.mk.injEq]
    constructor
    · rintro ⟨x, hx, rfl, rfl⟩
      obtain ⟨hx, hq⟩ := (hblock x).1 hx
      exact ⟨hD.sub hq, (hmem x.1).1 hx⟩
    · rintro ⟨hd, hpath⟩
      have hd' := (hmem d).2 hpath
      obtain ⟨q, hq⟩ := hin d hd'
      rw [hc] at hq
      rw [hD.sub hq] at hd
      exact ⟨(d, q), (hblock (d, q)).2 ⟨hd', hq⟩, rfl, Option.some.inj hd⟩

end Linearize

/-! ## Runs -/

section Run

variable {committee : Committee} {U : Digest → Option Header} {waveLength : ℕ}
  {schedule : ℕ → ℕ → PublicKey} {consensus : Consensus} {B : Finset PublicKey} {D : MahiDag}

omit [Crypto] in
theorem Records.mono {D D' : MahiDag} (hsub : ∀ d c, D.block d = some c → D'.block d = some c) :
    ∀ {s : ℕ} {records : List DecisionRecord},
      Records committee U waveLength schedule D s records →
      Records committee U waveLength schedule D' s records
  | _, [], _ => trivial
  | _, _ :: _, ⟨hslot, hsound, h⟩ => ⟨hslot, hsound.mono hsub, h.mono hsub⟩

/-- How many records come before the first undecided one. -/
def passed : List DecisionRecord → ℕ
  | [] => 0
  | record :: records => if record.decision.isDecided then passed records + 1 else 0

/-- The node passes the decided slots and outputs what they do. -/
theorem outputRecords_eq (hD : Indexed U D) : ∀ {records : List DecisionRecord} {s : ℕ}
    {c : MahiCommitter} {out : List Header}, c.dag = D →
      Records committee U waveLength schedule D s records → c.firstPending = slotAt s →
      Emits committee U waveLength schedule s c.emitted out →
      ∃ c' sequence t, MahiCommitter.outputRecords records c = .ok (c', sequence) ∧
        c'.dag = D ∧ c'.waveLength = c.waveLength ∧ c'.decisions = c.decisions ∧
        c'.firstPending = slotAt t ∧ Emits committee U waveLength schedule t c'.emitted
          (out ++ sequence.map Certificate.header) ∧
        t = s + passed records ∧ ∀ q ∈ sequence, ∃ d, D.block d = some q
  | [], s, c, out, hc, _, hs, he =>
    ⟨c, [], s, rfl, hc, rfl, rfl, hs, by simpa using he, rfl, by simp⟩
  | record :: records, s, c, out, hc, ⟨hslot, hsound, hrest⟩, hs, he => by
    have hid : record.slot.id = slotAt s := by rw [hslot]; rfl
    rcases hdec : record.decision with leader | _ | _
    · rw [hdec] at hsound
      obtain ⟨hcommit, hl⟩ := hsound
      obtain ⟨blocks, sequence, hlin, hseq, hmem, hord⟩ := linearize_eq hD
        (c := { c with lastDecided := some record.slot.id }) hc hl
      obtain ⟨c', rest, t, hrun, h₁, h₂, h₃, h₄, h₅, h₆, h₇⟩ := outputRecords_eq hD hc hrest
        (c := { c with lastDecided := some record.slot.id, emitted := _ })
        (firstPending_of_lastDecided (by rw [hid])) (.commit he hcommit hord)
      have hdecided : record.decision.isDecided = true := by rw [hdec]; rfl
      refine ⟨c', sequence ++ rest, t, ?_, h₁, h₂, h₃, h₄, ?_, by
        rw [passed, if_pos hdecided, h₆]; omega, fun q hq =>
          (List.mem_append.1 hq).elim (hmem q) (h₇ q)⟩
      · simp only [MahiCommitter.outputRecords, hdec]
        rw [hlin]
        change (MahiCommitter.outputRecords records _ >>= _) = _
        rw [hrun]
        rfl
      · rwa [List.map_append, hseq, ← List.append_assoc]
    · rw [hdec] at hsound
      obtain ⟨c', rest, t, hrun, h₁, h₂, h₃, h₄, h₅, h₆, h₇⟩ := outputRecords_eq hD hc hrest
        (c := { c with lastDecided := some record.slot.id })
        (firstPending_of_lastDecided (by rw [hid])) (.skip he hsound)
      have hdecided : record.decision.isDecided = true := by rw [hdec]; rfl
      refine ⟨c', rest, t, ?_, h₁, h₂, h₃, h₄, h₅, by
        rw [passed, if_pos hdecided, h₆]; omega, h₇⟩
      simp only [MahiCommitter.outputRecords, hdec]
      exact hrun
    · have hundecided : ¬ record.decision.isDecided = true := by rw [hdec]; exact Bool.false_ne_true
      refine ⟨c, [], s, ?_, hc, rfl, rfl, hs, by simpa using he, by
        rw [passed, if_neg hundecided]; rfl, by simp⟩
      simp only [MahiCommitter.outputRecords, hdec]

variable (committee U waveLength schedule) in
/-- A committer with sound caches and decisions that has output what its slots do. -/
structure Reached (ys : List Certificate) (c : MahiCommitter) (out : List Certificate) :
    Prop where
  waveLength_eq : c.waveLength = waveLength
  indexed : Indexed U c.dag
  caches : Caches committee U c.dag
  decisions : Decisions committee U waveLength schedule c.dag c.decisions
  held : ∀ y ∈ Certificate.genesis committee ++ ys, ∃ q, c.dag.block y.digest = some q
  emits : ∃ s, c.firstPending = slotAt s ∧
    Emits committee U waveLength schedule s c.emitted (out.map Certificate.header)

theorem Reached.new (hU : MahiUniverse committee B U) : Reached committee U waveLength schedule []
    (MahiCommitter.new (Certificate.genesis committee) waveLength) [] := by
  obtain ⟨h₁, h₂, h₃⟩ := indexed_new hU
  exact ⟨rfl, h₁, h₂, fun id decision h => by simp [MahiCommitter.new] at h,
    fun y hy => h₃ y (by simpa using hy), 0, rfl, .start⟩

/-- The decisions on the pending slots settle what `try_decide` does. -/
theorem tryDecide_eq (hc : consensus.committee = committee) {c : MahiCommitter} {s n : ℕ}
    {records : List DecisionRecord} {decisions : FinMap SlotId LeaderDecision}
    {out : List Header} (hD : Indexed U c.dag)
    (hslots : c.pendingSlots consensus = .ok ((List.range' s n).map (slotOf schedule)))
    (hrun : (decideSlots committee c.waveLength ((List.range' s n).map (slotOf schedule))
      c.decisions).run c.dag = .ok ((records, decisions), D))
    (hheld : Holds committee U c.dag D)
    (hrecords : Records committee U waveLength schedule c.dag s records)
    (hs : c.firstPending = slotAt s)
    (he : Emits committee U waveLength schedule s c.emitted out) :
    ∃ c' sequence, c.tryDecide consensus = .ok (c', sequence) ∧
      c'.waveLength = c.waveLength ∧ Holds committee U c.dag c'.dag ∧
      c'.decisions = decisions ∧ c'.firstPending = slotAt (s + passed records) ∧
      Emits committee U waveLength schedule (s + passed records) c'.emitted
        (out ++ sequence.map Certificate.header) ∧
      ∀ q ∈ sequence, ∃ d, c.dag.block d = some q := by
  obtain ⟨c', sequence, t, hout, h₁, h₂, h₃, h₄, h₅, rfl, h₆⟩ := outputRecords_eq
    (hheld.indexed hD)
    (c := { c with dag := D, decisions }) rfl
    (hrecords.mono fun d q hd => hheld.block ▸ hd) hs he
  refine ⟨c'.lastDecided.elim c' fun last =>
      { c' with dag := c'.dag.pruneCaches (last.round - consensus.gcDepth) }, sequence, ?_, ?_⟩
  · rw [MahiCommitter.tryDecide, hslots]
    change ((decideSlots consensus.committee c.waveLength ((List.range' s n).map
      (slotOf schedule)) c.decisions).run c.dag >>= _) = _
    rw [hc, hrun]
    change (MahiCommitter.outputRecords records { c with dag := D, decisions } >>= _) = _
    rw [hout]
    rcases hlast : c'.lastDecided with _ | last
    · simp [hlast]
    · simp [hlast]
  · rw [hheld.block] at h₆
    rw [← h₁] at hheld
    rcases hlast : c'.lastDecided with _ | last
    · exact ⟨h₂, hheld, h₃, h₄, h₅, h₆⟩
    · have hkept := (Holds.pruneCaches hheld.caches (last.round - consensus.gcDepth)).caches
      have hfirst := h₄
      rw [MahiCommitter.firstPending, hlast] at hfirst
      exact ⟨h₂, ⟨hheld.byRound, hheld.byDigest, hkept⟩, h₃, hfirst, h₅, h₆⟩

theorem Reached.tryDecide (hU : MahiUniverse committee B U) (hw : 1 ≤ waveLength)
    (hc : Schedule committee waveLength schedule consensus) {ys : List Certificate}
    {c : MahiCommitter} {out : List Certificate}
    (h : Reached committee U waveLength schedule ys c out) :
    ∃ c' sequence, c.tryDecide consensus = .ok (c', sequence) ∧
      Reached committee U waveLength schedule ys c' (out ++ sequence) := by
  obtain ⟨s, hs, he⟩ := h.emits
  obtain ⟨n, hslots, -⟩ := pendingSlots_eq hc h.waveLength_eq hs
  obtain ⟨records, decisions, hdecide, hrecords, hdecisions⟩ :=
    computes_decideSlots hU h.indexed hw n s h.decisions
  obtain ⟨D, hrun, hD⟩ := hdecide c.dag ⟨rfl, rfl, h.caches⟩
  obtain ⟨c', sequence, htry, h₁, h₂, h₃, h₄, h₅, -⟩ := tryDecide_eq hc.committee h.indexed hslots
    (by rw [h.waveLength_eq]; exact hrun) hD hrecords hs he
  have hblock : ∀ d q, c.dag.block d = some q → c'.dag.block d = some q := fun d q hd =>
    h₂.block ▸ hd
  refine ⟨c', sequence, htry, h₁.trans h.waveLength_eq, h₂.indexed h.indexed, h₂.caches,
    h₃ ▸ hdecisions.mono hblock, fun y hy => ?_, _, h₄, by rwa [List.map_append]⟩
  obtain ⟨q, hq⟩ := h.held y hy
  exact ⟨q, hblock _ _ hq⟩

/-- A sequence of blocks of the universe in which parents come before children. -/
def Delivery (committee : Committee) (U : Digest → Option Header) (xs : List Certificate) :
    Prop :=
  ∀ (ys : List Certificate) (x : Certificate), ys ++ [x] <+: xs → U x.digest = some x.header ∧
    ∀ p ∈ x.header.parents, ∃ y ∈ Certificate.genesis committee ++ ys, y.digest = p

theorem Reached.step (hU : MahiUniverse committee B U) (hw : 1 ≤ waveLength)
    (hc : Schedule committee waveLength schedule consensus) {ys : List Certificate}
    {x : Certificate} {c : MahiCommitter} {out : List Certificate}
    (h : Reached committee U waveLength schedule ys c out) (hx : U x.digest = some x.header)
    (hp : ∀ p ∈ x.header.parents, ∃ y ∈ Certificate.genesis committee ++ ys, y.digest = p) :
    ∃ c' sequence, MahiMahi.step consensus c x = .ok (c', sequence) ∧
      Reached committee U waveLength schedule (ys ++ [x]) c' (out ++ sequence) := by
  have hparents : ∀ p ∈ x.header.parents, ∃ q, c.dag.block p = some q := fun p hmem => by
    obtain ⟨y, hy, rfl⟩ := hp p hmem
    exact h.held y hy
  have hinsert : Reached committee U waveLength schedule (ys ++ [x])
      { c with dag := (c.dag.insert x).1 } out := by
    refine ⟨h.waveLength_eq, h.indexed.insert hx hparents, h.caches.insert,
      h.decisions.mono fun d q => block_insert_of_block, fun y hy => ?_, h.emits⟩
    rw [← List.append_assoc, List.mem_append, List.mem_singleton] at hy
    rcases hy with hy | rfl
    · obtain ⟨q, hq⟩ := h.held y hy
      exact ⟨q, block_insert_of_block hq⟩
    · exact exists_block_insert
  obtain ⟨c', sequence, hstep, hreached⟩ := hinsert.tryDecide hU hw hc
  rw [MahiMahi.step]
  by_cases hnew : (c.dag.insert x).2 = true
  · exact ⟨c', sequence, by simp only [hnew, if_true]; exact hstep, hreached⟩
  · exact ⟨_, [], by simp only [hnew]; rfl, by simpa using hinsert⟩

/-- A node never panics, and what it reaches is sound. -/
theorem reached_run (hU : MahiUniverse committee B U) (hw : 1 ≤ waveLength)
    (hc : Schedule committee waveLength schedule consensus) {xs : List Certificate}
    (hd : Delivery committee U xs) : ∃ c, (run consensus waveLength xs).1 = some c ∧
      Reached committee U waveLength schedule xs c (run consensus waveLength xs).2 := by
  rw [run]
  refine run_total _ ?_ xs fun ys x c out hx h => ?_
  · rw [Consensus.genesis, hc.committee]
    exact Reached.new hU
  · obtain ⟨hxU, hp⟩ := hd ys x hx
    obtain ⟨c', sequence, hstep, h'⟩ := h.step hU hw hc hxU hp
    exact ⟨c', sequence, by rw [hstep]; rfl, h'⟩

/-- Two nodes with one schedule never fail an assertion, decide no slot in two ways and output
blocks in one order. -/
theorem agreement (hU : MahiUniverse committee B U) (hw : 1 ≤ waveLength)
    {consensus' : Consensus} (hc : Schedule committee waveLength schedule consensus)
    (hc' : Schedule committee waveLength schedule consensus') {xs xs' : List Certificate}
    (hd : Delivery committee U xs) (hd' : Delivery committee U xs') :
    ∃ c c', (run consensus waveLength xs).1 = some c ∧
      (run consensus' waveLength xs').1 = some c' ∧
      (∀ id decision decision', c.decisions.lookup id = some decision →
        c'.decisions.lookup id = some decision' → decision = decision') ∧
      Comparable ((run consensus waveLength xs).2.map Certificate.header)
        ((run consensus' waveLength xs').2.map Certificate.header) := by
  obtain ⟨c, hrun, h⟩ := reached_run hU hw hc hd
  obtain ⟨c', hrun', h'⟩ := reached_run hU hw hc' hd'
  refine ⟨c, c', hrun, hrun', fun id decision decision' hl hl' => ?_, ?_⟩
  · obtain ⟨s, rfl, hdec, hs⟩ := h.decisions id decision hl
    obtain ⟨t, ht, hdec', hs'⟩ := h'.decisions _ decision' hl'
    obtain rfl := slotAt_injective ht
    exact Sound.unique hU hs hdec hs' hdec'
  · obtain ⟨s, -, he⟩ := h.emits
    obtain ⟨t, -, he'⟩ := h'.emits
    exact he.comparable hU he'

end Run

/-! ## Universes of lists -/

section Lists

/-- The blocks of a list by their digests. -/
def blocksOf (L : List Certificate) (d : Digest) : Option Header :=
  (L.find? fun c => decide (c.digest = d)).map Certificate.header

theorem blocksOf_eq_some {L : List Certificate} {d : Digest} {h : Header}
    (hd : blocksOf L d = some h) : ∃ c ∈ L, c.digest = d ∧ c.header = h := by
  obtain ⟨c, hc, rfl⟩ := Option.map_eq_some_iff.1 hd
  exact ⟨c, List.mem_of_find?_eq_some hc, by simpa using List.find?_some hc, rfl⟩

theorem MahiUniverse.of_list {committee : Committee} {L : List Certificate}
    (h : (∀ g ∈ Certificate.genesis committee, blocksOf L g.digest = some g.header) ∧
      (∀ c ∈ L, ∀ d ∈ L, c.round = d.round → c.origin = d.origin → c.digest = d.digest) ∧
      (∀ c ∈ L, 0 < c.round → ∀ p ∈ c.header.parents.toList,
        ∃ q ∈ blocksOf L p, q.round < c.round) ∧
      ∀ c ∈ L, 0 < c.round → ((c.header.parents.toList.filterMap fun p =>
        (blocksOf L p).bind fun q => if q.round + 1 = c.round then some q.author else none)).Nodup ∧
        committee.quorumThreshold ≤ (((c.header.parents.toList.filterMap fun p =>
          (blocksOf L p).bind fun q => if q.round + 1 = c.round then some q.author else none)).map
            committee.stake).sum) :
    MahiUniverse committee ∅ (blocksOf L) where
  byzantine := Nat.zero_le _
  genesis := h.1
  honest d d' b b' hd hd' ha hr _ := by
    obtain ⟨c, hc, rfl, rfl⟩ := blocksOf_eq_some hd
    obtain ⟨c', hc', rfl, rfl⟩ := blocksOf_eq_some hd'
    exact h.2.1 c hc c' hc' hr ha
  lower d b hd hr p hp := by
    obtain ⟨c, hc, rfl, rfl⟩ := blocksOf_eq_some hd
    obtain ⟨q, hq, hlt⟩ := h.2.2.1 c hc hr p hp
    exact ⟨q, hq, hlt⟩
  quorum d b hd hr := by
    obtain ⟨c, hc, rfl, rfl⟩ := blocksOf_eq_some hd
    obtain ⟨hn, hw⟩ := h.2.2.2 c hc hr
    refine ⟨_, hw.trans_eq (Weighted.sum_map_eq_weight _ hn), fun a ha => ?_⟩
    obtain ⟨p, hp, hpa⟩ := List.mem_filterMap.1 (List.mem_toFinset.1 ha)
    obtain ⟨q, hq, hqa⟩ := Option.bind_eq_some_iff.1 hpa
    split_ifs at hqa with hr'
    exact ⟨p, hp, q, hq, Option.some.inj hqa, hr'⟩

/-- The certificates are of blocks of the list, and those they refer to come before them. -/
def InOrder (committee : Committee) (L xs : List Certificate) : Prop :=
  (∀ x ∈ xs, blocksOf L x.digest = some x.header) ∧
    ∀ i < xs.length, ∀ x ∈ xs[i]?, ∀ p ∈ x.header.parents.toList,
      ∃ y ∈ Certificate.genesis committee ++ xs.take i, y.digest = p

instance (committee : Committee) (L xs : List Certificate) : Decidable (InOrder committee L xs) :=
  inferInstanceAs (Decidable (_ ∧ _))

theorem Delivery.of_list {committee : Committee} {L xs : List Certificate}
    (h : InOrder committee L xs) : Delivery committee (blocksOf L) xs :=
  forall_prefix_concat fun i hi x hx => ⟨h.1 x (List.mem_of_getElem? hx), h.2 i hi x hx⟩

end Lists

end MahiMahi

/-! ## A run of two nodes -/

namespace MahiMahi

open PrefixLog

/-- Four authorities under the round-robin schedule, with waves of four rounds. -/
def fourNodes : Consensus where
  committee := Committee.uniform 4
  gcDepth := 50
  dagProtocol := .mahiMahi4
  consensusProtocol := .roundRobin
  name := 0
  coinCommittee := ⟨[0, 1, 2, 3], CoinCommittee.four_ne_nil⟩
  thresholdCoin := none

/-- Five rounds on all blocks of the round before. -/
def fullDag : List Certificate :=
  letI := toyCrypto
  Certificate.ofTable (Committee.uniform 4) <| (List.range 5).flatMap fun r =>
    (List.range 4).map fun a => (r + 1, a, [0, 1, 2, 3])

theorem fullDag_universe :
    @MahiUniverse toyCrypto fourNodes.committee ∅ (@blocksOf toyCrypto fullDag) :=
  letI := toyCrypto
  .of_list (by decide +kernel)

theorem fourNodes_schedule :
    letI := toyCrypto
    Schedule fourNodes.committee 4
      (fun round index => fourNodes.coinCommittee.leader (round - 1) index) fourNodes := by
  let _ := toyCrypto
  refine ⟨rfl, rfl, fun r index _ authority h => ?_⟩
  rcases r with _ | r
  · cases h
  · change Except.ok (some (fourNodes.coinCommittee.leader ((r + 1 - 1) / 1) index)) = _ at h
    rw [Nat.div_one] at h
    cases h
    rfl

/-- Two nodes that receive the rounds in two orders output the same six blocks. -/
theorem agreement_fullDag :
    letI := toyCrypto
    (run fourNodes 4 (fullDag.drop 4)).2.length = 6 ∧
      ∃ c c', (run fourNodes 4 (fullDag.drop 4)).1 = some c ∧
        (run fourNodes 4 (((fullDag.drop 4).take 4).reverse ++ fullDag.drop 8)).1 = some c' ∧
        (∀ id decision decision', c.decisions.lookup id = some decision →
          c'.decisions.lookup id = some decision' → decision = decision') ∧
        Comparable ((run fourNodes 4 (fullDag.drop 4)).2.map Certificate.header)
          ((run fourNodes 4 (((fullDag.drop 4).take 4).reverse ++ fullDag.drop 8)).2.map
            Certificate.header) := by
  let _ := toyCrypto
  have h : (run fourNodes 4 (fullDag.drop 4)).2.length = 6 ∧
      InOrder fourNodes.committee fullDag (fullDag.drop 4) ∧
      InOrder fourNodes.committee fullDag (((fullDag.drop 4).take 4).reverse ++ fullDag.drop 8) := by
    decide +kernel
  exact ⟨h.1, agreement fullDag_universe (by decide) fourNodes_schedule fourNodes_schedule
    (.of_list h.2.1) (.of_list h.2.2)⟩

end MahiMahi

end NovelDag
