import NovelDag.Proofs.WahooCommit

/-!
# The chain of a Wahoo node

A block of an author is handed on once, so it enters the DAG once and stays there. With that every
commit of a run starts from a closed chain.
-/

namespace NovelDag.Wahoo

open Handler

/-- How often a block of the round and author may have been handed on. -/
def Node.taken (n : Node) (r : ℕ) (a : PublicKey) : ℕ :=
  (if (r, a) ∈ n.pb.blockOutput then 1 else 0) + (n.epbcDelivered.lookup (r, a)).toList.length

/-- A block that was handed on is in hand, parked or in the DAG. -/
structure Once (x : Scene) : Prop where
  once : ∀ r a, x.debts.count (.hold r a) + x.node.pendingBlocks.count r a + x.node.dag.count r a ≤
    x.node.taken r a
  even : ∀ r a, (r, a) ∈ x.node.pb.blockOutput → r % 2 = 0
  odd : ∀ r a, (x.node.epbcDelivered.lookup (r, a)).isSome → r % 2 = 1

section Once

variable {x : Scene}

theorem once_start : Once start where
  once r a := by simp [start, Blocks.count, Blocks.get, Blocks.level]
  even r a h := by simp [start] at h
  odd r a h := by simp [start] at h

theorem Once.taken_le (h : Once x) (r : ℕ) (a : PublicKey) : x.node.taken r a ≤ 1 := by
  unfold Node.taken
  rcases hd : x.node.epbcDelivered.lookup (r, a) with _ | phase
  · split_ifs <;> simp
  · have hodd := h.odd r a (by rw [hd]; rfl)
    rw [if_neg fun hm => by have := h.even r a hm; omega]
    simp

/-- A block in hand is not in the DAG. -/
theorem Once.get_of_hold (h : Once x) {r : ℕ} {a : PublicKey} (hd : .hold r a ∈ x.debts) :
    x.node.dag.get r a = none := by
  have hone := h.once r a
  have hle := h.taken_le r a
  have hpos := Multiset.count_pos.2 hd
  rw [← Blocks.count_eq_zero]
  omega

/-- What is in hand, parked, in the DAG or handed on stays as it is. -/
theorem Once.keep (h : Once x) {node : Node} {debts : Debts} {stage : Stage}
    {seen proposals : List Header} (hdag : node.dag = x.node.dag)
    (hpending : node.pendingBlocks = x.node.pendingBlocks)
    (houtput : node.pb.blockOutput = x.node.pb.blockOutput)
    (hdelivered : ∀ k, (node.epbcDelivered.lookup k).isSome = (x.node.epbcDelivered.lookup k).isSome)
    (hdebts : ∀ r a, debts.count (.hold r a) = x.debts.count (.hold r a)) :
    Once ⟨node, debts, stage, seen, proposals⟩ where
  once r a := by
    have hlen : (node.epbcDelivered.lookup (r, a)).toList.length =
        (x.node.epbcDelivered.lookup (r, a)).toList.length := by
      have hk := hdelivered (r, a)
      rcases h₁ : node.epbcDelivered.lookup (r, a) with _ | _ <;>
        rcases h₂ : x.node.epbcDelivered.lookup (r, a) with _ | _ <;> rw [h₁, h₂] at hk
      · cases hk
      · cases hk
      · rfl
    have := h.once r a
    unfold Node.taken at this ⊢
    rwa [hdag, hpending, houtput, hlen, hdebts]
  even r a hm := h.even r a (houtput ▸ hm)
  odd r a hm := h.odd r a (by rwa [← hdelivered])

/-- The parked blocks of a round, one for each author. -/
theorem count_holds {level : FinMap PublicKey Header} {round : ℕ}
    (hl : ∀ a b, level.lookup a = some b → b.round = round ∧ b.author = a) (r : ℕ)
    (a : PublicKey) :
    Multiset.count (Debt.hold r a)
        (level.values.map fun b => Debt.hold b.round b.author : List Debt) ≤
      if r = round then (level.lookup a).toList.length else 0 := by
  have hkeys : level.values.map (fun b => Debt.hold b.round b.author) =
      level.keys.map (Debt.hold round) := by
    rw [FinMap.values, AList.keys, List.keys, List.map_map, List.map_map]
    refine List.map_congr_left fun e he => ?_
    obtain ⟨hr, ha⟩ := hl e.1 e.2 (FinMap.ext_lookup_iff.2 he)
    rw [Function.comp_apply, hr, ha]
    rfl
  have hnodup : (level.keys.map (Debt.hold round)).Nodup :=
    (AList.keys_nodup level).map fun _ _ h => (Debt.hold.inj h).2
  rw [hkeys, Multiset.coe_count]
  by_cases hm : Debt.hold r a ∈ level.keys.map (Debt.hold round)
  · obtain ⟨a', ha', heq⟩ := List.mem_map.1 hm
    obtain ⟨rfl, rfl⟩ := Debt.hold.inj heq
    obtain ⟨b, hb⟩ := FinMap.mem_keys_iff.1 ha'
    rw [if_pos rfl, hb]
    exact List.nodup_iff_count_le_one.1 hnodup _
  · rw [List.count_eq_zero_of_not_mem hm]
    exact Nat.zero_le _

variable [Crypto] {c : NodeConfig} {given : Set Header} {y : Scene}

theorem Move.once (h : Move c given x y) (ht : Tidy x) (hx : Once x) : Once y := by
  have hcons : ∀ {d : Debt}, (∀ r a, .hold r a ≠ d) → ∀ r a,
      (d ::ₘ x.debts).count (.hold r a) = x.debts.count (.hold r a) :=
    fun hne r a => Multiset.count_cons_of_ne (hne r a) _
  have hpaid : ∀ {d : Debt} {rest : Debts}, x.debts = d ::ₘ rest → (∀ r a, .hold r a ≠ d) → ∀ r a,
      rest.count (.hold r a) = x.debts.count (.hold r a) := fun hd hne r a => by
    rw [hd, Multiset.count_cons_of_ne (hne r a)]
  cases h with
  | frame h => exact hx.keep h.dag h.pending h.output h.delivered fun _ _ => rfl
  | commit round =>
    obtain ⟨chain, iterations, new, -, heq⟩ := Commits.tryToCommitLeader c.order round x.node
    rw [heq]
    exact hx.keep rfl rfl rfl (fun _ => rfl) fun _ _ => rfl
  | elect name h => exact hx.keep rfl rfl rfl (fun _ => rfl) fun _ _ => rfl
  | @output b hlookup hnew =>
    refine ⟨fun r a => ?_, fun r a hm => ?_, hx.odd⟩
    · have hone := hx.once r a
      unfold Node.taken at hone ⊢
      simp only [Multiset.count_cons, Finset.mem_insert] at hone ⊢
      by_cases hk : (r, a) = (b.round, b.author)
      · obtain ⟨rfl, rfl⟩ := Prod.mk.inj hk
        rw [if_neg hnew] at hone
        simp only [true_or, if_true]
        omega
      · have hne : Debt.hold r a ≠ .hold b.round b.author := fun h => hk (by
          obtain ⟨rfl, rfl⟩ := Debt.hold.inj h
          rfl)
        simp only [hk, false_or, if_neg hne, add_zero]
        exact hone
    · rcases Finset.mem_insert.1 hm with hk | hm
      · obtain ⟨rfl, rfl⟩ := Prod.mk.inj hk
        exact (ht.pb _ _ _ hlookup).2.2
      · exact hx.even r a hm
  | @deliver round author phase hodd hnew =>
    refine ⟨fun r a => ?_, hx.even, fun r a hm => ?_⟩
    · have hone := hx.once r a
      unfold Node.taken at hone ⊢
      simp only [Multiset.count_cons, FinMap.lookup_insert_ite] at hone ⊢
      by_cases hk : (r, a) = (round, author)
      · obtain ⟨rfl, rfl⟩ := Prod.mk.inj hk
        simp only [hnew, Option.toList_none, List.length_nil, if_true] at hone ⊢
        simp only [Option.toList_some, List.length_singleton]
        omega
      · have hne : Debt.hold r a ≠ .hold round author := fun h => hk (by
          obtain ⟨rfl, rfl⟩ := Debt.hold.inj h
          rfl)
        simp only [if_neg hk, if_neg hne, add_zero]
        exact hone
    · change ((x.node.epbcDelivered.insert (round, author) phase).lookup (r, a)).isSome = true at hm
      rw [FinMap.lookup_insert_ite] at hm
      split_ifs at hm with hk
      · exact (Prod.mk.inj hk).1 ▸ hodd
      · exact hx.odd r a hm
  | @insert b d hd h =>
    refine { hx with once := fun r a => ?_ }
    have hone := hx.once r a
    change _ ≤ x.node.taken r a
    rw [hd, Multiset.count_cons] at hone
    have hdebts : (Debt.drain (b.round + 1) ::ₘ Debt.retry (b.round + 1) ::ₘ d).count (.hold r a) =
        d.count (.hold r a) := by
      rw [Multiset.count_cons_of_ne (by simp), Multiset.count_cons_of_ne (by simp)]
    rw [hdebts]
    change d.count _ + x.node.pendingBlocks.count r a + (x.node.dag.put b).count r a ≤ _
    rw [Blocks.count_put]
    by_cases hk : r = b.round ∧ a = b.author
    · rw [if_pos (by rw [hk.1, hk.2])] at hone
      rw [if_pos hk]
      omega
    · rw [if_neg hk]
      omega
  | @park b d hd h =>
    refine { hx with once := fun r a => ?_ }
    have hone := hx.once r a
    change _ ≤ x.node.taken r a
    rw [hd, Multiset.count_cons] at hone
    change d.count _ + (x.node.pendingBlocks.put b).count r a + x.node.dag.count r a ≤ _
    rw [Blocks.count_put]
    by_cases hk : r = b.round ∧ a = b.author
    · rw [if_pos (by rw [hk.1, hk.2])] at hone
      rw [if_pos hk]
      omega
    · rw [if_neg hk]
      omega
  | @drain round d hd =>
    refine { hx with once := fun r a => ?_ }
    have hone := hx.once r a
    have hcount := count_holds (fun a b hb => ht.pending round a b hb) r a
    change _ ≤ x.node.taken r a
    rw [hd, Multiset.count_cons_of_ne (by simp)] at hone
    rw [Multiset.count_add]
    change _ + Blocks.count (x.node.pendingBlocks.erase round) r a + x.node.dag.count r a ≤ _
    simp only [Blocks.count, Blocks.get_erase] at hone ⊢
    by_cases hr : r = round
    · rw [if_pos hr] at hcount ⊢
      rw [hr] at hcount hone ⊢
      rw [Blocks.get] at hone
      simp only [Option.toList_none, List.length_nil]
      omega
    · rw [if_neg hr] at hcount ⊢
      omega
  | count round => exact hx.keep rfl rfl rfl (fun _ => rfl) (hcons (by simp))
  | storeDone hnew =>
    rw [Node.storeDone_of_new hnew]
    exact hx.keep rfl rfl rfl (fun _ => rfl) (hcons (by simp))
  | enter hstage h => exact hx.keep rfl rfl rfl (fun _ => rfl) (hcons (by simp))
  | checked hd h => exact hx.keep rfl rfl rfl (fun _ => rfl) (hpaid hd (by simp))
  | mark hstage digests => exact hx.keep rfl rfl rfl (fun _ => rfl) fun _ _ => rfl
  | send hstage hround => exact hx.keep rfl rfl rfl (fun _ => rfl) fun _ _ => rfl
  | propose hodd h =>
    simp only [Node.storeEpbcBlock]
    split_ifs
    · exact hx.keep rfl rfl rfl (fun _ => rfl) (hcons (by simp))
    · exact hx.keep rfl rfl rfl (fun _ => rfl) fun _ _ => rfl
    · exact hx.keep rfl rfl rfl (fun _ => rfl) (hcons (by simp))
    · exact hx.keep rfl rfl rfl (fun _ => rfl) fun _ _ => rfl
  | certify hodd h => exact hx.keep rfl rfl rfl (fun _ => rfl) fun _ _ => rfl
  | vote hnew h => exact hx.keep rfl rfl rfl (fun _ => rfl) fun _ _ => rfl
  | @collect round d hd =>
    refine hx.keep rfl rfl rfl (fun _ => rfl) fun r a => ?_
    rw [Multiset.count_add, hpaid hd (by simp), Multiset.count_eq_zero_of_notMem, zero_add]
    intro hm
    obtain ⟨b, -, heq⟩ := List.mem_map.1 (Multiset.mem_coe.1 hm)
    cases heq
  | voted hd h => exact hx.keep rfl rfl rfl (fun _ => rfl) (hpaid hd (by simp))

theorem Moves.once (h : Moves c given start x) : Once x := by
  induction h with
  | refl => exact once_start
  | tail hm h ih => exact h.once (Moves.tidy hm) ih

end Once

/-! ## Every scene -/

section Kept

variable [Crypto]

/-- What holds of a node throughout, unless blocks of its DAG clash. -/
structure Kept (x : Scene) : Prop where
  elected : ∀ r, 0 < r → (x.node.leader.lookup r).isSome → r + 1 ∈ x.node.leaderElect
  linked : x.node.dag.NoClash → Linked x.node
  committed : x.node.dag.NoClash → Committed x.node

variable {c : NodeConfig} {given : Set Header} {x y : Scene} {n n' : Node}

theorem kept_start : Kept start where
  elected r _ h := by simp [start] at h
  linked _ := ⟨tidy_start.dag, fun d b h => by simp [start] at h,
    fun r a b h => by simp [start, Blocks.get, Blocks.level] at h, fun d b h => by simp [start] at h⟩
  committed _ := ⟨⟨fun d b h => by simp [start] at h, List.nodup_nil, fun d => by
    simp [start, commitDigests]⟩, fun d b h => by simp [start] at h, .inl ⟨rfl, fun d => by
      simp [start]⟩⟩

theorem commitDigests_append_of {trace new : List (Effect × Blocks)}
    (h : ∀ e ∈ new, ∀ b, e.1 ≠ .commit b) : commitDigests (trace ++ new) = commitDigests trace := by
  have hnil : commitDigests new = [] := by
    refine List.filterMap_eq_nil_iff.2 fun e he => ?_
    split
    · exact absurd ‹_› (h e he _)
    · rfl
  unfold commitDigests at hnil ⊢
  rw [List.filterMap_append, hnil, List.append_nil]

theorem Committed.same (h : Committed n) (hs : SameDag n n') (hchain : n'.chain = n.chain)
    (htrace : commitDigests n'.trace = commitDigests n.trace) : Committed n' where
  chained :=
    ⟨by rw [hchain, hs.index]; exact h.chained.blocks, by rw [htrace]; exact h.chained.nodup,
      by rw [htrace, hchain]; exact h.chained.sent⟩
  closed := by
    unfold Node.Closed
    rw [hchain]
    exact h.closed
  head := by
    unfold Node.CommittedLeader
    rw [hchain, hs.leader, hs.dag]
    exact h.head

theorem Kept.keep (h : Kept x) {node : Node} {debts : Debts} {stage : Stage}
    {seen proposals : List Header} (hs : SameDag x.node node) (hchain : node.chain = x.node.chain)
    (htrace : commitDigests node.trace = commitDigests x.node.trace)
    (helected : node.leaderElect = x.node.leaderElect) :
    Kept ⟨node, debts, stage, seen, proposals⟩ where
  elected r hr hl := by
    rw [hs.leader] at hl
    exact helected ▸ h.elected r hr hl
  linked hclash := (h.linked (hs.dag ▸ hclash)).same hs
  committed hclash := (h.committed (hs.dag ▸ hclash)).same hs hchain htrace

/-- The leader of the round before may become known, once. -/
theorem Kept.elect (h : Kept x) {round : ℕ} (name : PublicKey)
    (hnew : round ∉ x.node.leaderElect) :
    Kept { x with node := { x.node with
      leaderElect := insert round x.node.leaderElect
      leader := x.node.leader.insert (round - 1) name } } where
  elected r hr hl := by
    change ((x.node.leader.insert (round - 1) name).lookup r).isSome = true at hl
    rw [FinMap.lookup_insert_ite] at hl
    split_ifs at hl with heq
    · rw [show r + 1 = round by omega]
      exact Finset.mem_insert_self _ _
    · exact Finset.mem_insert_of_mem (h.elected r hr hl)
  linked hclash :=
    have hl := h.linked hclash
    ⟨hl.filed, hl.index, hl.indexed, hl.parents⟩
  committed hclash := by
    have hc := h.committed hclash
    refine ⟨⟨hc.chained.blocks, hc.chained.nodup, hc.chained.sent⟩, hc.closed, ?_⟩
    refine hc.head.imp_right fun ⟨hpos, leader, b, hleader, hb, hin⟩ =>
      ⟨hpos, leader, b, ?_, hb, hin⟩
    change (x.node.leader.insert (round - 1) name).lookup x.node.chain.round = some leader
    rw [FinMap.lookup_insert_ite, if_neg, hleader]
    intro heq
    have hmem := h.elected _ hpos (by rw [hleader]; rfl)
    rw [heq, show round - 1 + 1 = round by omega] at hmem
    exact hnew hmem

omit [Crypto] in
/-- The parents of a block that can enter the DAG are indexed, from round 1 on. -/
theorem parent_of_check {b : Header} (hadd : n.checkWhetherCanAddToDag b = true)
    (hround : b.round ≠ 0) {p : Digest} (hp : p ∈ b.parents.toList) :
    ∃ q, n.blocksByDigest.lookup p = some q ∧ q.round + 1 = b.round := by
  unfold Node.checkWhetherCanAddToDag at hadd
  rw [if_neg hround] at hadd
  split_ifs at hadd with hempty
  · rw [hempty] at hp
    exact absurd hp List.not_mem_nil
  · obtain ⟨q, hq, hqr⟩ := (Option.any_eq_true _ _).1 (List.all_eq_true.1 hadd p hp)
    have hqr := of_decide_eq_true hqr
    exact ⟨q, hq, by omega⟩

theorem Kept.insert (h : Kept x) {b : Header} {debts : Debts}
    (hnew : x.node.dag.get b.round b.author = none)
    (hadd : x.node.checkWhetherCanAddToDag b = true) :
    Kept { x with node := x.node.insertBlock b, debts } := by
  have hget : ∀ {r a b'}, x.node.dag.get r a = some b' → (x.node.dag.put b).get r a = some b' := by
    intro r a b' hb'
    rw [Blocks.get_put, if_neg, hb']
    rintro ⟨rfl, rfl⟩
    rw [hnew] at hb'
    cases hb'
  have hin : (x.node.dag.put b).get b.round b.author = some b := by
    rw [Blocks.get_put, if_pos ⟨rfl, rfl⟩]
  have hold : (x.node.dag.put b).NoClash → x.node.dag.NoClash :=
    fun hclash r a b₁ h₁ r' a' b₂ h₂ heq => hclash (hget h₁) (hget h₂) heq
  -- no block of the DAG has the digest of the new one
  have hfresh : (x.node.dag.put b).NoClash → ∀ {r a b'}, x.node.dag.get r a = some b' →
      b'.digest ≠ b.digest := fun hclash {r a b'} hb' heq => by
    obtain ⟨rfl, rfl⟩ := hclash (hget hb') hin heq
    rw [hnew] at hb'
    cases hb'
  have hindex : (x.node.dag.put b).NoClash → ∀ {d b'}, x.node.blocksByDigest.lookup d = some b' →
      (x.node.blocksByDigest.insert b.digest b).lookup d = some b' := fun hclash {d b'} hb' => by
    rw [FinMap.lookup_insert_ite, if_neg, hb']
    rintro rfl
    obtain ⟨heq, hdag⟩ := (h.linked (hold hclash)).index _ _ hb'
    exact hfresh hclash hdag heq
  refine ⟨h.elected, fun hclash => ?_, fun hclash => ?_⟩
  · have hl := h.linked (hold hclash)
    refine ⟨hl.filed.put b, fun d b' hb' => ?_, fun r a b' hb' => ?_, fun d b' hb' hne p hp => ?_⟩
    · change (x.node.blocksByDigest.insert b.digest b).lookup d = some b' at hb'
      rw [FinMap.lookup_insert_ite] at hb'
      split_ifs at hb' with hd
      · obtain rfl := Option.some.inj hb'
        exact ⟨hd.symm, hin⟩
      · exact ⟨(hl.index d b' hb').1, hget (hl.index d b' hb').2⟩
    · change (x.node.dag.put b).get r a = some b' at hb'
      rw [Blocks.get_put] at hb'
      split_ifs at hb'
      · obtain rfl := Option.some.inj hb'
        exact AList.lookup_insert _
      · exact hindex hclash (hl.indexed r a b' hb')
    · change (x.node.blocksByDigest.insert b.digest b).lookup d = some b' at hb'
      rw [FinMap.lookup_insert_ite] at hb'
      split_ifs at hb'
      · obtain rfl := Option.some.inj hb'
        obtain ⟨q, hq, hqr⟩ := parent_of_check hadd hne hp
        exact ⟨q, hindex hclash hq, hqr⟩
      · obtain ⟨q, hq, hqr⟩ := hl.parents d b' hb' hne p hp
        exact ⟨q, hindex hclash hq, hqr⟩
  · have hc := h.committed (hold hclash)
    refine ⟨⟨fun d b' hb' => ?_, hc.chained.nodup, hc.chained.sent⟩, hc.closed, ?_⟩
    · exact ⟨hindex hclash (hc.chained.blocks d b' hb').1, (hc.chained.blocks d b' hb').2⟩
    · exact hc.head.imp_right fun ⟨hpos, leader, b', hleader, hb', hin⟩ =>
        ⟨hpos, leader, b', hleader, hget hb', hin⟩

theorem Move.kept (h : Move c given x y) (ho : Once x) (hx : Kept x) : Kept y := by
  cases h with
  | frame h =>
    obtain ⟨new, hnew, heq⟩ := h.trace
    refine hx.keep ⟨h.dag, h.index, h.leader⟩ h.chain ?_ h.elected
    rw [heq, commitDigests_append_of fun e he b hb => by simpa [hb, Effect.Quiet] using hnew e he]
  | commit round =>
    have hs := (Commits.tryToCommitLeader c.order round x.node).sameDag
    obtain ⟨chain, iterations, new, -, heq⟩ := Commits.tryToCommitLeader c.order round x.node
    refine ⟨?_, fun hclash => ?_, fun hclash => ?_⟩
    · rw [heq]
      exact hx.elected
    · exact (hx.linked (hs.dag ▸ hclash)).same hs
    · have hclash' : x.node.dag.NoClash := hs.dag ▸ hclash
      exact (tryToCommitLeader_committed c.order (hx.linked hclash') (hx.committed hclash') round).1
  | elect name h => exact hx.elect name h
  | @insert b d hd h =>
    exact hx.insert (ho.get_of_hold (hd ▸ Multiset.mem_cons_self _ _)) h
  | storeDone hnew =>
    rw [Node.storeDone_of_new hnew]
    refine hx.keep ⟨rfl, rfl, rfl⟩ rfl (commitDigests_append_of fun e he b hb => ?_) rfl
    obtain rfl := List.mem_singleton.1 he
    cases hb
  | send hstage hround =>
    refine hx.keep ⟨rfl, rfl, rfl⟩ rfl (commitDigests_append_of fun e he b hb => ?_) rfl
    obtain rfl := List.mem_singleton.1 he
    cases hb
  | propose hodd h =>
    simp only [Node.storeEpbcBlock]
    split_ifs <;> exact hx.keep ⟨rfl, rfl, rfl⟩ rfl rfl rfl
  | _ => exact hx.keep ⟨rfl, rfl, rfl⟩ rfl rfl rfl

theorem Moves.kept (h : Moves c given start x) : Kept x := by
  induction h with
  | refl => exact kept_start
  | tail hm h ih => exact h.kept (Moves.once hm) ih

end Kept

/-! ## Every commit -/

section Commit

variable [Crypto]

/-- A node in the middle of a run on these headers, between two moves. -/
def Reached (c : NodeConfig) (given : Set Header) (n : Node) : Prop :=
  ∃ x, Moves c given start x ∧ x.node = n

/-- The calls of `try_to_commit_leader` that made the chain of a node, and sent all it has sent: each
at a node of the run, on the chain that the call before has left. -/
inductive ChainedBy (c : NodeConfig) (given : Set Header) : List (Node × ℕ) → Node → Prop
  | start : ChainedBy c given [] {}
  | call {calls : List (Node × ℕ)} {n : Node} (round : ℕ) (h : ChainedBy c given calls n)
      (hn : Reached c given n) :
      ChainedBy c given (calls ++ [(n, round)]) (n.tryToCommitLeader c.order round)
  | other {calls : List (Node × ℕ)} {n n' : Node} (h : ChainedBy c given calls n)
      (hchain : n'.chain = n.chain) (hsent : commitDigests n'.trace = commitDigests n.trace) :
      ChainedBy c given calls n'

variable {c : NodeConfig} {given : Set Header} {x y : Scene}

/-- Nothing else changes the chain or sends a block of it. -/
theorem Move.chain (h : Move c given x y) :
    (∃ round, y.node = x.node.tryToCommitLeader c.order round) ∨
      y.node.chain = x.node.chain ∧ commitDigests y.node.trace = commitDigests x.node.trace := by
  cases h with
  | frame h =>
    obtain ⟨new, hnew, heq⟩ := h.trace
    refine .inr ⟨h.chain, ?_⟩
    rw [heq, commitDigests_append_of fun e he b hb => by simpa [hb, Effect.Quiet] using hnew e he]
  | commit round => exact .inl ⟨round, rfl⟩
  | storeDone hnew =>
    rw [Node.storeDone_of_new hnew]
    refine .inr ⟨rfl, commitDigests_append_of fun e he b hb => ?_⟩
    obtain rfl := List.mem_singleton.1 he
    cases hb
  | send hstage hround =>
    refine .inr ⟨rfl, commitDigests_append_of fun e he b hb => ?_⟩
    obtain rfl := List.mem_singleton.1 he
    cases hb
  | propose hodd h =>
    simp only [Node.storeEpbcBlock]
    split_ifs <;> exact .inr ⟨rfl, rfl⟩
  | _ => exact .inr ⟨rfl, rfl⟩

theorem Moves.chainedBy (h : Moves c given start x) : ∃ calls, ChainedBy c given calls x.node := by
  induction h with
  | refl => exact ⟨[], .start⟩
  | tail hm h ih =>
    obtain ⟨calls, hcalls⟩ := ih
    rcases h.chain with ⟨round, heq⟩ | ⟨hchain, hsent⟩
    · exact ⟨_, heq ▸ hcalls.call round ⟨_, hm, rfl⟩⟩
    · exact ⟨calls, hcalls.other hchain hsent⟩

/-- The blocks of round 0 in the DAG are on no block of it. -/
def Node.RootsBare (n : Node) : Prop :=
  ∀ ⦃a b⦄, n.dag.get 0 a = some b → ∀ p ∈ b.parents.toList, n.blocksByDigest.lookup p = none

/-- The chain was sent once, has the parents of its blocks, and ends with its highest leader. -/
structure Node.ChainSound (n : Node) : Prop where
  nodup : (commitDigests n.trace).Nodup
  sent : ∀ d, (n.chain.blocks.lookup d).isSome → d ∈ commitDigests n.trace
  closed : ∀ d b, n.chain.blocks.lookup d = some b → ∀ p ∈ b.parents.toList,
    (n.blocksByDigest.lookup p).isSome → (n.chain.blocks.lookup p).isSome
  round : (n.chain.round = 0 ∧ ∀ d, n.chain.blocks.lookup d = none) ∨
    IsGreatest {r | n.CommittedLeader r} n.chain.round

theorem Committed.chainSound {n : Node} (hl : Linked n) (h : Committed n) (hroots : n.RootsBare) :
    n.ChainSound where
  nodup := h.chained.nodup
  sent d hd := (h.chained.sent d).2 ⟨hd, id⟩
  closed d b hb p hp hsome := by
    obtain ⟨hindex, -⟩ := h.chained.blocks d b hb
    by_cases hround : b.round = 0
    · have hdag := (hl.index d b hindex).2
      rw [hround] at hdag
      rw [hroots hdag p hp] at hsome
      cases hsome
    · exact ((h.closed d b hb hround).resolve_left List.not_mem_nil p hp).resolve_right id
  round := h.head.imp_right fun ⟨_, hhead⟩ => ⟨hhead, fun r ⟨leader, b, _, hb, hin⟩ => by
    obtain ⟨b', hb'⟩ := Option.isSome_iff_exists.1 hin
    obtain ⟨hindex, hle⟩ := h.chained.blocks _ _ hb'
    rw [hl.indexed _ _ _ hb] at hindex
    obtain rfl := Option.some.inj hindex
    rwa [(hl.filed _ _ _ hb).1] at hle⟩

/-- All that a run commits is committed by calls of `try_to_commit_leader`. Wherever the run makes one,
the chain has then been sent once, is closed under parents and ends with its highest leader, if no
block of round 0 in the DAG is on a block of it. -/
theorem commit_chainSound [ThresholdBls] (c : NodeConfig) (fuel : ℕ) (inputs : List Input)
    (hreceived : ∀ i ∈ inputs, i.Received c.committee) :
    (∃ calls, ChainedBy c (givenBy inputs) calls (exec (c.run fuel inputs) {}).2) ∧
      Reached c (givenBy inputs) (exec (c.run fuel inputs) {}).2 ∧
      ∀ n, Reached c (givenBy inputs) n → n.dag.NoClash → n.RootsBare → ∀ round,
        (n.tryToCommitLeader c.order round).ChainSound ∧
          n.chain.round ≤ (n.tryToCommitLeader c.order round).chain.round := by
  obtain ⟨x, hm, hx⟩ := exists_moves_of_run fuel hreceived
  refine ⟨hx ▸ Moves.chainedBy hm, ⟨x, hm, hx⟩, ?_⟩
  rintro n ⟨x, hm, rfl⟩ hclash hroots round
  have hkept := Moves.kept hm
  have hl := hkept.linked hclash
  obtain ⟨hc, hle⟩ := tryToCommitLeader_committed c.order hl (hkept.committed hclash) round
  have hsame := (Commits.tryToCommitLeader c.order round x.node).sameDag
  refine ⟨hc.chainSound (hl.same hsame) fun a b hb p hp => ?_, hle⟩
  rw [hsame.dag] at hb
  rw [hsame.index]
  exact hroots hb p hp

end Commit

/-! ## A block of round 0 on a block of round 1 -/

section Toy

variable [Crypto]

/-- A block of round 0 with a parent of round 1. -/
def rootBlock : Header :=
  signedBlock { author := 0, round := 0, parents := .ofList [(firstBlock 2).digest] }

/-- The leader of round 1, on the block of round 0. -/
def leaderBlock : Header :=
  signedBlock { author := 0, round := 1, parents := .ofList [rootBlock.digest] }

/-- Elects for the leader of the round before. -/
def elects (round : ℕ) : List Input :=
  [0, 2, 3].map fun sender => .message (.elect { sender, round, partialSig := [] })

def rootInputs : List Input :=
  [ts2Certificate 2, pbcCertificate rootBlock, epbcCertificate leaderBlock] ++ elects 2

/-- A block of round 2 on the leader of round 1. -/
def middleBlock : Header :=
  signedBlock { author := 2, round := 2, parents := .ofList [(firstBlock 0).digest] }

/-- The leader of round 3, on the block of round 2. -/
def nextLeaderBlock : Header :=
  signedBlock { author := 1, round := 3, parents := .ofList [middleBlock.digest] }

/-- Both leaders are elected, the second one over the first. -/
def twoLeaders : List Input :=
  [ts2Certificate 0] ++ elects 2 ++
    [pbcCertificate middleBlock, epbcCertificate nextLeaderBlock] ++ elects 4

end Toy

theorem elects_received : letI := toyCrypto; letI := toyBls
    ∀ round, ∀ i ∈ elects round, i.Received fourNodes.committee := by
  let _ := toyCrypto
  let _ := toyBls
  intro round i hi
  obtain ⟨sender, hs, rfl⟩ := List.mem_map.1 hi
  have hstake : ∀ a ∈ [(0 : PublicKey), 2, 3], 0 < fourNodes.committee.stake a := by
    decide
  exact hstake sender hs

/-- A committed block of round 0 whose parent is in the DAG and not in the chain. -/
theorem not_chain_closed : letI := toyCrypto; letI := toyBls
    (∀ i ∈ rootInputs, i.Received fourNodes.committee) ∧
      ∃ n, exec ({ fourNodes with name := 1 }.run 9 rootInputs) {} = (.ok (), n) ∧
        n.chain.blocks.lookup rootBlock.digest = some rootBlock ∧
        (firstBlock 2).digest ∈ rootBlock.parents.toList ∧
        n.blocksByDigest.lookup (firstBlock 2).digest = some (firstBlock 2) ∧
        n.chain.blocks.lookup (firstBlock 2).digest = none := by
  let _ := toyCrypto
  let _ := toyBls
  refine ⟨?_, _, exec_eq_of_isOk (by decide +kernel), by decide +kernel, by decide +kernel,
    by decide +kernel, by decide +kernel⟩
  simp only [rootInputs, List.cons_append, List.nil_append, List.forall_mem_cons]
  refine ⟨ts2Certificates_received _ (by simp), ⟨?_, ?_⟩, ⟨?_, ?_⟩, elects_received 2⟩ <;>
    exact of_decide_eq_true (by decide +kernel)

/-- The blocks with their rounds and authors. -/
def Blocks.all (blocks : Blocks) : List (ℕ × PublicKey × Header) :=
  blocks.entries.flatMap fun level => level.2.entries.map fun e => (level.1, e.1, e.2)

theorem Blocks.mem_all {blocks : Blocks} {r : ℕ} {a : PublicKey} {b : Header} :
    (r, a, b) ∈ blocks.all ↔ blocks.get r a = some b := by
  unfold Blocks.all Blocks.get Blocks.level
  simp only [List.mem_flatMap, List.mem_map, Prod.mk.injEq]
  constructor
  · rintro ⟨level, hlevel, e, he, rfl, rfl, rfl⟩
    rw [FinMap.ext_lookup_iff.2 hlevel]
    exact FinMap.ext_lookup_iff.2 he
  · intro h
    rcases hl : blocks.lookup r with _ | level <;> rw [hl] at h
    · simp at h
    · exact ⟨⟨r, level⟩, FinMap.ext_lookup_iff.1 hl, ⟨a, b⟩, FinMap.ext_lookup_iff.1 h, rfl, rfl, rfl⟩

instance [Crypto] (blocks : Blocks) : Decidable blocks.NoClash :=
  decidable_of_iff (∀ e ∈ blocks.all, ∀ e' ∈ blocks.all, e.2.2.digest = e'.2.2.digest →
    e.1 = e'.1 ∧ e.2.1 = e'.2.1)
    ⟨fun h r a b hb r' a' b' hb' heq =>
      h (r, a, b) (Blocks.mem_all.2 hb) (r', a', b') (Blocks.mem_all.2 hb') heq,
      fun h _ he _ he' heq => h (Blocks.mem_all.1 he) (Blocks.mem_all.1 he') heq⟩

instance (n : Node) : Decidable n.RootsBare :=
  decidable_of_iff (∀ b ∈ (n.dag.level 0).values, ∀ p ∈ b.parents.toList,
    n.blocksByDigest.lookup p = none)
    ⟨fun h _ _ hb => h _ (FinMap.mem_values.2 ⟨_, hb⟩), fun h _ hb => by
      obtain ⟨_, hb⟩ := FinMap.mem_values.1 hb
      exact h hb⟩

theorem twoLeaders_received : letI := toyCrypto; letI := toyBls
    ∀ i ∈ twoLeaders, i.Received fourNodes.committee := by
  let _ := toyCrypto
  let _ := toyBls
  have hblocks : ∀ b ∈ [middleBlock, nextLeaderBlock], 0 < fourNodes.committee.stake b.author := by
    decide
  simp only [twoLeaders, List.cons_append, List.nil_append, List.append_assoc, List.forall_mem_cons,
    List.forall_mem_append]
  refine ⟨⟨?_, ?_⟩, elects_received 2, ⟨?_, ?_⟩, ⟨?_, ?_⟩, elects_received 4⟩ <;>
    exact of_decide_eq_true (by decide +kernel)

/-- The leader of round 3 is committed with the block below it, on the leader of round 1. -/
theorem commit_chainSound_leader : letI := toyCrypto; letI := toyBls
    ∃ n, exec ({ fourNodes with name := 1 }.run 9 twoLeaders) {} = (.ok (), n) ∧
      commitDigests n.trace =
        [(firstBlock 0).digest, middleBlock.digest, nextLeaderBlock.digest] ∧
      n.chain.round = 3 ∧ (n.tryToCommitLeader fourNodes.order 1).ChainSound := by
  let _ := toyCrypto
  let _ := toyBls
  obtain ⟨-, hreached, hsound⟩ :=
    commit_chainSound { fourNodes with name := 1 } 9 twoLeaders twoLeaders_received
  exact ⟨_, exec_eq_of_isOk (by decide +kernel), by decide +kernel, by decide +kernel,
    (hsound _ hreached (by decide +kernel) (by decide +kernel) 1).1⟩

end NovelDag.Wahoo
