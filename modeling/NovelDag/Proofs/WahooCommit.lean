import NovelDag.Proofs.WahooHandlers

/-!
# What a Wahoo node commits

A commit walks from a leader down to the blocks of the chain. It stops there, since the chain has
the parents of its blocks: the walk keeps, for each block of the chain, that its parents are in the
chain or still to be visited.
-/

namespace NovelDag.Wahoo

open Handler

/-! ## The DAG and its index -/

section Defs

variable [Crypto]

def commitDigests (trace : List (Effect × Blocks)) : List Digest :=
  trace.filterMap fun e => match e.1 with
    | .commit b => some b.digest
    | _ => none

/-- Different blocks of the DAG have different digests. -/
def Blocks.NoClash (blocks : Blocks) : Prop :=
  ∀ ⦃r a b⦄, blocks.get r a = some b → ∀ ⦃r' a' b'⦄, blocks.get r' a' = some b' →
    b.digest = b'.digest → r = r' ∧ a = a'

/-- The index has the blocks of the DAG, and the parents of each from round 1 on. -/
structure Linked (n : Node) : Prop where
  filed : n.dag.Filed
  index : ∀ d b, n.blocksByDigest.lookup d = some b →
    b.digest = d ∧ n.dag.get b.round b.author = some b
  indexed : ∀ r a b, n.dag.get r a = some b → n.blocksByDigest.lookup b.digest = some b
  parents : ∀ d b, n.blocksByDigest.lookup d = some b → b.round ≠ 0 → ∀ p ∈ b.parents.toList,
    ∃ q, n.blocksByDigest.lookup p = some q ∧ q.round + 1 = b.round

/-- The chain has blocks of the DAG, sent once but for those still to be sent. -/
structure Chained (unsent : Set Digest) (n : Node) : Prop where
  blocks : ∀ d b, n.chain.blocks.lookup d = some b →
    n.blocksByDigest.lookup d = some b ∧ b.round ≤ n.chain.round
  nodup : (commitDigests n.trace).Nodup
  sent : ∀ d, d ∈ commitDigests n.trace ↔ (n.chain.blocks.lookup d).isSome ∧ d ∉ unsent

/-- The parents of the blocks of the chain from round 1 on are in it, or in `ahead`. -/
def Node.Closed (n : Node) (todo : List (Digest × Header)) (ahead : Set Digest) : Prop :=
  ∀ d b, n.chain.blocks.lookup d = some b → b.round ≠ 0 →
    (d, b) ∈ todo ∨ ∀ p ∈ b.parents.toList, (n.chain.blocks.lookup p).isSome ∨ p ∈ ahead

end Defs

/-! ## One level of a walk -/

section Walk

variable [Crypto] {unsent : Set Digest} {round : ℕ} {leader : PublicKey}

/-- The blocks still to be visited, of this level and the next. -/
def Ahead (todo : List (Digest × Header)) (next : FinMap Digest Header) : Set Digest :=
  fun d => d ∈ todo.map Prod.fst ∨ (next.lookup d).isSome

/-- A walk at level `r`, with the blocks of the level still to be visited. -/
structure Walk (unsent : Set Digest) (round : ℕ) (leader : PublicKey) (r : ℕ)
    (p : Node × FinMap Digest Header) (todo : List (Digest × Header)) : Prop where
  linked : Linked p.1
  chained : Chained unsent p.1
  head : p.1.chain.round = round
  bound : r ≤ round
  unsent : ∀ d ∈ unsent, (p.1.chain.blocks.lookup d).isSome
  leader : ∀ b, p.1.dag.get round leader = some b → (p.1.chain.blocks.lookup b.digest).isSome
  level : ∀ e ∈ todo, p.1.blocksByDigest.lookup e.1 = some e.2 ∧ e.2.round = r
  next : ∀ d b, p.2.lookup d = some b → p.1.blocksByDigest.lookup d = some b ∧ b.round + 1 = r
  closed : p.1.Closed todo (Ahead todo p.2)

theorem commitDigests_append_commit (n : Node) (b : Header) :
    commitDigests (n.emit (.commit b)).trace = commitDigests n.trace ++ [b.digest] := by
  simp [commitDigests, Node.emit]

/-- A block goes into the chain and is sent. -/
theorem Chained.commit {n : Node} {d : Digest} {b : Header} (hl : Linked n)
    (hc : Chained unsent n) (hindex : n.blocksByDigest.lookup d = some b)
    (hround : b.round ≤ n.chain.round) (hnew : n.chain.blocks.lookup d = none)
    (hunsent : d ∉ unsent) :
    Chained unsent ({ n with
      chain := { n.chain with blocks := n.chain.blocks.insert d b } }.emit (.commit b)) where
  blocks d' b' hb' := by
    change (n.chain.blocks.insert d b).lookup d' = some b' at hb'
    rw [FinMap.lookup_insert_ite] at hb'
    split_ifs at hb' with hd
    · obtain rfl := Option.some.inj hb'
      exact ⟨hd ▸ hindex, hround⟩
    · exact hc.blocks d' b' hb'
  nodup := by
    rw [commitDigests_append_commit]
    refine List.nodup_append.2 ⟨hc.nodup, List.nodup_singleton _, fun d' hd' d'' hd'' => ?_⟩
    rintro rfl
    rw [List.mem_singleton.1 hd'', (hl.index d b hindex).1] at hd'
    have hsome := ((hc.sent d).1 hd').1
    rw [hnew] at hsome
    cases hsome
  sent d' := by
    rw [commitDigests_append_commit, List.mem_append, List.mem_singleton, (hl.index d b hindex).1]
    change _ ↔ ((n.chain.blocks.insert d b).lookup d').isSome ∧ _
    rw [FinMap.lookup_insert_ite]
    split_ifs with hd
    · subst hd
      exact ⟨fun _ => ⟨rfl, hunsent⟩, fun _ => .inr rfl⟩
    · rw [hc.sent d']
      exact ⟨fun h => h.resolve_right hd, .inl⟩

/-- The index, the DAG and the leaders are those of the node before. -/
structure SameDag (n n' : Node) : Prop where
  dag : n'.dag = n.dag
  index : n'.blocksByDigest = n.blocksByDigest
  leader : n'.leader = n.leader

theorem Linked.same {n n' : Node} (h : Linked n) (hs : SameDag n n') : Linked n' := by
  obtain ⟨hdag, hindex, -⟩ := hs
  exact ⟨hdag ▸ h.filed, by rw [hdag, hindex]; exact h.index, by rw [hdag, hindex]; exact h.indexed,
    by rw [hindex]; exact h.parents⟩

/-- What visiting a block does to the node. -/
theorem commitBlock_spec {p : Node × FinMap Digest Header} {d : Digest} {b : Header} {r : ℕ}
    {todo : List (Digest × Header)} (h : Walk unsent round leader r p ((d, b) :: todo)) :
    SameDag p.1 (Node.commitBlock round leader r p (d, b)).1 ∧
      (Node.commitBlock round leader r p (d, b)).1.chain.round = p.1.chain.round ∧
      Chained unsent (Node.commitBlock round leader r p (d, b)).1 ∧
      ∀ d', (Node.commitBlock round leader r p (d, b)).1.chain.blocks.lookup d' =
        if d' = d then some b else p.1.chain.blocks.lookup d' := by
  obtain ⟨hindex, hround⟩ := h.level (d, b) List.mem_cons_self
  obtain ⟨n, next⟩ := p
  unfold Node.commitBlock
  simp only []
  rcases hnew : n.chain.blocks.lookup d with _ | b'
  · have hnot : ¬ (b.round = round ∧ b.author = leader) := fun ⟨hr, ha⟩ => by
      obtain ⟨hd, hb⟩ := h.linked.index d b hindex
      have hsome := h.leader b (hr ▸ ha ▸ hb)
      rw [hd, hnew] at hsome
      cases hsome
    have hunsent : d ∉ unsent := fun hd => by
      have hsome := h.unsent d hd
      rw [hnew] at hsome
      cases hsome
    simp only [Option.isSome_none, Bool.false_eq_true, if_false, if_neg hnot]
    refine ⟨⟨rfl, rfl, rfl⟩, rfl,
      h.chained.commit h.linked hindex (hround.trans_le (h.head ▸ h.bound)) hnew
      hunsent, fun d' => FinMap.lookup_insert_ite _ _ _ _⟩
  · have hb' : b' = b := by
      have := (h.chained.blocks d b' hnew).1
      rw [hindex] at this
      exact (Option.some.inj this).symm
    subst hb'
    simp only [Option.isSome_some, if_true]
    refine ⟨⟨rfl, rfl, rfl⟩, trivial, h.chained, fun d' => ?_⟩
    split_ifs with hd
    · rw [hd, hnew]
    · rfl

omit [Crypto] in
/-- The blocks to visit next: before, and the parents not in the chain. -/
theorem commitBlock_next (p : Node × FinMap Digest Header) (d : Digest) (b : Header) {r : ℕ}
    (hr : r ≠ 0) (k : Digest) :
    (Node.commitBlock round leader r p (d, b)).2.lookup k =
      if k ∈ b.parents.toList ∧
          ((Node.commitBlock round leader r p (d, b)).1.chain.blocks.lookup k).isNone ∧
          ((Node.commitBlock round leader r p (d, b)).1.blocksByDigest.lookup k).isSome then
        (Node.commitBlock round leader r p (d, b)).1.blocksByDigest.lookup k
      else p.2.lookup k := by
  obtain ⟨n, next⟩ := p
  unfold Node.commitBlock
  simp only [if_neg hr]
  generalize (if (n.chain.blocks.lookup d).isSome = true then n
    else if b.round = round ∧ b.author = leader then
      { n with chain := { n.chain with blocks := n.chain.blocks.insert d b } }
    else ({ n with chain := { n.chain with blocks := n.chain.blocks.insert d b } }.emit
      (.commit b))) = n'
  rw [FinMap.lookup_foldl_collect (f := fun k => if (n'.chain.blocks.lookup k).isSome then none
    else n'.blocksByDigest.lookup k)]
  · rcases n'.chain.blocks.lookup k with _ | _ <;> simp
  · intro m k
    rcases n'.blocksByDigest.lookup k with _ | q
    · simp
    · rcases n'.chain.blocks.lookup k with _ | _ <;> simp

omit [Crypto] in
theorem commitBlock_next_zero (p : Node × FinMap Digest Header) (e : Digest × Header) :
    (Node.commitBlock round leader 0 p e).2 = p.2 := rfl

theorem Walk.commitBlock {p : Node × FinMap Digest Header} {d : Digest} {b : Header} {r : ℕ}
    {todo : List (Digest × Header)} (h : Walk unsent round leader r p ((d, b) :: todo)) :
    Walk unsent round leader r (Node.commitBlock round leader r p (d, b)) todo := by
  obtain ⟨hindex, hround⟩ : p.1.blocksByDigest.lookup d = some b ∧ b.round = r :=
    h.level (d, b) List.mem_cons_self
  obtain ⟨hsame, hchain, hchained, hlookup⟩ := commitBlock_spec h
  have hmono : ∀ {k}, (p.1.chain.blocks.lookup k).isSome →
      ((Node.commitBlock round leader r p (d, b)).1.chain.blocks.lookup k).isSome := fun hk => by
    rw [hlookup]
    split_ifs
    · rfl
    · exact hk
  refine ⟨h.linked.same hsame, hchained, hchain.trans h.head, h.bound,
    fun k hk => hmono (h.unsent k hk),
    fun b' hb' => hmono (h.leader b' (hsame.dag ▸ hb')), fun e he => ?_, fun k q hq => ?_,
    fun k q hq hne => ?_⟩
  · rw [hsame.index]
    exact h.level e (List.mem_cons_of_mem _ he)
  · by_cases hr : r = 0
    · subst hr
      rw [commitBlock_next_zero] at hq
      rw [hsame.index]
      exact h.next k q hq
    · rw [commitBlock_next p d b hr, hsame.index] at hq
      rw [hsame.index]
      split_ifs at hq with hk
      · obtain ⟨q', hq', hqr⟩ := h.linked.parents d b hindex (by omega) k hk.1
        rw [hq'] at hq
        obtain rfl := Option.some.inj hq
        exact ⟨hq', by omega⟩
      · exact h.next k q hq
  · -- a parent in the rest of the level, in the next one or in the chain stays there
    have hahead : ∀ k', (p.1.chain.blocks.lookup k').isSome ∨
        k' ∈ ((d, b) :: todo).map Prod.fst ∨ (p.2.lookup k').isSome →
        ((Node.commitBlock round leader r p (d, b)).1.chain.blocks.lookup k').isSome ∨
          k' ∈ todo.map Prod.fst ∨
            ((Node.commitBlock round leader r p (d, b)).2.lookup k').isSome := by
      rintro k' (hk' | hk' | hk')
      · exact .inl (hmono hk')
      · rcases List.mem_cons.1 hk' with rfl | hk'
        · exact .inl (by rw [hlookup, if_pos rfl]; rfl)
        · exact .inr (.inl hk')
      · refine .inr (.inr ?_)
        by_cases hr : r = 0
        · subst hr
          rwa [commitBlock_next_zero]
        · rw [commitBlock_next p d b hr]
          split_ifs with hk
          · exact hk.2.2
          · exact hk'
    have hold : ∀ k q, p.1.chain.blocks.lookup k = some q → q.round ≠ 0 → (k, q) ∉ [(d, b)] →
        (k, q) ∈ todo ∨ ∀ p' ∈ q.parents.toList,
          ((Node.commitBlock round leader r p (d, b)).1.chain.blocks.lookup p').isSome ∨
            p' ∈ Ahead todo (Node.commitBlock round leader r p (d, b)).2 := by
      intro k q hq hne hnot
      rcases h.closed k q hq hne with hk | hk
      · exact .inl ((List.mem_cons.1 hk).resolve_left fun h => hnot (List.mem_singleton.2 h))
      · exact .inr fun p' hp' => hahead p' (hk p' hp')
    by_cases hkd : k = d
    · subst hkd
      rw [hlookup, if_pos rfl] at hq
      obtain rfl := Option.some.inj hq
      refine .inr fun p' hp' => ?_
      obtain ⟨q', hq', -⟩ := h.linked.parents k b hindex hne p' hp'
      by_cases hin : ((Node.commitBlock round leader r p (k, b)).1.chain.blocks.lookup p').isSome
      · exact .inl hin
      · refine .inr (.inr ?_)
        rw [commitBlock_next p k b (by omega), if_pos]
        · rw [hsame.index, hq']
          rfl
        · exact ⟨hp', by simpa using hin, by rw [hsame.index, hq']; rfl⟩
    · rw [hlookup, if_neg hkd] at hq
      exact hold k q hq hne fun hmem => hkd (Prod.mk.inj (List.mem_singleton.1 hmem)).1

theorem Walk.foldl {r : ℕ} : ∀ {todo : List (Digest × Header)} {p : Node × FinMap Digest Header},
    Walk unsent round leader r p todo →
      Walk unsent round leader r (todo.foldl (Node.commitBlock round leader r) p) []
  | [], _, h => h
  | (_, _) :: _, _, h => h.commitBlock.foldl

/-- The order of a level does not matter. -/
theorem Walk.perm {r : ℕ} {p : Node × FinMap Digest Header} {todo todo' : List (Digest × Header)}
    (h : Walk unsent round leader r p todo) (hp : todo'.Perm todo) :
    Walk unsent round leader r p todo' where
  linked := h.linked
  chained := h.chained
  head := h.head
  bound := h.bound
  unsent := h.unsent
  leader := h.leader
  level e he := h.level e (hp.mem_iff.1 he)
  next := h.next
  closed d b hb hne := (h.closed d b hb hne).imp hp.mem_iff.2 fun hk p' hp' =>
    (hk p' hp').imp_right (Or.imp_left (hp.map Prod.fst).mem_iff.2)

def levelEntries (level : FinMap Digest Header) : List (Digest × Header) :=
  level.entries.map fun e => (e.1, e.2)

omit [Crypto] in
theorem mem_levelEntries {level : FinMap Digest Header} {d : Digest} {b : Header} :
    (d, b) ∈ levelEntries level ↔ level.lookup d = some b := by
  unfold levelEntries
  rw [List.mem_map, FinMap.ext_lookup_iff]
  exact ⟨fun ⟨_, he, heq⟩ => by obtain ⟨rfl, rfl⟩ := Prod.mk.inj heq; exact he,
    fun he => ⟨_, he, rfl⟩⟩

/-- The next level is to be visited. -/
theorem Walk.descend {r : ℕ} {p : Node × FinMap Digest Header}
    (h : Walk unsent round leader (r + 1) p []) :
    Walk unsent round leader r (p.1, ∅) (levelEntries p.2) where
  linked := h.linked
  chained := h.chained
  head := h.head
  bound := (Nat.le_succ r).trans h.bound
  unsent := h.unsent
  leader := h.leader
  level e he := by
    obtain ⟨hindex, hround⟩ := h.next e.1 e.2 (mem_levelEntries.1 he)
    exact ⟨hindex, Nat.succ_injective hround⟩
  next d b hb := by simp at hb
  closed d b hb hne := .inr fun p' hp' =>
    (((h.closed d b hb hne).resolve_left List.not_mem_nil) p' hp').imp_right fun hk => .inl <| by
      obtain ⟨q, hq⟩ := Option.isSome_iff_exists.1 (hk.resolve_left List.not_mem_nil)
      exact List.mem_map.2 ⟨(p', q), mem_levelEntries.2 hq, rfl⟩

/-- Nothing is left to be visited. -/
theorem Walk.done {r : ℕ} {p : Node × FinMap Digest Header}
    (h : Walk unsent round leader r p []) (hp : ∀ d, p.2.lookup d = none) :
    p.1.Closed [] ∅ := fun d b hb hne => .inr fun p' hp' =>
  .inl <| (((h.closed d b hb hne).resolve_left List.not_mem_nil) p' hp').resolve_right fun hk => by
    have hsome := hk.resolve_left List.not_mem_nil
    rw [hp] at hsome
    cases hsome

theorem Walk.iterate {n : Node} {r : ℕ} {todo : List (Digest × Header)}
    (h : Walk unsent round leader r (n, ∅) todo) :
    Walk unsent round leader r ({ n with iterations := n.iterations + 1 }, ∅) todo :=
  { h with linked := h.linked.same ⟨rfl, rfl, rfl⟩, chained := { h.chained with } }

/-- What a walk ends with: its chain is closed. -/
structure Walked (unsent : Set Digest) (round : ℕ) (leader : PublicKey) (n : Node) : Prop where
  chained : Chained unsent n
  head : n.chain.round = round
  leader : ∀ b, n.dag.get round leader = some b → (n.chain.blocks.lookup b.digest).isSome
  closed : n.Closed [] ∅

theorem Walk.walked {r : ℕ} {p : Node × FinMap Digest Header}
    (h : Walk unsent round leader r p []) (hp : ∀ d, p.2.lookup d = none) :
    Walked unsent round leader p.1 :=
  ⟨h.chained, h.head, h.leader, h.done hp⟩

theorem commitLevels_walked (order : HashOrder) :
    ∀ (r : ℕ) (n : Node) (level : FinMap Digest Header),
      Walk unsent round leader r (n, ∅) (levelEntries level) →
        Walked unsent round leader (Node.commitLevels order round leader r n level)
  | 0, n, level, h => by
    have hend := (h.iterate.perm (order.perm n.iterations (levelEntries level))).foldl
    refine hend.walked fun d => Option.eq_none_iff_forall_ne_some.2 fun b hb => ?_
    have := (hend.next d b hb).2
    omega
  | r + 1, n, level, h => by
    have hend := (h.iterate.perm (order.perm n.iterations (levelEntries level))).foldl
    unfold Node.commitLevels
    simp only []
    split_ifs with hempty
    · refine hend.walked fun d => Option.eq_none_iff_forall_ne_some.2 fun b hb => ?_
      have hnil := congrArg (fun l => (⟨d, b⟩ : Sigma _) ∈ l) (List.isEmpty_iff.1 hempty)
      exact List.not_mem_nil (Eq.mp hnil (FinMap.ext_lookup_iff.1 hb))
    · exact commitLevels_walked order r _ _ hend.descend

end Walk

/-! ## Leaders -/

section Leaders

variable [Crypto]

/-- A leader that is committed. -/
def Node.CommittedLeader (n : Node) (round : ℕ) : Prop :=
  ∃ leader b, n.leader.lookup round = some leader ∧ n.dag.get round leader = some b ∧
    (n.chain.blocks.lookup b.digest).isSome

/-- What holds of the chain between two commits. -/
structure Committed (n : Node) : Prop where
  chained : Chained ∅ n
  closed : n.Closed [] ∅
  head : (n.chain.round = 0 ∧ ∀ d, n.chain.blocks.lookup d = none) ∨
    0 < n.chain.round ∧ n.CommittedLeader n.chain.round

variable {n : Node} {round : ℕ} {leader : PublicKey} {b : Header}

omit [Crypto] in
theorem Commits.sameDag {n n' : Node} (h : Commits n n') : SameDag n n' := by
  obtain ⟨chain, iterations, new, -, rfl⟩ := h
  exact ⟨rfl, rfl, rfl⟩

/-- A leader above the chain is not in it. -/
theorem Committed.lookup_leader (hc : Committed n) (hl : Linked n) (hround : n.chain.round < round)
    (hb : n.dag.get round leader = some b) : n.chain.blocks.lookup b.digest = none := by
  refine Option.eq_none_iff_forall_ne_some.2 fun b' hb' => ?_
  obtain ⟨hindex, hle⟩ := hc.chained.blocks _ _ hb'
  rw [hl.indexed _ _ _ hb] at hindex
  obtain rfl := Option.some.inj hindex
  have := (hl.filed _ _ _ hb).1
  omega

/-- The leader is put into the chain. -/
theorem commitChain_chained (hl : Linked n) (hc : Committed n) (hround : n.chain.round < round)
    (hb : n.dag.get round leader = some b) : Chained {b.digest} (n.commitChain round b) where
  blocks d b' hb' := by
    change (n.chain.blocks.insert b.digest b).lookup d = some b' at hb'
    rw [FinMap.lookup_insert_ite] at hb'
    split_ifs at hb' with hd
    · obtain rfl := Option.some.inj hb'
      exact ⟨hd ▸ hl.indexed _ _ _ hb, ((hl.filed _ _ _ hb).1).le⟩
    · exact ⟨(hc.chained.blocks d b' hb').1, (hc.chained.blocks d b' hb').2.trans hround.le⟩
  nodup := hc.chained.nodup
  sent d := by
    refine (hc.chained.sent d).trans ?_
    change _ ↔ ((n.chain.blocks.insert b.digest b).lookup d).isSome ∧ _
    rw [FinMap.lookup_insert_ite]
    split_ifs with hd
    · subst hd
      simp [hc.lookup_leader hl hround hb]
    · simp [hd]

/-- What was still to be sent is sent. -/
theorem Chained.emit (h : Chained {b.digest} n) (hb : (n.chain.blocks.lookup b.digest).isSome) :
    Chained ∅ (n.emit (.commit b)) where
  blocks := h.blocks
  nodup := by
    rw [commitDigests_append_commit]
    refine List.nodup_append.2 ⟨h.nodup, List.nodup_singleton _, fun d hd d' hd' => ?_⟩
    rintro rfl
    exact ((h.sent _).1 hd).2 (List.mem_singleton.1 hd')
  sent d := by
    rw [commitDigests_append_commit, List.mem_append, List.mem_singleton, h.sent d]
    change _ ↔ (n.chain.blocks.lookup d).isSome ∧ _
    by_cases hd : d = b.digest
    · subst hd
      simp [hb]
    · simp [hd]

/-- A leader above the chain is walked down from. -/
theorem commitAncestorBlocks_walked (n' : Node) {unsent : Set Digest} (order : HashOrder)
    (hl : Linked n) (hc : Committed n) (hleader : n.leader.lookup round = some leader)
    (hb : n.dag.get round leader = some b) (hsame : SameDag n n')
    (hchain : n'.chain = (n.commitChain round b).chain)
    (hchained : Chained unsent n') (hunsent : unsent ⊆ {b.digest}) :
    Walked unsent round leader (n'.commitAncestorBlocks order round) := by
  have hlookup : ∀ d, n'.chain.blocks.lookup d =
      if d = b.digest then some b else n.chain.blocks.lookup d := fun d => by
    rw [hchain]
    exact FinMap.lookup_insert_ite _ _ _ _
  have hin : (n'.chain.blocks.lookup b.digest).isSome := by
    rw [hlookup, if_pos rfl]
    rfl
  unfold Node.commitAncestorBlocks
  simp only [hsame.leader, hleader, hsame.dag, hb]
  refine commitLevels_walked order round n' _ ⟨hl.same hsame, hchained, ?_, le_rfl, fun d hd => ?_,
    fun b' hb' => ?_, fun e he => ?_, fun d b' hb' => ?_, fun d b' hb' hne => ?_⟩
  · rw [hchain]
    rfl
  · rwa [Set.mem_singleton_iff.1 (hunsent hd)]
  · rw [hsame.dag, hb] at hb'
    obtain rfl := Option.some.inj hb'
    exact hin
  · obtain rfl := List.mem_singleton.1 he
    rw [hsame.index]
    exact ⟨hl.indexed _ _ _ hb, (hl.filed _ _ _ hb).1⟩
  · simp at hb'
  · rw [hlookup] at hb'
    split_ifs at hb' with hd
    · obtain rfl := Option.some.inj hb'
      exact .inl (List.mem_singleton.2 (by rw [hd]))
    · refine .inr fun p hp => .inl ?_
      have hold := ((hc.closed d b' hb' hne).resolve_left List.not_mem_nil p hp).resolve_right id
      rw [hlookup]
      split_ifs
      · rfl
      · exact hold

/-- What a walk ends with, once nothing is unsent. -/
theorem Walked.committed {n' : Node} (h : Walked ∅ round leader n') (hpos : 0 < round)
    (hleader : n'.leader.lookup round = some leader) (hb : n'.dag.get round leader = some b) :
    Committed n' where
  chained := h.chained
  closed := h.closed
  head := .inr <| by
    rw [h.head]
    exact ⟨hpos, leader, b, hleader, hb, h.leader b hb⟩

/-- The blocks of a level, and the leaders met above it. -/
structure Visit (n : Node) (r : ℕ) (p : FinMap Digest Header × FinMap ℕ PublicKey) : Prop where
  level : ∀ b ∈ p.1.values, (∃ d, n.blocksByDigest.lookup d = some b) ∧ b.round = r
  valid : ∀ k, (p.2.lookup k).isSome → n.chain.round < k

theorem Visit.visitLeader (hl : Linked n) {r : ℕ} {p : FinMap Digest Header × FinMap ℕ PublicKey}
    (h : Visit n r p) (hindex : ∃ d, n.blocksByDigest.lookup d = some b) (hround : b.round = r + 1)
    (habove : n.chain.round < r + 1) : Visit n r (n.visitLeader p b) := by
  obtain ⟨d, hd⟩ := hindex
  obtain ⟨level, valid⟩ := p
  unfold Node.visitLeader
  refine ⟨fun b' hb' => ?_, fun k hk => ?_⟩
  · obtain ⟨k, hk⟩ := FinMap.mem_values.1 hb'
    rw [FinMap.lookup_foldl_collect (f := n.blocksByDigest.lookup)] at hk
    · split_ifs at hk with hp
      · obtain ⟨q, hq, hqr⟩ := hl.parents d b hd (by omega) k hp.1
        rw [hq] at hk
        obtain rfl := Option.some.inj hk
        exact ⟨⟨k, hq⟩, by omega⟩
      · exact h.level b' (FinMap.mem_values.2 ⟨k, hk⟩)
    · intro m k
      rcases n.blocksByDigest.lookup k with _ | q <;> rfl
  · simp only [] at hk
    split_ifs at hk
    · rw [FinMap.lookup_insert_ite] at hk
      split_ifs at hk with heq
      · omega
      · exact h.valid k hk
    · exact h.valid k hk

/-- The leaders found are above the chain. -/
theorem validLeadersFrom_above (hl : Linked n) : ∀ {r : ℕ} {level : FinMap Digest Header}
    {valid : FinMap ℕ PublicKey}, Visit n r (level, valid) →
      ∀ k, ((n.validLeadersFrom r level valid).lookup k).isSome → n.chain.round < k
  | 0, _, _, h, k, hk => h.valid k hk
  | r + 1, level, valid, h, k, hk => by
    unfold Node.validLeadersFrom at hk
    split_ifs at hk with habove
    · have hnext : Visit n r (level.values.foldl n.visitLeader (∅, valid)) := by
        refine List.foldlRecOn level.values n.visitLeader (motive := Visit n r)
          ⟨fun b hb => ?_, h.valid⟩ fun p hp b hb => ?_
        · obtain ⟨d, hd⟩ := FinMap.mem_values.1 hb
          simp at hd
        · exact hp.visitLeader hl (h.level b hb).1 (h.level b hb).2 habove
      exact validLeadersFrom_above hl hnext k hk
    · exact h.valid k hk

theorem findValidLeader_above (hl : Linked n) {k : ℕ}
    (hk : ((n.findValidLeader round).lookup k).isSome) : n.chain.round < k := by
  unfold Node.findValidLeader at hk
  split at hk
  · simp at hk
  split at hk
  · simp at hk
  rename_i leader _ _ b hb
  refine validLeadersFrom_above hl ⟨fun b' hb' => ?_, fun k hk => by simp at hk⟩ k hk
  obtain rfl := List.mem_singleton.1 hb'
  exact ⟨⟨_, hl.indexed _ _ _ hb⟩, (hl.filed _ _ _ hb).1⟩

/-- Leaders below are committed from the bottom up. -/
theorem commitAncestorLeader_committed (order : HashOrder) (hl : Linked n) (hc : Committed n)
    {valid : FinMap ℕ PublicKey} {r : ℕ} (hr : (valid.lookup r).isSome → n.chain.round < r) :
    Committed (n.commitAncestorLeader order valid r) ∧
      n.chain.round ≤ (n.commitAncestorLeader order valid r).chain.round ∧
      (n.commitAncestorLeader order valid r).chain.round ≤ max n.chain.round r := by
  have hsame := (Commits.commitAncestorLeader order valid n r).sameDag
  unfold Node.commitAncestorLeader at hsame ⊢
  rcases hv : valid.lookup r with _ | name
  · exact ⟨hc, le_rfl, le_max_left _ _⟩
  rcases hleader : n.leader.lookup r with _ | leader
  · exact ⟨hc, le_rfl, le_max_left _ _⟩
  simp only [hv, hleader] at hsame ⊢
  rcases hb : n.dag.get r leader with _ | b
  · exact ⟨hc, le_rfl, le_max_left _ _⟩
  simp only [hb] at hsame ⊢
  have hround : n.chain.round < r := hr (by rw [hv]; rfl)
  have hin : ((n.commitChain r b).chain.blocks.lookup b.digest).isSome := by
    change ((n.chain.blocks.insert _ _).lookup _).isSome = true
    rw [AList.lookup_insert]
    rfl
  have hwalked := commitAncestorBlocks_walked ((n.commitChain r b).emit (.commit b)) order hl hc
    hleader hb ⟨rfl, rfl, rfl⟩ rfl ((commitChain_chained hl hc hround hb).emit hin)
    (Set.empty_subset _)
  refine ⟨hwalked.committed (by omega) (by rw [hsame.leader, hleader]) (by rw [hsame.dag, hb]),
    ?_, ?_⟩ <;>
    rw [hwalked.head]
  · exact hround.le
  · exact le_max_right _ _

theorem tryToCommitAncestorLeader_committed (order : HashOrder) (hl : Linked n)
    (hc : Committed n) (hround : n.chain.round < round) :
    Committed (n.tryToCommitAncestorLeader order round) ∧
      n.chain.round ≤ (n.tryToCommitAncestorLeader order round).chain.round ∧
      (n.tryToCommitAncestorLeader order round).chain.round < round := by
  unfold Node.tryToCommitAncestorLeader
  split_ifs
  · exact ⟨hc, le_rfl, hround⟩
  let valid := n.findValidLeader round
  have hvalid : ∀ k, (valid.lookup k).isSome → n.chain.round < k :=
    fun k hk => findValidLeader_above hl hk
  -- the rounds still to be tried are above the chain
  have hloop : ∀ (l : List ℕ) (m : Node), l.Pairwise (· < ·) → (∀ r ∈ l, r < round) →
      Linked m → Committed m → m.chain.round < round →
      (∀ r ∈ l, (valid.lookup r).isSome → m.chain.round < r) →
      Committed (l.foldl (Node.commitAncestorLeader order valid) m) ∧
        m.chain.round ≤ (l.foldl (Node.commitAncestorLeader order valid) m).chain.round ∧
        (l.foldl (Node.commitAncestorLeader order valid) m).chain.round < round := by
    intro l
    induction l with
    | nil => exact fun m _ _ _ hm hlt _ => ⟨hm, le_rfl, hlt⟩
    | cons r l ih =>
      intro m hsorted hbelow hlm hm hlt habove
      obtain ⟨hfirst, hsorted⟩ := List.pairwise_cons.1 hsorted
      obtain ⟨hr, hbelow⟩ := List.forall_mem_cons.1 hbelow
      obtain ⟨hrabove, habove⟩ := List.forall_mem_cons.1 habove
      obtain ⟨hm', hge, hle⟩ := commitAncestorLeader_committed order hlm hm hrabove
      have hsame := (Commits.commitAncestorLeader order valid m r).sameDag
      obtain ⟨hend, hge', hlt'⟩ := ih _ hsorted hbelow (hlm.same hsame) hm'
        (hle.trans_lt (max_lt hlt hr)) fun r' hr' hv =>
          hle.trans_lt (max_lt (habove r' hr' hv) (hfirst r' hr'))
      exact ⟨hend, hge.trans hge', hlt'⟩
  refine hloop _ n ((List.pairwise_lt_range).filter _) (fun r hr => ?_) hl hc hround
    fun r _ => hvalid r
  exact List.mem_range.1 (List.mem_filter.1 hr).1

/-- Committing a leader keeps the chain closed and everything in it sent once. -/
theorem tryToCommitLeader_committed (order : HashOrder) (hl : Linked n) (hc : Committed n)
    (round : ℕ) : Committed (n.tryToCommitLeader order round) ∧
      n.chain.round ≤ (n.tryToCommitLeader order round).chain.round := by
  unfold Node.tryToCommitLeader
  split_ifs with hround
  · exact ⟨hc, le_rfl⟩
  split
  · exact ⟨hc, le_rfl⟩
  split_ifs
  · exact ⟨hc, le_rfl⟩
  split
  · exact ⟨hc, le_rfl⟩
  rename_i leader hleader _ _ b hb
  obtain ⟨hc', hge, hlt⟩ := tryToCommitAncestorLeader_committed order hl hc (not_le.1 hround)
  have hsame := (Commits.tryToCommitAncestorLeader order n round).sameDag
  simp only []
  generalize n.tryToCommitAncestorLeader order round = m at hc' hge hlt hsame ⊢
  have hlm := hl.same hsame
  have hbm : m.dag.get round leader = some b := by rw [hsame.dag, hb]
  have hleaderm : m.leader.lookup round = some leader := by rw [hsame.leader, hleader]
  have hwalked := commitAncestorBlocks_walked (m.commitChain round b) order hlm hc' hleaderm
    hbm ⟨rfl, rfl, rfl⟩ rfl (commitChain_chained hlm hc' hlt hbm) le_rfl
  have hsame' := (Commits.commitAncestorBlocks order (m.commitChain round b) round).sameDag
  generalize (m.commitChain round b).commitAncestorBlocks order round = m' at hwalked hsame' ⊢
  have hbm' : m'.dag.get round leader = some b := by
    rw [hsame'.dag]
    exact hbm
  refine ⟨⟨hwalked.chained.emit (hwalked.leader b hbm'), hwalked.closed, .inr ?_⟩, ?_⟩
  · rw [show (m'.emit (.commit b)).chain.round = round from hwalked.head]
    refine ⟨by omega, leader, b, ?_, hbm', hwalked.leader b hbm'⟩
    exact hsame'.leader ▸ hleaderm
  · rw [show (m'.emit (.commit b)).chain.round = round from hwalked.head]
    exact (not_le.1 hround).le

end Leaders

end NovelDag.Wahoo
