import NovelDag.DebugBuild
import NovelDag.Proofs.OutputOnce

/-!
# When the loops of Narwhal and Bullshark panic

Each round between the last committed one and that of a received certificate has a certificate in
the DAG: a parent of every certificate was received before it, down to round one, and the clean-up
removes nothing above the last committed round. The rounds `order_leaders` looks at lie above the
last committed one and are even. So none of the lookups of a release build fails, whatever round
the certificates are of, and none of the further assertions of a debug build.

What is left is the subtraction at the head of the loop: a debug build stops at a certificate of
round zero.
-/

namespace NovelDag

open PrefixLog Fallible

variable [Crypto]

/-! ## What has been received -/

section Memory

/-- Parents before children: above round zero a certificate has a parent of the round before, of
the genesis or received before it. -/
def ParentsFirst (genesis xs : List Certificate) : Prop :=
  ∀ (ys : List Certificate) (x : Certificate), ys ++ [x] <+: xs → 0 < x.round →
    ∃ p ∈ genesis ++ ys, p.round + 1 = x.round ∧ p.digest ∈ x.header.parents

variable {genesis xs ys : List Certificate} {s : State} {c x : Certificate} {gcDepth : ℕ}

theorem ParentsFirst.initial (h : ParentsFirst genesis xs) (hp : ys <+: xs) :
    ParentsFirst genesis ys := fun zs x hz => h zs x (hz.trans hp)

/-- A certificate was received for every round below a received one, from round one on. -/
theorem ParentsFirst.exists_round (hg : ∀ g ∈ genesis, g.round = 0)
    (h : ParentsFirst genesis xs) {j : ℕ} (hj : 0 < j) : ∀ (n : ℕ) {x : Certificate}, x ∈ xs →
      x.round = j + n → ∃ c ∈ xs, c.round = j
  | 0, x, hx, hr => ⟨x, hx, hr⟩
  | n + 1, x, hx, hr => by
    obtain ⟨ys, zs, hxs⟩ := List.append_of_mem hx
    obtain ⟨p, hp, hround, -⟩ := h ys x ⟨zs, by simp [hxs]⟩ (by omega)
    rcases List.mem_append.1 hp with hp | hp
    · have := hg p hp
      omega
    · exact ParentsFirst.exists_round hg h hj n (hxs ▸ List.mem_append_left _ hp) (by omega)

/-- The state once `ys` have been received. -/
structure History (genesis ys : List Certificate) (s : State) : Prop where
  coherent : s.Coherent
  sound : ∀ r n e, s.get r n = some e → e.2.round = r ∧ e.2 ∈ genesis ++ ys
  present : ∀ c ∈ ys, s.lastCommittedRound < c.round → ∃ n e, s.get c.round n = some e

theorem history_new {committee : Committee} : History (Certificate.genesis committee) []
    (State.new (Certificate.genesis committee)) where
  coherent := State.coherent_new
  sound r n e h := by
    obtain ⟨rfl, -, hg, -⟩ := State.get_new.1 h
    exact ⟨(Certificate.genesis_parents hg).2, List.mem_append_left _ hg⟩
  present _ hc := absurd hc List.not_mem_nil

theorem History.insert (h : History genesis ys s) (x : Certificate) :
    History genesis (ys ++ [x]) (s.insertCertificate x) where
  coherent := h.coherent
  sound r n e he := by
    rw [State.get_insertCertificate] at he
    split_ifs at he with hr
    · obtain rfl := Option.some.inj he
      exact ⟨hr.1.symm, by simp⟩
    · obtain ⟨h₁, h₂⟩ := h.sound r n e he
      exact ⟨h₁, by rw [← List.append_assoc]; exact List.mem_append_left _ h₂⟩
  present c hc hlt := by
    simp only [State.get_insertCertificate]
    rcases List.mem_append.1 hc with hc | hc
    · obtain ⟨n, e, he⟩ := h.present c hc hlt
      by_cases hx : c.round = x.round ∧ n = x.origin
      · exact ⟨n, (x.digest, x), if_pos hx⟩
      · exact ⟨n, e, by rw [if_neg hx, he]⟩
    · obtain rfl := List.mem_singleton.1 hc
      exact ⟨c.origin, (c.digest, c), if_pos ⟨rfl, rfl⟩⟩

omit [Crypto] in
theorem History.update (h : History genesis ys s) (c : Certificate) (gcDepth : ℕ) :
    History genesis ys (s.update c gcDepth) where
  coherent := State.coherent_update
  sound r n e he := by
    rw [State.get_update] at he
    exact h.sound r n e (Option.filter_eq_some_iff.1 he).1
  present d hd hlt := by
    have hle : s.lastCommittedRound ≤ (s.update c gcDepth).lastCommittedRound := by
      rw [State.lastCommittedRound_update h.coherent]
      exact le_max_right _ _
    obtain ⟨n, e, he⟩ := h.present d hd (hle.trans_lt hlt)
    refine ⟨n, e, ?_⟩
    rw [State.get_update, he]
    exact Option.filter_eq_some_iff.2 ⟨rfl, State.keeps_of_lt State.coherent_update hlt.le n⟩

omit [Crypto] in
theorem History.foldl_update (gcDepth : ℕ) : ∀ (l : List Certificate) {s : State},
    History genesis ys s → History genesis ys (l.foldl (fun s x => s.update x gcDepth) s)
  | [], _, h => h
  | c :: l, _, h => History.foldl_update gcDepth l (h.update c gcDepth)

omit [Crypto] in
theorem History.commitWith (gcDepth : ℕ) (order : Certificate → State → List Certificate) :
    ∀ (ls : List Certificate) {s : State}, History genesis ys s →
      History genesis ys (commitWith gcDepth order ls s).1
  | [], _, h => h
  | l :: ls, s, h => History.commitWith gcDepth order ls (h.foldl_update gcDepth (order l s))

/-- The whole history is there above the last committed round. -/
theorem History.lookup (hg : ∀ g ∈ genesis, g.round = 0) (hp : ParentsFirst genesis ys)
    (h : History genesis ys s) (hx : x ∈ ys) {j : ℕ} (hlt : s.lastCommittedRound < j)
    (hle : j ≤ x.round) : ∃ authorities, s.dag.lookup j = some authorities := by
  obtain ⟨c, hc, rfl⟩ := hp.exists_round hg (j := j) (by omega) (x.round - j) hx (by omega)
  obtain ⟨n, e, he⟩ := h.present c hc hlt
  obtain ⟨m, hm, -⟩ := Option.bind_eq_some_iff.1 he
  exact ⟨m, hm⟩

omit [Crypto] in
/-- What `order_dag` pushes has been received. -/
theorem History.mem_next (h : History genesis ys s) {e : Digest × Certificate}
    (he : e ∈ Narwhal.orderDagNext s x) : e.2 ∈ genesis ++ ys := by
  unfold Narwhal.orderDagNext at he
  split at he
  · exact absurd he List.not_mem_nil
  · rename_i r hr
    obtain ⟨d, -, hf⟩ := List.mem_filterMap.1 he
    obtain ⟨m, hm, hf⟩ := Option.bind_eq_some_iff.1 (Option.filter_eq_some_iff.1 hf).1
    obtain ⟨n, hn⟩ := FinMap.mem_values.1 (List.mem_of_find?_eq_some hf)
    exact (h.sound r n e (by rw [State.get, hm, Option.bind_some, hn])).2

end Memory

/-! ## Past leaders -/

section Past

variable {consensus : Consensus} {dag : Dag}

omit [Crypto] in
theorem subRound_of_le {a b : ℕ} (h : b ≤ a) : subRound a b = .ok (a - b) := if_pos h

/-- The round-robin schedule of Narwhal and Bullshark. -/
structure EvenSchedule (consensus : Consensus) : Prop where
  roundRobin : consensus.consensusProtocol = .roundRobin
  even : consensus.dagProtocol = .narwhal ∨ consensus.dagProtocol = .bullshark

omit [Crypto] in
theorem foldlM_linkedStep_ok : ∀ {rounds : List ℕ} (parents : List Certificate),
    (∀ r ∈ rounds, ∃ authorities, dag.lookup r = some authorities) →
      ∃ ps, rounds.foldlM (Narwhal.linkedStep dag) parents = .ok ps
  | [], parents, _ => ⟨parents, rfl⟩
  | r :: rounds, parents, h => by
    obtain ⟨⟨m, hm⟩, h⟩ := List.forall_mem_cons.1 h
    rw [List.foldlM_cons, Narwhal.linkedStep, hm]
    exact foldlM_linkedStep_ok _ h

omit [Crypto] in
theorem linked_ok {leader prevLeader : Certificate}
    (h : ∀ r, prevLeader.round ≤ r → r < leader.round →
      ∃ authorities, dag.lookup r = some authorities) :
    ∃ b, Narwhal.linked leader prevLeader dag = .ok b := by
  obtain ⟨ps, hps⟩ : ∃ ps, (List.range' prevLeader.round
      (leader.round - prevLeader.round)).reverse.foldlM (Narwhal.linkedStep dag) [leader] =
        .ok ps :=
    foldlM_linkedStep_ok [leader] fun r hr => by
      have := List.mem_range'_1.1 (List.mem_reverse.1 hr)
      exact h r this.1 (by omega)
  refine ⟨ps.any fun x => x.partialEq prevLeader, ?_⟩
  unfold Narwhal.linked
  simp only [hps]
  rfl

/-- On an even round the schedule has a leader, with the assertions and without. -/
theorem leader_ok (hs : EvenSchedule consensus) (dag : Dag) {r : ℕ} (h2 : 2 ≤ r) (heven : r % 2 = 0)
    (coinRound : ℕ) : ∃ o, consensus.leader r coinRound dag = .ok o ∧
      consensus.debugLeader r coinRound dag = .ok o := by
  unfold Consensus.leader Consensus.debugLeader
  rcases dag.lookup r with _ | m
  · exact ⟨none, rfl, rfl⟩
  have hslot : roundRobinSlot r 2 2 = .ok ((r - 2) / 2) := by
    simp [roundRobinSlot, not_lt.2 h2]
  have hdebug : debugRoundRobinSlot r 2 2 = .ok ((r - 2) / 2) := by
    have hmod : (r - 2) % 2 = 0 := by omega
    simp [debugRoundRobinSlot, not_lt.2 h2, hmod]
  have hcoin : consensus.roundRobinCoin r = .ok ((r - 2) / 2) ∧
      consensus.debugRoundRobinCoin r = .ok ((r - 2) / 2) := by
    unfold Consensus.roundRobinCoin Consensus.debugRoundRobinCoin
    rcases hs.even with hp | hp <;> rw [hp] <;> exact ⟨hslot, hdebug⟩
  simp only [Consensus.leaderAuthority, Consensus.debugLeaderAuthority, hs.roundRobin, hcoin.1,
    hcoin.2]
  exact ⟨_, rfl, rfl⟩

/-- `order_leaders` finds the history it looks for. -/
theorem pastLeaders_ok (hs : EvenSchedule consensus) (coinRound : ℕ → ℕ) {s : State} (lo hi : ℕ)
    (hsound : ∀ r n e, s.get r n = some e → e.2.round = r)
    (hlook : ∀ r, lo < r → r < hi → ∃ authorities, s.dag.lookup r = some authorities) :
    ∀ (rounds : List ℕ) (current : Certificate), current.round ≤ hi →
      (∀ r ∈ rounds, lo < r ∧ r < hi ∧ 2 ≤ r ∧ r % 2 = 0) →
        ∃ ls, pastLeaders coinRound consensus s.dag current rounds = .ok ls ∧
          debugPastLeaders consensus coinRound s.dag current rounds = .ok ls
  | [], _, _, _ => ⟨[], rfl, rfl⟩
  | r :: rounds, current, hc, hr => by
    obtain ⟨⟨hlo, hhi, h2, heven⟩, hr⟩ := List.forall_mem_cons.1 hr
    obtain ⟨o, hl, hd⟩ := leader_ok hs s.dag h2 heven (coinRound r)
    have ih := fun prev => pastLeaders_ok hs coinRound lo hi hsound hlook rounds prev
    unfold pastLeaders debugPastLeaders
    rw [hl, hd]
    rcases o with _ | ⟨d, prevLeader⟩
    · exact ih current hc hr
    obtain ⟨n, hn⟩ := get_of_leader hl
    have hround : prevLeader.round = r := hsound r n _ hn
    obtain ⟨b, hb⟩ : ∃ b, Narwhal.linked current prevLeader s.dag = .ok b :=
      linked_ok fun j hj hlt => hlook j (by omega) (by omega)
    obtain ⟨ls, hls, hls'⟩ := ih prevLeader (by omega) hr
    change ∃ ls, (Narwhal.linked current prevLeader s.dag >>= fun b => _) = .ok ls ∧
      (Narwhal.linked current prevLeader s.dag >>= fun b => _) = .ok ls
    rw [hb]
    cases b
    · exact ih current hc hr
    · refine ⟨prevLeader :: ls, ?_, ?_⟩
      · change (pastLeaders coinRound consensus s.dag prevLeader rounds >>= fun l => _) = _
        rw [hls]
        rfl
      · change (debugPastLeaders consensus coinRound s.dag prevLeader rounds >>= fun l => _) = _
        rw [hls']
        rfl

omit [Crypto] in
/-- Every other number from the top of a range down. -/
theorem mem_everyOther_range' (lo : ℕ) {r : ℕ} : ∀ (n : ℕ),
    r ∈ Narwhal.everyOther (List.range' lo n).reverse → ∃ k, r + 2 * k + 1 = lo + n
  | 0, h => absurd h List.not_mem_nil
  | 1, h => ⟨0, congrArg (· + 1) (List.mem_singleton.1 h)⟩
  | n + 2, h => by
    rw [List.range'_1_concat, List.range'_1_concat, List.reverse_append, List.reverse_append] at h
    change r ∈ (lo + (n + 1)) :: Narwhal.everyOther (List.range' lo n).reverse at h
    rcases List.mem_cons.1 h with rfl | h
    · exact ⟨0, by omega⟩
    · obtain ⟨k, hk⟩ := mem_everyOther_range' lo n h
      exact ⟨k + 1, by omega⟩

omit [Crypto] in
/-- The past rounds of a leader of an even round are even. -/
theorem mem_pastRounds {lo hi r : ℕ} (h : r ∈ Narwhal.pastRounds lo hi) :
    lo ≤ r ∧ r ≤ hi ∧ r % 2 = hi % 2 := by
  have hrange := List.mem_range'_1.1 (List.mem_reverse.1 ((everyOther_sublist _).subset h))
  obtain ⟨k, hk⟩ := mem_everyOther_range' lo _ h
  omega

end Past

/-! ## A leader -/

section Commit

variable {consensus : Consensus} {genesis ys : List Certificate} {s : State}
  {leader x : Certificate} {order : Certificate → State → List Certificate}

omit [Crypto] in
/-- No certificate of round zero with parents is walked to when none was received. -/
theorem History.checkSequenced (hg : ∀ g ∈ genesis, g.header.parents = ∅)
    (hpos : ∀ c ∈ ys, 0 < c.round) (h : History genesis ys s) (hl : leader ∈ genesis ++ ys) :
    checkSequenced leader s = .ok () := by
  refine forM_eq_ok.2 fun x hx => ?_
  have hmem : x ∈ genesis ++ ys := Worklist.forall_mem_dfs (P := fun x => x ∈ genesis ++ ys)
    (fun _ _ _ he => h.mem_next he) _ (by simpa using hl) x hx
  split_ifs with hparents
  · rfl
  rcases List.mem_append.1 hmem with hmem | hmem
  · rw [hg x hmem] at hparents
    exact absurd rfl hparents
  · rw [subRound_of_le (Nat.succ_le_of_lt (hpos x hmem))]
    rfl

omit [Crypto] in
theorem History.debugCommitLeaders (hg : ∀ g ∈ genesis, g.header.parents = ∅)
    (hpos : ∀ c ∈ ys, 0 < c.round) : ∀ {ls : List Certificate} {s : State},
      History genesis ys s → (∀ l ∈ ls, l ∈ genesis ++ ys) →
        debugCommitLeaders consensus order ls s =
          .ok (NovelDag.commitWith consensus.gcDepth order ls s)
  | [], _, _, _ => rfl
  | l :: ls, s, h, hls => by
    obtain ⟨hl, hls⟩ := List.forall_mem_cons.1 hls
    rw [NovelDag.debugCommitLeaders, h.checkSequenced hg hpos hl]
    change (NovelDag.debugCommitLeaders consensus order ls _ >>= fun rest => _) = _
    rw [History.debugCommitLeaders hg hpos (h.foldl_update consensus.gcDepth (order l s)) hls]
    rfl

/-- The past leaders have been received. -/
theorem History.mem_pastLeaders {coinRound : ℕ → ℕ} (h : History genesis ys s) :
    ∀ {rounds : List ℕ} {current : Certificate} {ls : List Certificate},
      pastLeaders coinRound consensus s.dag current rounds = .ok ls →
        ∀ l ∈ ls, l ∈ genesis ++ ys
  | [], _, _, hls => by
    cases hls
    exact fun _ hl => absurd hl List.not_mem_nil
  | r :: rounds, current, ls, hls => by
    unfold pastLeaders at hls
    obtain ⟨o, ho, hls⟩ := bind_eq_ok.1 hls
    rcases o with _ | ⟨d, prevLeader⟩
    · exact h.mem_pastLeaders hls
    · obtain ⟨b, -, hls⟩ := bind_eq_ok.1 hls
      split_ifs at hls with hb
      · obtain ⟨rest, hrest, hls⟩ := bind_eq_ok.1 hls
        cases hls
        obtain ⟨n, hn⟩ := get_of_leader ho
        exact List.forall_mem_cons.2 ⟨(h.sound r n _ hn).2, h.mem_pastLeaders hrest⟩
      · exact h.mem_pastLeaders hls

/-- A leader of an even round above the last committed one is ordered with its past leaders and
committed, in a debug build too when no certificate of round zero was received. -/
theorem History.commit (order : Certificate → State → List Certificate)
    (hg : ∀ g ∈ genesis, g.header.parents = ∅ ∧ g.round = 0) (hp : ParentsFirst genesis ys)
    (hs : EvenSchedule consensus) (coinRound : ℕ → ℕ) (h : History genesis ys s) {r : ℕ}
    {n : PublicKey} {d : Digest} (hl : s.get r n = some (d, leader)) (hlt : s.lastCommittedRound < r)
    (heven : r % 2 = 0) (hx : x ∈ ys) (hle : r ≤ x.round) :
    ∃ past, pastLeaders coinRound consensus s.dag leader
        (Narwhal.pastRounds (s.lastCommittedRound + 2) (leader.round - 2)) = .ok past ∧
      ((∀ c ∈ ys, 0 < c.round) →
        (debugOrderLeaders consensus coinRound leader s >>= fun leaders =>
          NovelDag.debugCommitLeaders consensus order leaders.reverse s) =
            .ok (NovelDag.commitWith consensus.gcDepth order (leader :: past).reverse s)) := by
  obtain ⟨hround, hmem⟩ := h.sound r n _ hl
  simp only at hround hmem
  obtain ⟨past, hpast, hdebug⟩ := pastLeaders_ok hs coinRound (s := s)
    s.lastCommittedRound leader.round (fun r n e he => (h.sound r n e he).1)
    (fun j hj hjl => h.lookup (fun g hg' => (hg g hg').2) hp hx hj (by omega))
    (Narwhal.pastRounds (s.lastCommittedRound + 2) (leader.round - 2)) leader le_rfl
    fun j hj => by
      have := mem_pastRounds hj
      omega
  refine ⟨past, hpast, fun hpos => ?_⟩
  have hsub : subRound leader.round 2 = .ok (leader.round - 2) := subRound_of_le (by omega)
  have horder : debugOrderLeaders consensus coinRound leader s = .ok (leader :: past) := by
    unfold debugOrderLeaders
    rw [hsub]
    change (debugPastLeaders consensus coinRound s.dag leader _ >>= fun past => _) = _
    rw [hdebug]
    rfl
  rw [horder]
  refine h.debugCommitLeaders (fun g hg' => (hg g hg').1) hpos fun l hl' => ?_
  rcases List.mem_cons.1 (List.mem_reverse.1 hl') with rfl | hl'
  · exact hmem
  · exact h.mem_pastLeaders hpast l hl'

end Commit

/-! ## Steps -/

section Steps

variable {consensus : Consensus} {ys : List Certificate} {s : State} {x : Certificate}

/-- A step of a release build succeeds, and one of a debug build does the same as long as no
certificate of round zero was received. -/
def Succeeds (consensus : Consensus) (step debugStep : State → Certificate →
    Except String (State × List Certificate)) (ys : List Certificate) (s : State)
    (x : Certificate) : Prop :=
  ∃ t out, step s x = .ok (t, out) ∧ History consensus.genesis (ys ++ [x]) t ∧
    ((∀ c ∈ ys ++ [x], 0 < c.round) → debugStep s x = .ok (t, out))

theorem Narwhal.step_ok (hs : EvenSchedule consensus)
    (hp : ParentsFirst consensus.genesis (ys ++ [x])) (h : History consensus.genesis ys s) :
    Succeeds consensus (step consensus) (debugStep consensus) ys s x := by
  have hx := h.insert x
  have hmem : x ∈ ys ++ [x] := by simp
  rcases hr : x.round with _ | r
  · refine ⟨_, [], by simp only [step, hr], hx, fun hpos => ?_⟩
    have := hpos x hmem
    omega
  have hsub : subRound (r + 1) 1 = .ok r := subRound_of_le (by omega)
  unfold Succeeds step debugStep
  simp only [hr, hsub, ok_bind]
  by_cases h₁ : r % 2 ≠ 0 ∨ r < 4
  · simp only [if_pos h₁]
    exact ⟨_, [], rfl, hx, fun _ => rfl⟩
  simp only [if_neg h₁]
  simp only [not_or, not_not, not_lt] at h₁
  have hsub₂ : subRound r 2 = .ok (r - 2) := subRound_of_le (by omega)
  have hsub₁ : subRound r 1 = .ok (r - 1) := subRound_of_le (by omega)
  simp only [hsub₂, hsub₁, ok_bind]
  by_cases h₂ : r - 2 ≤ (s.insertCertificate x).lastCommittedRound
  · simp only [if_pos h₂]
    exact ⟨_, [], rfl, hx, fun _ => rfl⟩
  simp only [if_neg h₂]
  obtain ⟨o, hl, hd⟩ := leader_ok hs (s.insertCertificate x).dag
    (r := r - 2) (by omega) (by omega) r
  simp only [hl, hd, ok_bind]
  rcases o with _ | ⟨d, leader⟩
  · exact ⟨_, [], rfl, hx, fun _ => rfl⟩
  obtain ⟨m, hm⟩ := hx.lookup (fun g hg => (Certificate.genesis_parents hg).2) hp hmem
    (j := r - 1) (by omega) (by omega)
  simp only [debugCommit, hm]
  by_cases h₃ : support consensus m d < consensus.committee.validityThreshold
  · simp only [if_pos h₃]
    exact ⟨_, [], rfl, hx, fun _ => rfl⟩
  simp only [if_neg h₃]
  obtain ⟨n, hn⟩ := get_of_leader hl
  obtain ⟨past, hpast, hdebug⟩ := hx.commit orderDag (fun g => Certificate.genesis_parents) hp hs
    (· + 2) hn (not_le.1 h₂) (by omega) hmem (by omega)
  refine ⟨_, _, ?_, hx.commitWith consensus.gcDepth orderDag (leader :: past).reverse, hdebug⟩
  rw [orderLeaders, pastLeaders_narwhal, hpast]
  exact congrArg Except.ok (commitWith_narwhal _ _)

theorem Bullshark.step_ok (hs : EvenSchedule consensus)
    (hp : ParentsFirst consensus.genesis (ys ++ [x])) (h : History consensus.genesis ys s) :
    Succeeds consensus (step consensus) (debugStep consensus) ys s x := by
  have hx := h.insert x
  have hmem : x ∈ ys ++ [x] := by simp
  rcases hr : x.round with _ | r
  · refine ⟨_, [], by simp only [step, hr], hx, fun hpos => ?_⟩
    have := hpos x hmem
    omega
  have hsub : subRound (r + 1) 1 = .ok r := subRound_of_le (by omega)
  unfold Succeeds step debugStep
  simp only [hr, hsub, ok_bind]
  by_cases h₁ : r % 2 ≠ 0 ∨ r < 2
  · simp only [if_pos h₁]
    exact ⟨_, [], rfl, hx, fun _ => rfl⟩
  simp only [if_neg h₁]
  simp only [not_or, not_not, not_lt] at h₁
  by_cases h₂ : r ≤ (s.insertCertificate x).lastCommittedRound
  · simp only [if_pos h₂]
    exact ⟨_, [], rfl, hx, fun _ => rfl⟩
  simp only [if_neg h₂]
  obtain ⟨o, hl, hd⟩ := leader_ok hs (s.insertCertificate x).dag
    (r := r) (by omega) (by omega) r
  simp only [hl, hd, ok_bind]
  rcases o with _ | ⟨d, leader⟩
  · exact ⟨_, [], rfl, hx, fun _ => rfl⟩
  obtain ⟨m, hm⟩ := hx.lookup (fun g hg => (Certificate.genesis_parents hg).2) hp hmem
    (j := r + 1) (by omega) (by omega)
  simp only [debugCommit, hm]
  by_cases h₃ : Narwhal.support consensus m d < consensus.committee.validityThreshold
  · simp only [if_pos h₃]
    exact ⟨_, [], rfl, hx, fun _ => rfl⟩
  simp only [if_neg h₃]
  obtain ⟨n, hn⟩ := get_of_leader hl
  obtain ⟨past, hpast, hdebug⟩ := hx.commit
    (fun leader s => orderDag leader s consensus.gcDepth) (fun g => Certificate.genesis_parents) hp hs
    id hn (not_le.1 h₂) (by omega) hmem (by omega)
  refine ⟨_, _, ?_, hx.commitWith consensus.gcDepth _ (leader :: past).reverse, hdebug⟩
  rw [orderLeaders, pastLeaders_bullshark, hpast]
  exact congrArg Except.ok (commitWith_bullshark _ _)

end Steps

/-! ## Runs -/

section Runs

variable {consensus : Consensus} {xs : List Certificate}
  {step debugStep : State → Certificate → Except String (State × List Certificate)}

/-- The states and the log of a loop. -/
abbrev runLoop (consensus : Consensus)
    (step : State → Certificate → Except String (State × List Certificate))
    (xs : List Certificate) : Option State × List Certificate :=
  PrefixLog.run (fun s x => (step s x).toOption) (State.new consensus.genesis) xs

/-- A release build goes on for ever. -/
theorem runLoop_ok (hp : ParentsFirst consensus.genesis xs)
    (hok : ∀ ys s x, ParentsFirst consensus.genesis (ys ++ [x]) → History consensus.genesis ys s →
      Succeeds consensus step debugStep ys s x) :
    ∃ s, (runLoop consensus step xs).1 = some s ∧ History consensus.genesis xs s := by
  refine run_total _ (P := fun ys s _ => History consensus.genesis ys s) history_new xs ?_
  intro ys x s _ hy h
  obtain ⟨t, out, hstep, ht, -⟩ := hok ys s x (hp.initial hy) h
  exact ⟨t, out, toOption_eq_some.2 hstep, ht⟩

/-- Without certificates of round zero a debug build does what a release build does. -/
theorem runLoop_debug_eq (hp : ParentsFirst consensus.genesis xs)
    (hok : ∀ ys s x, ParentsFirst consensus.genesis (ys ++ [x]) → History consensus.genesis ys s →
      Succeeds consensus step debugStep ys s x) (hpos : ∀ c ∈ xs, 0 < c.round) :
    runLoop consensus debugStep xs = runLoop consensus step xs := by
  induction xs using List.reverseRecOn with
  | nil => rfl
  | append_singleton ys x ih =>
    have hys : ys <+: ys ++ [x] := List.prefix_append _ _
    have ih := ih (hp.initial hys) fun c hc => hpos c (hys.subset hc)
    obtain ⟨s, hs, h⟩ := runLoop_ok (hp.initial hys) hok
    obtain ⟨t, out, hstep, -, hdebug⟩ := hok ys s x hp h
    unfold runLoop at ih hs ⊢
    rw [run_concat, run_concat, ih, advance_of_some _ hs (toOption_eq_some.2 (hdebug hpos)),
      advance_of_some _ hs (toOption_eq_some.2 hstep)]

/-- A debug build goes on as long as no certificate of round zero comes. -/
theorem runLoop_debug_isSome_iff (hp : ParentsFirst consensus.genesis xs)
    (hok : ∀ ys s x, ParentsFirst consensus.genesis (ys ++ [x]) → History consensus.genesis ys s →
      Succeeds consensus step debugStep ys s x)
    (hzero : ∀ s x, (debugStep s x).toOption.isSome → 0 < x.round) :
    (runLoop consensus debugStep xs).1.isSome ↔ ∀ x ∈ xs, 0 < x.round := by
  constructor
  · intro h x hx
    obtain ⟨s, hs⟩ := exists_step_of_mem _ h hx
    exact hzero s x hs
  · intro hpos
    obtain ⟨s, hs, -⟩ := runLoop_ok hp hok
    rw [runLoop_debug_eq hp hok hpos, hs]
    rfl

omit [Crypto] in
/-- A checked subtraction that went through. -/
theorem le_of_subRound_bind {α : Type} {a b : ℕ} {f : ℕ → Except String α}
    (h : (subRound a b >>= f).toOption.isSome) : b ≤ a := by
  unfold subRound at h
  split_ifs at h with hle
  · exact hle
  · exact absurd h (by simp [Bind.bind, Except.bind, Except.toOption])

/-- Neither loop stops in a release build. -/
theorem run_isSome (hs : EvenSchedule consensus) (hp : ParentsFirst consensus.genesis xs) :
    (Narwhal.run consensus xs).1.isSome ∧ (Bullshark.run consensus xs).1.isSome := by
  obtain ⟨s, hn, -⟩ := runLoop_ok hp fun _ _ _ => Narwhal.step_ok hs
  obtain ⟨t, hb, -⟩ := runLoop_ok hp fun _ _ _ => Bullshark.step_ok hs
  exact ⟨by rw [Narwhal.run, hn]; rfl, by rw [Bullshark.run, hb]; rfl⟩

/-- With the round-robin schedule, no subtraction underflows, no lookup and no assertion fails on
certificates that come parents first, exactly when none of them is of round zero. -/
theorem debugRun_isSome_iff (hcp : consensus.consensusProtocol = .roundRobin)
    (hp : ParentsFirst consensus.genesis xs) :
    (consensus.dagProtocol = .narwhal →
      ((Narwhal.debugRun consensus xs).1.isSome ↔ ∀ x ∈ xs, 0 < x.round)) ∧
    (consensus.dagProtocol = .bullshark →
      ((Bullshark.debugRun consensus xs).1.isSome ↔ ∀ x ∈ xs, 0 < x.round)) := by
  constructor
  · intro hdp
    exact runLoop_debug_isSome_iff hp (fun _ _ _ => Narwhal.step_ok ⟨hcp, .inl hdp⟩)
      fun s x h => le_of_subRound_bind h
  · intro hdp
    exact runLoop_debug_isSome_iff hp (fun _ _ _ => Bullshark.step_ok ⟨hcp, .inr hdp⟩)
      fun s x h => le_of_subRound_bind h

theorem ParentsFirst.of_list {genesis : List Certificate}
    (h : ∀ i < xs.length, ∀ x ∈ xs[i]?, 0 < x.round →
      ∃ p ∈ genesis ++ xs.take i, p.round + 1 = x.round ∧ p.digest ∈ x.header.parents) :
    ParentsFirst genesis xs :=
  forall_prefix_concat h

end Runs

omit [Crypto] in
/-- Both loops go through seven rounds of a DAG. -/
theorem debugRun_isSome_iff_promptOrder :
    letI := toyCrypto
    ((Narwhal.debugRun Narwhal.fourNodes Narwhal.promptOrder).1.isSome ↔
        ∀ x ∈ Narwhal.promptOrder, 0 < x.round) ∧
      ((Bullshark.debugRun { Narwhal.fourNodes with dagProtocol := .bullshark }
        Narwhal.promptOrder).1.isSome ↔ ∀ x ∈ Narwhal.promptOrder, 0 < x.round) ∧
      ∀ x ∈ Narwhal.promptOrder, 0 < x.round := by
  let _ := toyCrypto
  have hparents : ParentsFirst Narwhal.fourNodes.genesis Narwhal.promptOrder :=
    .of_list (by decide +kernel)
  exact ⟨(@debugRun_isSome_iff _ Narwhal.fourNodes Narwhal.promptOrder rfl hparents).1 rfl,
    (@debugRun_isSome_iff _ { Narwhal.fourNodes with dagProtocol := .bullshark }
      Narwhal.promptOrder rfl hparents).2 rfl, by decide +kernel⟩

omit [Crypto] in
/-- A genesis certificate stops the loop of Narwhal. -/
theorem not_debugRun_isSome : ¬ ∀ [Crypto] (consensus : Consensus) (xs : List Certificate),
    consensus.consensusProtocol = .roundRobin → ParentsFirst consensus.genesis xs →
      (consensus.dagProtocol = .narwhal → (Narwhal.debugRun consensus xs).1.isSome) ∧
      (consensus.dagProtocol = .bullshark → (Bullshark.debugRun consensus xs).1.isSome) := by
  intro h
  let _ := toyCrypto
  have hrun := (h Narwhal.fourNodes (Narwhal.fourNodes.genesis.take 1) rfl
    (.of_list (by decide))).1 rfl
  exact absurd hrun (by decide)

end NovelDag
