import NovelDag.Proofs.WahooHandlers

/-!
# A Wahoo node advances

Whenever the count of a round grows, a check of that round is owed. So where nothing is owed the
count of the round of the node is short of a quorum. A round is entered from the one before and its
block is sent before anything else is done.
-/

namespace NovelDag.Wahoo

open Handler

/-- The rounds of the blocks a node has sent. -/
def headerRounds (trace : List (Effect × Blocks)) : List ℕ := (sentHeaders trace).map Header.round

/-- Whether the round is entered and its block not sent. -/
def Stage.unsent : Stage → ℕ
  | .entered | .marked => 1
  | _ => 0

/-- Whether the round is entered and not in `block_send`. -/
def Stage.unmarked : Stage → ℕ
  | .entered => 1
  | _ => 0

structure Advances (q : ℕ) (x : Scene) : Prop where
  pos : 0 < x.node.round
  sent : headerRounds x.node.trace = List.range' 1 (x.node.round - x.stage.unsent)
  marked : x.node.blockSend = Finset.Icc 1 (x.node.round - x.stage.unmarked)
  signaled : ∀ r ∈ x.node.nextRoundSignaled, r < x.node.round
  count : (x.node.moveRound.lookup x.node.round).getD 0 < q ∨ .check x.node.round ∈ x.debts

section

variable {q : ℕ} {x y : Scene}

theorem headerRounds_append_of {trace new : List (Effect × Blocks)}
    (h : ∀ e ∈ new, ∀ b, e.1 ≠ .broadcastHeader b) :
    headerRounds (trace ++ new) = headerRounds trace :=
  congrArg (List.map Header.round) (sentHeaders_append_of h)

theorem advances_start (hq : 0 < q) : Advances q start where
  pos := Nat.one_pos
  sent := rfl
  marked := rfl
  signaled r hr := absurd hr (Finset.notMem_empty r)
  count := .inl (by simpa [start] using hq)

/-- Only the debts changed, and no check was paid. -/
theorem Advances.debts (h : Advances q x) {debts : Debts}
    (hd : ∀ r, .check r ∈ x.debts → .check r ∈ debts) : Advances q { x with debts } :=
  { h with count := h.count.imp_right (hd _) }

/-- More is counted, and a check is owed. -/
theorem Advances.counted (h : Advances q x) (round : ℕ) {node : Node} {new : List (Effect × Blocks)}
    (hround : node.round = x.node.round) (hsent : node.blockSend = x.node.blockSend)
    (hsignaled : node.nextRoundSignaled = x.node.nextRoundSignaled)
    (hcount : node.moveRound = x.node.moveRound.alter round fun count => count.getD 0 + 1)
    (htrace : node.trace = x.node.trace ++ new)
    (hnew : ∀ e ∈ new, ∀ b, e.1 ≠ .broadcastHeader b) :
    Advances q { x with node, debts := .check round ::ₘ x.debts } where
  pos := hround ▸ h.pos
  sent := by
    rw [htrace, headerRounds_append_of hnew, hround]
    exact h.sent
  marked := by
    rw [hsent, hround]
    exact h.marked
  signaled := by
    rw [hsignaled, hround]
    exact h.signaled
  count := by
    rw [hcount, hround, FinMap.lookup_alter]
    by_cases hr : x.node.round = round
    · exact .inr (hr ▸ Multiset.mem_cons_self _ _)
    · rw [if_neg hr]
      exact h.count.imp_right Multiset.mem_cons_of_mem

variable [Crypto] {c : NodeConfig} {given : Set Header}

theorem Move.advances (h : Move c given x y) (hx : Advances c.quorumNum x) :
    Advances c.quorumNum y := by
  cases h with
  | @frame n' h =>
    obtain ⟨new, hnew, heq⟩ := h.trace
    have hquiet : ∀ e ∈ new, ∀ b, e.1 ≠ .broadcastHeader b := fun e he b hb => by
      simpa [hb, Effect.Quiet] using hnew e he
    refine ⟨h.round ▸ hx.pos, ?_, ?_, ?_, ?_⟩
    · rw [heq, headerRounds_append_of hquiet, h.round]
      exact hx.sent
    · rw [h.blockSend, h.round]
      exact hx.marked
    · rw [h.signaled, h.round]
      exact hx.signaled
    · rw [h.counts, h.round]
      exact hx.count
  | commit round =>
    obtain ⟨chain, iterations, new, hnew, heq⟩ := Commits.tryToCommitLeader c.order round x.node
    rw [heq]
    refine { hx with sent := ?_ }
    rw [headerRounds_append_of fun e he b hb => ?_]
    · exact hx.sent
    · obtain ⟨b', rfl⟩ := hnew e he
      cases hb
  | elect name h => exact { hx with }
  | output h hnew => exact { hx.debts fun _ => Multiset.mem_cons_of_mem with }
  | deliver phase hodd hnew => exact { hx.debts fun _ => Multiset.mem_cons_of_mem with }
  | @insert b d hd h =>
    have hkeep : ∀ r, .check r ∈ x.debts →
        .check r ∈ Debt.drain (b.round + 1) ::ₘ Debt.retry (b.round + 1) ::ₘ d := fun r hr => by
      rw [hd] at hr
      simpa using hr
    exact { hx.debts hkeep with }
  | @park b d hd h =>
    have hkeep : ∀ r, .check r ∈ x.debts → .check r ∈ d := fun r hr => by
      rw [hd] at hr
      simpa using hr
    exact { hx.debts hkeep with }
  | @drain round d hd =>
    refine { hx.debts fun r hr => Multiset.mem_add.2 (.inr ?_) with }
    rw [hd] at hr
    simpa using hr
  | count round => exact hx.counted round rfl rfl rfl rfl (List.append_nil _).symm (by simp)
  | @storeDone done hnew =>
    rw [Node.storeDone_of_new hnew]
    exact hx.counted done.round rfl rfl rfl rfl rfl fun e he b hb => by
      obtain rfl := List.mem_singleton.1 he
      cases hb
  | @enter round hstage h =>
    obtain ⟨rfl, -, -⟩ := h
    have hsent := hx.sent
    have hmarked := hx.marked
    rw [hstage] at hsent hmarked
    refine ⟨Nat.succ_pos _, hsent, hmarked, fun r hr => ?_, .inr (Multiset.mem_cons_self _ _)⟩
    rcases Finset.mem_insert.1 hr with rfl | hr
    · exact Nat.lt_succ_self _
    · exact (hx.signaled r hr).trans (Nat.lt_succ_self _)
  | @checked round d hd h =>
    refine { hx with count := ?_ }
    rcases hx.count with hcount | hcount
    · exact .inl hcount
    rw [hd] at hcount
    rcases Multiset.mem_cons.1 hcount with heq | hcount
    · obtain rfl := Debt.check.inj heq
      refine .inl (lt_of_not_ge fun hq => h ⟨rfl, hq, fun hs => ?_⟩)
      exact lt_irrefl _ (hx.signaled _ hs)
    · exact .inr hcount
  | mark hstage digests =>
    have hsent := hx.sent
    have hmarked := hx.marked
    rw [hstage] at hsent hmarked
    refine { hx with sent := hsent, marked := ?_ }
    have hpos := hx.pos
    change Insert.insert x.node.round x.node.blockSend = Finset.Icc 1 x.node.round
    rw [hmarked]
    ext r
    simp only [Stage.unmarked, Finset.mem_insert, Finset.mem_Icc]
    omega
  | @send b hstage hround =>
    have hsent := hx.sent
    have hmarked := hx.marked
    rw [hstage] at hsent hmarked
    have hstage' : ∀ s : Stage, s = (if b.round % 2 = 1 then .offered b else .sent) →
        s.unsent = 0 ∧ s.unmarked = 0 := by
      rintro s rfl
      split_ifs <;> exact ⟨rfl, rfl⟩
    obtain ⟨hs, hm⟩ := hstage' _ rfl
    refine { hx with sent := ?_, marked := ?_ }
    · obtain ⟨r, hr⟩ := Nat.exists_eq_add_one.2 hx.pos
      have happ : headerRounds (x.node.trace ++ [(Effect.broadcastHeader b, x.node.dag)]) =
          headerRounds x.node.trace ++ [b.round] := by simp [headerRounds, sentHeaders]
      change headerRounds (x.node.trace ++ [(Effect.broadcastHeader b, x.node.dag)]) = _
      rw [happ, hsent, hs]
      change _ ++ [b.round] = List.range' 1 x.node.round
      rw [hround, hr, List.range'_1_concat, Nat.add_comm 1 r]
      rfl
    · rw [hm]
      exact hmarked
  | @propose b hodd h =>
    have hstage : x.stage.unsent = 0 ∧ x.stage.unmarked = 0 := by
      rcases h with ⟨h, -⟩ | h <;> rw [h] <;> exact ⟨rfl, rfl⟩
    have hsent := hx.sent
    have hmarked := hx.marked
    rw [hstage.1] at hsent
    rw [hstage.2] at hmarked
    have hkeep : ∀ r, .check r ∈ x.debts → .check r ∈
        if x.node.checkWhetherCanAddToDag b then .shares b ::ₘ x.debts else x.debts := fun r hr => by
      split_ifs
      · exact Multiset.mem_cons_of_mem hr
      · exact hr
    have hy := hx.debts hkeep
    simp only [Node.storeEpbcBlock]
    split_ifs at hy ⊢ <;> exact { hy with sent := hsent, marked := hmarked }
  | certify hodd h => exact { hx with }
  | vote hnew h => exact { hx with }
  | @collect round d hd =>
    refine hx.debts fun r hr => Multiset.mem_add.2 (.inr ?_)
    rw [hd] at hr
    simpa using hr
  | @voted b d hd h =>
    refine hx.debts fun r hr => ?_
    rw [hd] at hr
    simpa using hr

theorem Moves.advances (hq : 0 < c.quorumNum) (h : Moves c given start x) :
    Advances c.quorumNum x := by
  induction h with
  | refl => exact advances_start hq
  | tail _ h ih => exact h.advances ih

end

/-- A node of at least two that has handled its inputs is short of a quorum for its round, and has
sent one block for each round up to it, in order. So it does, up to some round, where it fails. -/
theorem handled_advances [Crypto] [ThresholdBls] (c : NodeConfig) (hnodes : 2 ≤ c.nodeNum)
    (fuel : ℕ) (inputs : List Input) (hreceived : ∀ i ∈ inputs, i.Received c.committee) :
    (∀ n, exec (c.run fuel inputs) {} = (.ok (), n) →
      (n.moveRound.lookup n.round).getD 0 < c.quorumNum ∧
        n.blockSend = Finset.Icc 1 n.round ∧ headerRounds n.trace = List.range' 1 n.round) ∧
      ∃ k, headerRounds (trace c fuel inputs) = List.range' 1 k := by
  have hq : 0 < c.quorumNum := by
    unfold NodeConfig.quorumNum
    omega
  refine ⟨fun n hn => ?_, ?_⟩
  · obtain ⟨x, hm, rfl, hholds, -⟩ := moves_of_run hreceived hn
    have hadv := Moves.advances hq hm
    have hsent := hadv.sent
    have hmarked := hadv.marked
    rw [hholds.stage] at hsent hmarked
    refine ⟨hadv.count.resolve_right ?_, hmarked, hsent⟩
    rw [hholds.debts]
    exact Multiset.notMem_zero _
  · obtain ⟨x, hm, hx⟩ := exists_moves_of_run fuel hreceived
    exact ⟨_, by
      rw [trace, ← hx]
      exact (Moves.advances hq hm).sent⟩

theorem handled_advances_ts2 : letI := toyCrypto; letI := toyBls
    ∃ n, exec (fourNodes.run 9 [ts2Certificate 1, ts2Certificate 2, ts2Certificate 3]) {} =
      (.ok (), n) ∧ (n.moveRound.lookup n.round).getD 0 < fourNodes.quorumNum ∧
        n.blockSend = Finset.Icc 1 n.round ∧ headerRounds n.trace = List.range' 1 n.round := by
  let _ := toyCrypto
  let _ := toyBls
  have hok := exec_eq_of_isOk (m := fourNodes.run 9 [ts2Certificate 1, ts2Certificate 2,
    ts2Certificate 3]) (s := {}) (by decide +kernel)
  exact ⟨_, hok, (handled_advances fourNodes (by decide) 9 _ ts2Certificates_received).1 _ hok⟩

end NovelDag.Wahoo
