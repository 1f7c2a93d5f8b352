import NovelDag.Proofs.WahooHandlers

/-!
# What waits at a Wahoo node

A parked block and a proposal without votes wait for a block of the round before. Whenever a block
enters the DAG, another try of those of the next round is owed. So where nothing is owed none of them
can go on.
-/

namespace NovelDag.Wahoo

open Handler

section Defs

variable [Crypto]

/-- All the headers of the round and the author of a header are this one, to the digest. -/
def Sole (headers : Set Header) (b : Header) : Prop :=
  ∀ ⦃b'⦄, b' ∈ headers → b'.round = b.round → b'.author = b.author →
    b'.digest = b.digest ∧ b'.parents = b.parents

/-- What can go on is owed. -/
structure Waits (x : Scene) : Prop where
  parked : ∀ r a b, x.node.pendingBlocks.get r a = some b →
    x.node.checkWhetherCanAddToDag b = true → .drain r ∈ x.debts
  kept : ∀ b ∈ x.proposals, (x.node.epbcBlocks.get b.round b.author).isSome
  proposal : ∀ b ∈ x.proposals, Sole {b' | b' ∈ x.seen} b →
    x.node.checkWhetherCanAddToDag b = true →
      x.node.votesFor b .ts1 ≠ [] ∧ x.node.votesFor b .tf ≠ [] ∨ .retry b.round ∈ x.debts ∨
        ∃ b', .shares b' ∈ x.debts ∧ b'.round = b.round ∧ b'.author = b.author
  voted : ∀ r a phase, phase = .ts1 ∨ phase = .tf →
    ∀ id ∈ (x.node.sentVotes.lookup (r, a, phase)).getD [],
      ∃ b ∈ x.seen, b.round = r ∧ b.author = a ∧ b.digest = id

end Defs

/-- A debt for something that waits. -/
def Debt.Waiting : Debt → Prop
  | .drain _ | .retry _ | .shares _ => True
  | _ => False

section Check

variable {n n' : Node} {b b' : Header}

theorem check_congr_node (hdag : n'.dag = n.dag) (hindex : n'.blocksByDigest = n.blocksByDigest)
    (b : Header) : n'.checkWhetherCanAddToDag b = n.checkWhetherCanAddToDag b := by
  unfold Node.checkWhetherCanAddToDag
  rw [hdag, hindex]

theorem check_congr (n : Node) (hround : b'.round = b.round) (hparents : b'.parents = b.parents) :
    n.checkWhetherCanAddToDag b' = n.checkWhetherCanAddToDag b := by
  unfold Node.checkWhetherCanAddToDag
  rw [hround, hparents]

/-- A block lets only blocks of the next round into the DAG. -/
theorem check_of_insertBlock [Crypto]
    (h : (n.insertBlock b').checkWhetherCanAddToDag b = true) (hround : b.round ≠ b'.round + 1) :
    n.checkWhetherCanAddToDag b = true := by
  unfold Node.checkWhetherCanAddToDag at h ⊢
  by_cases hzero : b.round = 0
  · rw [if_pos hzero]
  have hlevel : b.round - 1 ≠ b'.round := by omega
  rw [if_neg hzero] at h ⊢
  by_cases hparents : b.parents = ∅
  · rw [if_pos hparents] at h ⊢
    change ((n.dag.insert b'.round _).lookup (b.round - 1)).isNone = true at h
    rwa [AList.lookup_insert_ne hlevel] at h
  · rw [if_neg hparents, List.all_eq_true] at h ⊢
    intro digest hd
    have hd := h digest hd
    change ((n.blocksByDigest.insert b'.digest b').lookup digest).any _ = true at hd
    rw [FinMap.lookup_insert_ite] at hd
    split_ifs at hd with heq
    · exact absurd (of_decide_eq_true hd).symm hlevel
    · exact hd

theorem storeEpbcBlock_spec (n : Node) (b : Header) :
    ∃ epbcBlocks, n.storeEpbcBlock b = { n with epbcBlocks } ∧
      (∀ {r a}, (n.epbcBlocks.get r a).isSome → (epbcBlocks.get r a).isSome) ∧
        (epbcBlocks.get b.round b.author).isSome := by
  unfold Node.storeEpbcBlock
  split_ifs with h
  · exact ⟨_, rfl, id, h⟩
  · refine ⟨_, rfl, Blocks.isSome_get_put b, ?_⟩
    rw [Blocks.get_put, if_pos ⟨rfl, rfl⟩]
    rfl

end Check

section Moves

variable [Crypto] {c : NodeConfig} {given : Set Header} {x y : Scene}

theorem waits_start : Waits start where
  parked r a b h := by simp [start, Blocks.get, Blocks.level] at h
  kept b hb := absurd hb List.not_mem_nil
  proposal b hb := absurd hb List.not_mem_nil
  voted r a phase _ id hid := by simp [start] at hid

/-- Nothing that waits changed, and no debt for it was paid. -/
theorem Waits.keep (h : Waits x) {node : Node} {debts : Debts} {stage : Stage}
    (hdag : node.dag = x.node.dag) (hindex : node.blocksByDigest = x.node.blocksByDigest)
    (hpending : node.pendingBlocks = x.node.pendingBlocks)
    (hepbc : node.epbcBlocks = x.node.epbcBlocks) (hvotes : node.sentVotes = x.node.sentVotes)
    (hdebts : ∀ d ∈ x.debts, d.Waiting → d ∈ debts) :
    Waits { x with node, debts, stage } where
  parked r a b hb hadd := by
    rw [hpending] at hb
    rw [check_congr_node hdag hindex] at hadd
    exact hdebts _ (h.parked r a b hb hadd) trivial
  kept b hb := by
    rw [hepbc]
    exact h.kept b hb
  proposal b hb hsole hadd := by
    rw [check_congr_node hdag hindex] at hadd
    unfold Node.votesFor
    rw [hvotes]
    refine (h.proposal b hb hsole hadd).imp_right (Or.imp (fun hd => hdebts _ hd trivial) ?_)
    exact Exists.imp fun b' hb' => ⟨hdebts _ hb'.1 trivial, hb'.2⟩
  voted r a phase hphase id hid := by
    rw [hvotes] at hid
    exact h.voted r a phase hphase id hid

/-- One more header met, and kept for its round and author where there was none. -/
theorem Waits.seen (h : Waits x) (b : Header) {epbcBlocks : Blocks}
    (hkept : ∀ {r a}, (x.node.epbcBlocks.get r a).isSome → (epbcBlocks.get r a).isSome) :
    Waits { x with node := { x.node with epbcBlocks }, seen := b :: x.seen } := by
  refine { h with
    kept := fun b' hb' => hkept (h.kept b' hb')
    proposal := fun b' hb' hsole hadd => h.proposal b' hb' (fun b'' hb'' => ?_) hadd
    voted := fun r a phase hphase id hid => ?_ }
  · exact hsole (List.mem_cons_of_mem b hb'')
  · obtain ⟨b', hb', hkey⟩ := h.voted r a phase hphase id hid
    exact ⟨b', List.mem_cons_of_mem b hb', hkey⟩

theorem Move.waits (h : Move c given x y) (ht : Tidy x) (hx : Waits x) : Waits y := by
  have hcons : ∀ d' : Debt, ∀ d ∈ x.debts, d.Waiting → d ∈ d' ::ₘ x.debts :=
    fun _ _ hd _ => Multiset.mem_cons_of_mem hd
  cases h with
  | frame h => exact hx.keep h.dag h.index h.pending h.epbc h.votes fun _ hd _ => hd
  | commit round =>
    obtain ⟨chain, iterations, new, -, heq⟩ := Commits.tryToCommitLeader c.order round x.node
    rw [heq]
    exact hx.keep rfl rfl rfl rfl rfl fun _ hd _ => hd
  | elect name h => exact hx.keep rfl rfl rfl rfl rfl fun _ hd _ => hd
  | output h hnew => exact hx.keep rfl rfl rfl rfl rfl (hcons _)
  | deliver phase hodd hnew => exact hx.keep rfl rfl rfl rfl rfl (hcons _)
  | count round => exact hx.keep rfl rfl rfl rfl rfl (hcons _)
  | storeDone hnew =>
    rw [Node.storeDone_of_new hnew]
    exact hx.keep rfl rfl rfl rfl rfl (hcons _)
  | enter hstage h => exact hx.keep rfl rfl rfl rfl rfl (hcons _)
  | checked hd h =>
    refine hx.keep rfl rfl rfl rfl rfl fun d hmem hw => ?_
    rw [hd] at hmem
    exact (Multiset.mem_cons.1 hmem).resolve_left fun h => by simp [h, Debt.Waiting] at hw
  | mark hstage digests => exact hx.keep rfl rfl rfl rfl rfl fun _ hd _ => hd
  | send hstage hround => exact hx.keep rfl rfl rfl rfl rfl fun _ hd _ => hd
  | @insert b d hd h =>
    have hkeep : ∀ d' ∈ x.debts, d'.Waiting →
        d' ∈ Debt.drain (b.round + 1) ::ₘ Debt.retry (b.round + 1) ::ₘ d := fun d' hd' hw => by
      rw [hd] at hd'
      exact Multiset.mem_cons_of_mem <| Multiset.mem_cons_of_mem <|
        (Multiset.mem_cons.1 hd').resolve_left fun h => by simp [h, Debt.Waiting] at hw
    refine { hx with parked := fun r a b' hb' hadd => ?_, proposal := fun b' hb' hsole hadd => ?_ }
    · by_cases hround : b'.round = b.round + 1
      · rw [← (ht.pending r a b' hb').1, hround]
        exact Multiset.mem_cons_self _ _
      · exact hkeep _ (hx.parked r a b' hb' (check_of_insertBlock hadd hround)) trivial
    · by_cases hround : b'.round = b.round + 1
      · rw [hround]
        exact .inr (.inl (Multiset.mem_cons_of_mem (Multiset.mem_cons_self _ _)))
      · refine (hx.proposal b' hb' hsole (check_of_insertBlock hadd hround)).imp_right
          (Or.imp (fun hd' => hkeep _ hd' trivial) (Exists.imp fun b'' hb'' => ?_))
        exact ⟨hkeep _ hb''.1 trivial, hb''.2⟩
  | @park b d hd h =>
    have hkeep : ∀ d' ∈ x.debts, d'.Waiting → d' ∈ d := fun d' hd' hw => by
      rw [hd] at hd'
      exact (Multiset.mem_cons.1 hd').resolve_left fun h => by simp [h, Debt.Waiting] at hw
    refine { hx with
      parked := fun r a b' hb' hadd => ?_
      proposal := fun b' hb' hsole hadd => ?_ }
    · change (x.node.pendingBlocks.put b).get r a = some b' at hb'
      rw [Blocks.get_put] at hb'
      split_ifs at hb' with hkey
      · obtain rfl := Option.some.inj hb'
        exact absurd (hadd.symm.trans h) Bool.noConfusion
      · exact hkeep _ (hx.parked r a b' hb' hadd) trivial
    · refine (hx.proposal b' hb' hsole hadd).imp_right
        (Or.imp (fun hd' => hkeep _ hd' trivial) (Exists.imp fun b'' hb'' => ?_))
      exact ⟨hkeep _ hb''.1 trivial, hb''.2⟩
  | @drain round d hd =>
    have hkeep : ∀ d' ∈ x.debts, d' ≠ .drain round →
      d' ∈ ((x.node.pendingBlocks.level round).values.map
        fun b => Debt.hold b.round b.author : List Debt) + d := fun d' hd' hne => by
      rw [hd] at hd'
      exact Multiset.mem_add.2 (.inr ((Multiset.mem_cons.1 hd').resolve_left hne))
    refine { hx with
      parked := fun r a b' hb' hadd => ?_
      proposal := fun b' hb' hsole hadd => ?_ }
    · change Blocks.get (x.node.pendingBlocks.erase round) r a = some b' at hb'
      rw [Blocks.get_erase] at hb'
      split_ifs at hb' with hround
      exact hkeep _ (hx.parked r a b' hb' hadd) fun h => hround (Debt.drain.inj h)
    · refine (hx.proposal b' hb' hsole hadd).imp_right
        (Or.imp (fun hd' => hkeep _ hd' (by simp)) (Exists.imp fun b'' hb'' => ?_))
      exact ⟨hkeep _ hb''.1 (by simp), hb''.2⟩
  | @propose b hodd h =>
    obtain ⟨epbcBlocks, heq, hkept, hb⟩ := storeEpbcBlock_spec x.node b
    rw [heq]
    have hseen := hx.seen b hkept
    have hkeep : ∀ d' ∈ x.debts, d' ∈
        if x.node.checkWhetherCanAddToDag b then .shares b ::ₘ x.debts else x.debts :=
      fun d' hd' => by
        split_ifs
        · exact Multiset.mem_cons_of_mem hd'
        · exact hd'
    refine { hseen with
      parked := fun r a b' hb' hadd => hkeep _ (hseen.parked r a b' hb' hadd)
      kept := List.forall_mem_cons.2 ⟨hb, hseen.kept⟩
      proposal := List.forall_mem_cons.2 ⟨fun hsole hadd => ?_, fun b' hb' hsole hadd => ?_⟩ }
    · change x.node.checkWhetherCanAddToDag b = true at hadd
      simp only [if_pos hadd]
      exact .inr (.inr ⟨b, Multiset.mem_cons_self _ _, rfl, rfl⟩)
    · refine (hseen.proposal b' hb' hsole hadd).imp_right
        (Or.imp (hkeep _) (Exists.imp fun b'' hb'' => ?_))
      exact ⟨hkeep _ hb''.1, hb''.2⟩
  | @certify b hodd h => exact hx.seen b (Blocks.isSome_get_put b)
  | @vote round author phase id hnew h =>
    have hstay : ∀ {key}, (x.node.sentVotes.lookup key).getD [] ≠ [] →
        (x.node.sentVotes.insert (round, author, phase) [id]).lookup key =
          x.node.sentVotes.lookup key := fun hkey => by
      rw [FinMap.lookup_insert_ite, if_neg]
      rintro rfl
      exact hkey hnew
    refine { hx with
      proposal := fun b' hb' hsole hadd => ?_
      voted := fun r a phase' hphase id' hid => ?_ }
    · refine (hx.proposal b' hb' hsole hadd).imp_left fun hvotes => ?_
      unfold Node.votesFor at hvotes ⊢
      rw [hstay hvotes.1, hstay hvotes.2]
      exact hvotes
    · change id' ∈ ((x.node.sentVotes.insert _ _).lookup (r, a, phase')).getD [] at hid
      rw [FinMap.lookup_insert_ite] at hid
      split_ifs at hid with hkey
      · obtain ⟨rfl, rfl, rfl⟩ : r = round ∧ a = author ∧ phase' = phase := by simpa using hkey
        rw [Option.getD_some, List.mem_singleton] at hid
        exact hid ▸ h hphase
      · exact hx.voted r a phase' hphase id' hid
  | @collect round d hd =>
    have hkeep : ∀ d' ∈ x.debts, d' ≠ .retry round → d' ∈
        (((x.node.epbcBlocks.level round).values.filter fun b =>
          x.node.checkWhetherCanAddToDag b).map Debt.shares : List Debt) + d := fun d' hd' hne => by
      rw [hd] at hd'
      exact Multiset.mem_add.2 (.inr ((Multiset.mem_cons.1 hd').resolve_left hne))
    refine { hx with
      parked := fun r a b' hb' hadd => hkeep _ (hx.parked r a b' hb' hadd) (by simp)
      proposal := fun b' hb' hsole hadd => ?_ }
    rcases hx.proposal b' hb' hsole hadd with hvotes | hretry | ⟨b'', hshares, hkey⟩
    · exact .inl hvotes
    · by_cases hround : b'.round = round
      · -- the header kept for the proposal is tried now
        obtain ⟨b'', hget⟩ := Option.isSome_iff_exists.1 (hx.kept b' hb')
        obtain ⟨hr, ha⟩ := ht.epbc _ _ _ hget
        obtain ⟨-, hparents⟩ := hsole (ht.epbcSeen _ _ _ hget) hr ha
        refine .inr (.inr ⟨b'', Multiset.mem_add.2 (.inl (Multiset.mem_coe.2 ?_)), hr, ha⟩)
        refine List.mem_map_of_mem (List.mem_filter.2 ⟨?_, ?_⟩)
        · rw [← hround]
          exact FinMap.mem_values.2 ⟨_, hget⟩
        · rwa [check_congr _ hr hparents]
      · exact .inr (.inl (hkeep _ hretry fun h => hround (Debt.retry.inj h)))
    · exact .inr (.inr ⟨b'', hkeep _ hshares (by simp), hkey⟩)
  | @voted b d hd h =>
    have hkeep : ∀ d' ∈ x.debts, d' ≠ .shares b → d' ∈ d := fun d' hd' hne => by
      rw [hd] at hd'
      exact (Multiset.mem_cons.1 hd').resolve_left hne
    refine { hx with
      parked := fun r a b' hb' hadd => hkeep _ (hx.parked r a b' hb' hadd) (by simp)
      proposal := fun b' hb' hsole hadd => ?_ }
    rcases hx.proposal b' hb' hsole hadd with hvotes | hretry | ⟨b'', hshares, hr, ha⟩
    · exact .inl hvotes
    · exact .inr (.inl (hkeep _ hretry (by simp)))
    · by_cases heq : b'' = b
      · subst heq
        unfold Node.votesFor at h ⊢
        rw [← hr, ← ha]
        exact .inl h
      · exact .inr (.inr ⟨b'', hkeep _ hshares fun h => heq (Debt.shares.inj h), hr, ha⟩)

theorem Moves.waits (h : Moves c given start x) : Waits x := by
  induction h with
  | refl => exact waits_start
  | tail hm h ih => exact h.waits (Moves.tidy hm) ih

/-- Where the headers met come from, and that the node proposes to itself. -/
structure Known (given : Set Header) (x : Scene) : Prop where
  seen : ∀ b ∈ x.seen, b ∈ given ∨ b ∈ sentHeaders x.node.trace
  own : ∀ b ∈ sentHeaders x.node.trace, b.round % 2 = 1 → b ∈ x.proposals ∨ x.stage = .offered b
  offered : ∀ b, x.stage = .offered b → b ∈ sentHeaders x.node.trace

omit [Crypto] in
theorem Known.keep (h : Known given x) {node : Node} {debts : Debts} {stage : Stage}
    (hsent : sentHeaders node.trace = sentHeaders x.node.trace)
    (hstage : ∀ b, stage = .offered b ↔ x.stage = .offered b) :
    Known given { x with node, debts, stage } where
  seen b hb := by
    rw [hsent]
    exact h.seen b hb
  own b hb hodd := by
    rw [hsent] at hb
    rw [hstage]
    exact h.own b hb hodd
  offered b hb := by
    rw [hsent]
    exact h.offered b ((hstage b).1 hb)

theorem Move.known (h : Move c given x y) (hx : Known given x) : Known given y := by
  cases h with
  | frame h =>
    obtain ⟨new, hnew, heq⟩ := h.trace
    refine hx.keep ?_ fun _ => .rfl
    rw [heq, sentHeaders_append_of fun e he b hb => by simpa [hb, Effect.Quiet] using hnew e he]
  | commit round =>
    obtain ⟨chain, iterations, new, hnew, heq⟩ := Commits.tryToCommitLeader c.order round x.node
    rw [heq]
    refine hx.keep (sentHeaders_append_of fun e he b hb => ?_) fun _ => .rfl
    obtain ⟨b', rfl⟩ := hnew e he
    cases hb
  | storeDone hnew =>
    rw [Node.storeDone_of_new hnew]
    refine hx.keep (sentHeaders_append_of fun e he b hb => ?_) fun _ => .rfl
    obtain rfl := List.mem_singleton.1 he
    cases hb
  | enter hstage h => exact hx.keep rfl fun b => by simp [hstage]
  | mark hstage digests => exact hx.keep rfl fun b => by simp [hstage]
  | @send b hstage hround =>
    have hsent : sentHeaders (x.node.emit (.broadcastHeader b)).trace =
        sentHeaders x.node.trace ++ [b] := by simp [sentHeaders, Node.emit]
    have hmem : ∀ {b'}, b' ∈ sentHeaders x.node.trace →
        b' ∈ sentHeaders (x.node.emit (.broadcastHeader b)).trace := fun hb' => by
      rw [hsent]
      exact List.mem_append_left _ hb'
    refine ⟨fun b' hb' => (hx.seen b' hb').imp_right hmem, fun b' hb' hodd => ?_, fun b' hb' => ?_⟩
    · rw [hsent] at hb'
      rcases List.mem_append.1 hb' with hb' | hb'
      · exact .inl ((hx.own b' hb' hodd).resolve_right (by simp [hstage]))
      · obtain rfl := List.mem_singleton.1 hb'
        exact .inr (if_pos hodd)
    · split_ifs at hb'
      obtain rfl := Stage.offered.inj hb'
      rw [hsent]
      exact List.mem_append_right _ List.mem_cons_self
  | @propose b hodd h =>
    have htrace : (x.node.storeEpbcBlock b).trace = x.node.trace := by
      unfold Node.storeEpbcBlock
      split_ifs <;> rfl
    refine ⟨List.forall_mem_cons.2 ⟨?_, ?_⟩, fun b' hb' hodd => .inl ?_, by simp⟩
    · rw [htrace]
      exact h.imp And.right (hx.offered b)
    · rw [htrace]
      exact hx.seen
    · rw [htrace] at hb'
      rcases hx.own b' hb' hodd with hb' | hstage
      · exact List.mem_cons_of_mem _ hb'
      · rcases h with ⟨h, -⟩ | h
        · rw [h] at hstage
          cases hstage
        · obtain rfl := Stage.offered.inj (h.symm.trans hstage)
          exact List.mem_cons_self
  | @certify b hodd h =>
    exact ⟨List.forall_mem_cons.2 ⟨h.elim .inl (hx.seen b), hx.seen⟩, hx.own, hx.offered⟩
  | _ => exact hx.keep rfl fun _ => .rfl

theorem Moves.known (h : Moves c given start x) : Known given x := by
  induction h with
  | refl => exact ⟨by simp [start], by simp [start, sentHeaders], by simp [start]⟩
  | tail _ h ih => exact h.known ih

end Moves

/-- The headers the inputs bring and the node sends. -/
def headersOf (inputs : List Input) (n : Node) : Set Header :=
  {b | b ∈ givenBy inputs ∨ b ∈ sentHeaders n.trace}

/-- When a node has handled its inputs, no parked block can enter the DAG. A proposal of an odd
round that could, the only one of its author, has the TS1 and TF votes of the node. -/
theorem handled_nothing_waits [Crypto] [ThresholdBls] (c : NodeConfig) (fuel : ℕ)
    (inputs : List Input) (hreceived : ∀ i ∈ inputs, i.Received c.committee) (n : Node)
    (hrun : exec (c.run fuel inputs) {} = (.ok (), n)) :
    (∀ r a b, n.pendingBlocks.get r a = some b → n.checkWhetherCanAddToDag b = false) ∧
      ∀ b, .message (.block b) ∈ inputs ∨ b ∈ sentHeaders n.trace → b.round % 2 = 1 →
        Sole (headersOf inputs n) b → n.checkWhetherCanAddToDag b = true →
          b.digest ∈ n.votesFor b .ts1 ∧ b.digest ∈ n.votesFor b .tf := by
  obtain ⟨x, hm, rfl, hholds, hproposed⟩ := moves_of_run hreceived hrun
  have hwaits := Moves.waits hm
  have hknown := Moves.known hm
  have hdebts : ∀ d, d ∉ x.debts := fun d => by
    rw [hholds.debts]
    exact Multiset.notMem_zero d
  refine ⟨fun r a b hb => ?_, fun b hb hodd hsole hadd => ?_⟩
  · exact Bool.not_eq_true _ ▸ fun hadd => hdebts _ (hwaits.parked r a b hb hadd)
  have hproposal : b ∈ x.proposals := by
    rcases hb with hb | hb
    · exact hproposed b hb hodd
    · exact (hknown.own b hb hodd).resolve_right (by simp [hholds.stage])
  have hseen : Sole {b' | b' ∈ x.seen} b := fun b' hb' => hsole (hknown.seen b' hb')
  have hvotes : x.node.votesFor b .ts1 ≠ [] ∧ x.node.votesFor b .tf ≠ [] := by
    rcases hwaits.proposal b hproposal hseen hadd with hvotes | hretry | ⟨b', hshares, -⟩
    · exact hvotes
    · exact absurd hretry (hdebts _)
    · exact absurd hshares (hdebts _)
  have hmem : ∀ phase, phase = .ts1 ∨ phase = .tf → x.node.votesFor b phase ≠ [] →
      b.digest ∈ x.node.votesFor b phase := fun phase hphase hne => by
    obtain ⟨id, hid⟩ := List.exists_mem_of_ne_nil _ hne
    obtain ⟨b', hb', hr, ha, hdigest⟩ := hwaits.voted _ _ phase hphase id hid
    rwa [← (hseen hb' hr ha).1, hdigest]
  exact ⟨hmem _ (.inl rfl) hvotes.1, hmem _ (.inr rfl) hvotes.2⟩

section Toy

/-- A proposal is the only one of its author if no input brings another and the node is not he. -/
theorem sole_of_singleton [Crypto] {inputs : List Input} {n : Node} {b : Header}
    (hgiven : ∀ i ∈ inputs, ∀ b' ∈ i.headers, b' = b ∨ b'.author ≠ b.author)
    (hown : (sentHeaders n.trace).all fun b' => decide (b'.author ≠ b.author)) :
    Sole (headersOf inputs n) b := by
  rintro b' (⟨i, hi, hb'⟩ | hb') _ hauthor
  · rcases hgiven i hi b' hb' with rfl | hne
    · exact ⟨rfl, rfl⟩
    · exact absurd hauthor hne
  · exact absurd hauthor (of_decide_eq_true (List.all_eq_true.1 hown b' hb'))

section Late

variable [Crypto]

def lateBlock : Header :=
  signedBlock { author := 2, round := 2, parents := .ofList [(firstBlock 1).digest] }

/-- A block of round 2 whose parent does not come. -/
def parkedBlock : Header :=
  signedBlock { author := 3, round := 2, parents := .ofList [(firstBlock 3).digest] }

def lateProposal : Header :=
  signedBlock { author := 2, round := 3, parents := .ofList [lateBlock.digest],
                wahooTag := some .epbcTf }

/-- A proposal, the blocks below it from the top down, and a block without its parent. -/
def lateParents : List Input :=
  [.message (.block lateProposal), pbcCertificate lateBlock, pbcCertificate parkedBlock,
    ts2Certificate 1]

end Late

theorem lateParents_received : letI := toyCrypto; letI := toyBls
    ∀ i ∈ lateParents, i.Received fourNodes.committee := by
  let _ := toyCrypto
  let _ := toyBls
  simp only [lateParents, List.forall_mem_cons, List.not_mem_nil, false_implies, implies_true,
    and_true]
  refine ⟨⟨by decide +kernel, by decide +kernel, by decide +kernel, fun _ _ link h => ?_⟩,
    ⟨?_, ?_⟩, ⟨?_, ?_⟩, ts2Certificates_received _ List.mem_cons_self⟩
  · cases h
  all_goals exact of_decide_eq_true (by decide +kernel)

/-- One block is still parked, and the proposal is voted on since its parent has come. -/
theorem handled_nothing_waits_proposal : letI := toyCrypto; letI := toyBls
    ∃ n, exec (fourNodes.run 9 lateParents) {} = (.ok (), n) ∧
      n.pendingBlocks.get 2 3 = some parkedBlock ∧
      n.checkWhetherCanAddToDag parkedBlock = false ∧
      lateProposal.digest ∈ n.votesFor lateProposal .ts1 ∧
        lateProposal.digest ∈ n.votesFor lateProposal .tf := by
  let _ := toyCrypto
  let _ := toyBls
  have hok := exec_eq_of_isOk (m := fourNodes.run 9 lateParents) (s := {}) (by decide +kernel)
  obtain ⟨hparked, hproposals⟩ := handled_nothing_waits fourNodes 9 _ lateParents_received _ hok
  have hpending : (exec (fourNodes.run 9 lateParents) {}).2.pendingBlocks.get 2 3 =
      some parkedBlock := by decide +kernel
  have hadd : (exec (fourNodes.run 9 lateParents) {}).2.checkWhetherCanAddToDag lateProposal =
      true := by decide +kernel
  have hodd : lateProposal.round % 2 = 1 := by decide +kernel
  refine ⟨_, hok, hpending, hparked _ _ _ hpending, hproposals lateProposal
    (.inl List.mem_cons_self) hodd (sole_of_singleton ?_ (by decide +kernel)) hadd⟩
  simp only [lateParents, Input.headers, ts2Certificate, pbcCertificate, epbcCertificate,
    List.forall_mem_cons, List.not_mem_nil, false_implies, implies_true, and_true, true_or, true_and]
  exact .inr (by decide)

/-- A block of round 3 on a block of round 1. -/
def skippingBlock [Crypto] : Header :=
  let block : Header :=
    { author := 2, round := 3, parents := .ofList [(firstBlock 1).digest], wahooTag := some .epbcTf }
  { block with id := block.digest, signature := Crypto.sign 2 block.digest }

/-- The parents of a proposal may all be indexed and none of them of the round before. -/
theorem not_voted_when_indexed : letI := toyCrypto; letI := toyBls
    ∃ n, exec (fourNodes.run 9 [ts2Certificate 1, .message (.block skippingBlock)]) {} =
        (.ok (), n) ∧
      (∀ i ∈ [ts2Certificate 1, .message (.block skippingBlock)],
        i.Received fourNodes.committee) ∧
      skippingBlock.round % 2 = 1 ∧
      Sole (headersOf [ts2Certificate 1, .message (.block skippingBlock)] n) skippingBlock ∧
      (∀ digest ∈ skippingBlock.parents.toList, (n.blocksByDigest.lookup digest).isSome) ∧
      skippingBlock.digest ∉ n.votesFor skippingBlock .ts1 := by
  let _ := toyCrypto
  let _ := toyBls
  have hok := exec_eq_of_isOk (m := fourNodes.run 9
    [ts2Certificate 1, .message (.block skippingBlock)]) (s := {}) (by decide +kernel)
  refine ⟨_, hok, ?_, rfl, sole_of_singleton ?_ (by decide +kernel), by decide +kernel,
    by decide +kernel⟩
  · simp only [List.forall_mem_cons, List.not_mem_nil, false_implies, implies_true, and_true]
    refine ⟨ts2Certificates_received _ List.mem_cons_self, by decide +kernel, by decide +kernel,
      by decide +kernel, fun _ _ link h => ?_⟩
    cases h
  · simp only [Input.headers, ts2Certificate, epbcCertificate, List.forall_mem_cons,
      List.not_mem_nil, false_implies, implies_true, and_true, true_or]
    exact .inr (by decide)

end Toy

end NovelDag.Wahoo
