import NovelDag.Proofs.WahooMoves

/-!
# The handlers of a Wahoo node follow its moves

From the functions that call no other up to the calls themselves, each handler makes moves that pay
what it took over from its caller. So a run is a sequence of moves from the start, and it owes
nothing between two messages.
-/

namespace NovelDag.Wahoo

open Handler

namespace Node.Frame

theorem refl (n : Node) : n.Frame n where
  dag := rfl
  pending := rfl
  index := rfl
  epbc := rfl
  chain := rfl
  leader := rfl
  elected := rfl
  round := rfl
  counts := rfl
  signaled := rfl
  blockSend := rfl
  votes := rfl
  output := rfl
  delivered _ := rfl
  pb _ _ _ h := .inl h
  trace := ⟨[], by simp, by simp⟩

theorem trans {n₁ n₂ n₃ : Node} (h : n₁.Frame n₂) (h' : n₂.Frame n₃) : n₁.Frame n₃ where
  dag := h'.dag.trans h.dag
  pending := h'.pending.trans h.pending
  index := h'.index.trans h.index
  epbc := h'.epbc.trans h.epbc
  chain := h'.chain.trans h.chain
  leader := h'.leader.trans h.leader
  elected := h'.elected.trans h.elected
  round := h'.round.trans h.round
  counts := h'.counts.trans h.counts
  signaled := h'.signaled.trans h.signaled
  blockSend := h'.blockSend.trans h.blockSend
  votes := h'.votes.trans h.votes
  output := h'.output.trans h.output
  delivered k := (h'.delivered k).trans (h.delivered k)
  pb r a b hb := (h'.pb r a b hb).elim (h.pb r a b) .inr
  trace := by
    obtain ⟨new, hnew, heq⟩ := h.trace
    obtain ⟨new', hnew', heq'⟩ := h'.trace
    refine ⟨new ++ new', fun e he => ?_, by rw [heq', heq, List.append_assoc]⟩
    exact (List.mem_append.1 he).elim (hnew e) (hnew' e)

theorem emit (n : Node) {e : Effect} (he : e.Quiet) : n.Frame (n.emit e) :=
  { refl n with trace := ⟨[(e, n.dag)], fun _ h => List.mem_singleton.1 h ▸ he, rfl⟩ }

end Node.Frame

/-! ## Handlers and debts -/

section Debts

theorem sum_map_singleton {α : Type} (f : α → Debt) (l : List α) :
    (l.map fun a => ({f a} : Debts)).sum = (l.map f : List Debt) := by
  induction l with
  | nil => rfl
  | cons a l ih =>
    rw [List.map_cons, List.sum_cons, ih]
    rfl

variable [Crypto] (c : NodeConfig) (given : Set Header)

def tracing : Tracing Fault Node Scene where
  proj := Scene.node
  rel := Moves c given
  fails x _ n := ∃ y, Moves c given x y ∧ y.node = n
  refl _ := .refl
  trans := Relation.ReflTransGen.trans
  fails_of_rel h hf := hf.imp fun _ hy => ⟨h.trans hy.1, hy.2⟩

/-- Between two functions, with these debts. -/
structure Holds (debts : Debts) (x : Scene) : Prop where
  tidy : Tidy x
  debts : x.debts = debts
  stage : x.stage = .sent

/-- The handler pays what it is passed, and leaves the rest of the debts. -/
def Pays {α : Type} (owed : Debts) (m : NodeM α) : Prop :=
  ∀ rest x, Holds (owed + rest) x → (tracing c given).Traces x m fun _ => Holds rest

/-- A handler that changes nothing the moves are about. -/
abbrev Idle {α : Type} (m : NodeM α) : Prop := Keeps Node.Frame (fun n₀ _ n => n₀.Frame n) m

variable {c : NodeConfig} {given : Set Header} {x y : Scene} {owed : Debts} {α β : Type}
  {m : NodeM α}

@[simp] theorem tracing_proj : (tracing c given).proj x = x.node := rfl

theorem Holds.moves {debts debts' : Debts} (h : Holds debts x) (hm : Moves c given x y)
    (hd : y.debts = debts') (hs : y.stage = x.stage) : Holds debts' y where
  tidy := by
    clear hd hs
    induction hm with
    | refl => exact h.tidy
    | tail _ hstep ih => exact hstep.tidy ih
  debts := hd
  stage := hs.trans h.stage

theorem traces_move {Q : PUnit → Scene → Prop} {f : Node → Node} (h : Move c given x y)
    (hy : y.node = f x.node) (hq : Q ⟨⟩ y) :
    (tracing c given).Traces x (modify f : NodeM PUnit) Q :=
  Tracing.ofModify (T := tracing c given) y hy (.single h) hq

theorem Idle.traces {Q : α → Scene → Prop} (h : Idle m)
    (hq : ∀ a n', x.node.Frame n' → Q a { x with node := n' }) :
    (tracing c given).Traces x m Q :=
  wp_mono (h x.node x.node (.refl _)) (fun a n' hn => ⟨_, rfl, .single (.frame hn), hq a n' hn⟩)
    fun _ _ hn => ⟨_, .single (.frame hn), rfl⟩

theorem Pays.ofIdle (h : Idle m) : Pays c given 0 m := fun rest x hx =>
  h.traces fun _ n' hn => by
    have hm : Moves c given x { x with node := n' } := .single (.frame hn)
    exact hx.moves hm (hx.debts.trans (zero_add rest)) rfl

theorem Pays.pure (a : α) : Pays c given 0 (Pure.pure a : NodeM α) :=
  ofIdle (Keeps.pure a)

theorem Pays.bind {f : α → NodeM β} {owed' : Debts} (hm : Pays c given owed m)
    (hf : ∀ a, Pays c given owed' (f a)) : Pays c given (owed + owed') (m >>= f) :=
  fun rest x hx => Tracing.bind (hm (owed' + rest) x (by rwa [← add_assoc])) fun a y _ hy =>
    hf a rest y hy

/-- What follows a handler that is passed nothing. -/
theorem Pays.seq {f : α → NodeM β} (hm : Pays c given 0 m) (hf : ∀ a, Pays c given owed (f a)) :
    Pays c given owed (m >>= f) := by
  simpa only [zero_add] using hm.bind hf

theorem Pays.andThen {f : α → NodeM β} (hm : Pays c given owed m)
    (hf : ∀ a, Pays c given 0 (f a)) : Pays c given owed (m >>= f) := by
  simpa only [add_zero] using hm.bind hf

theorem Pays.ite {p : Prop} [Decidable p] {m' : NodeM α} (h : p → Pays c given owed m)
    (h' : ¬ p → Pays c given owed m') : Pays c given owed (if p then m else m') := by
  split_ifs with hp
  · exact h hp
  · exact h' hp

theorem Pays.forM {ι : Type} {f : ι → NodeM PUnit} {debt : ι → Debts} {l : List ι}
    (hf : ∀ i ∈ l, Pays c given (debt i) (f i)) : Pays c given (l.map debt).sum (l.forM f) := by
  induction l with
  | nil => exact Pays.pure PUnit.unit
  | cons i l ih =>
    obtain ⟨hi, hl⟩ := List.forall_mem_cons.1 hf
    rw [List.map_cons, List.sum_cons]
    exact hi.bind fun _ => ih hl

/-- A move that pays the debts. -/
theorem Pays.ofModify {f : Node → Node} (h : ∀ rest x, Holds (owed + rest) x → ∃ y,
    Move c given x y ∧ y.node = f x.node ∧ y.debts = rest ∧ y.stage = x.stage) :
    Pays c given owed (modify f : NodeM PUnit) := fun rest x hx => by
  obtain ⟨y, hm, hy, hd, hs⟩ := h rest x hx
  exact traces_move (Q := fun _ => Holds rest) hm hy (hx.moves (.single hm) hd hs)

/-- A move that leaves the debts as they are, or nothing. -/
theorem Pays.get_bind {f : Node → NodeM α} (hf : ∀ rest x, Holds (owed + rest) x →
    (tracing c given).Traces x (f x.node) fun _ => Holds rest) :
    Pays c given owed (get >>= f) := fun rest x hx => Tracing.get_bind (hf rest x hx)

end Debts

/-! ## Functions that call no other -/

section Leaves

variable [Crypto] {c : NodeConfig} {given : Set Header} {x y : Scene}

omit [Crypto] in
theorem idle_emit {e : Effect} (he : e.Quiet) : Idle (NodeConfig.emit e) :=
  .ofModify fun _ n h => h.trans (.emit n he)

omit [Crypto] in
theorem idle_iterate {α : Type} (l : List α) : Idle (c.iterate l) :=
  .ofModifyGet fun _ _ h => { h with }

theorem iterate_traces {α : Type} (l : List α) {debts : Debts} (hx : Holds debts x) :
    (tracing c given).Traces x (c.iterate l) fun l' y => l'.Perm l ∧ Holds debts y := by
  have hframe : x.node.Frame { x.node with iterations := x.node.iterations + 1 } :=
    { Node.Frame.refl x.node with }
  have hm : Moves c given x { x with node := { x.node with iterations := x.node.iterations + 1 } } :=
    .single (.frame hframe)
  exact Tracing.ofModifyGet (T := tracing c given) _ rfl hm
    ⟨c.order.perm _ l, hx.moves hm hx.debts rfl⟩

theorem pays_commitLeader (round : ℕ) : Pays c given 0 (c.commitLeader round) :=
  .ofModify fun rest _ hx => ⟨_, .commit round, rfl, hx.debts.trans (zero_add rest), rfl⟩

theorem pays_tryToElectLeader (round : ℕ) : Pays c given 0 (c.tryToElectLeader round) := by
  refine .get_bind fun rest x hx => ?_
  simp only []
  split_ifs with hround
  · exact Pays.pure () rest x hx
  split
  · exact ⟨x, .refl, rfl⟩
  · exact Pays.pure () rest x hx
  · rename_i value _
    have hm : Move c given x { x with node := { x.node with
        leaderElect := insert round x.node.leaderElect
        leader := x.node.leader.insert (round - 1) (c.coinCommittee.leader value 0) } } :=
      .elect _ fun h => hround (.inl h)
    refine Tracing.bind (traces_move (Q := fun _ => Holds (0 + rest)) hm rfl
      (hx.moves (.single hm) hx.debts rfl)) fun _ y _ hy => pays_commitLeader _ rest y hy

theorem pays_handleElect (elect : WahooElect) : Pays c given 0 (c.handleElect elect) := by
  refine .seq (.ofIdle (.ofModify ?_)) fun _ => pays_tryToElectLeader elect.round
  exact fun _ _ h => { h with }

theorem pays_broadcastElect (round : ℕ) : Pays c given 0 (c.broadcastElect round) :=
  (pays_handleElect _).seq fun _ => .ofIdle (idle_emit (by trivial))

theorem idle_broadcastRecpsFor (round : ℕ) : Idle (c.broadcastRecpsFor round) := by
  refine .ite (fun _ => .get_bind fun _ n h => ?_) fun _ => .pure _
  refine ((idle_iterate _).bind fun blocks => .forM (fun block => ?_) blocks) _ n h
  split
  · exact .pure _
  · refine .bind (.ofModify ?_) fun _ => idle_emit (by trivial)
    exact fun _ _ h => { h with }

theorem shouldSendVote_traces {round : ℕ} {id : Digest} {sender : PublicKey}
    {phase : WahooVotePhase} {debts : Debts} (hx : Holds debts x)
    (hseen : phase = .ts1 ∨ phase = .tf → ∃ b ∈ x.seen, b.round = round ∧ b.author = sender ∧
      b.digest = id) :
    (tracing c given).Traces x
      (modifyGet (Node.shouldSendVote round sender phase id) : NodeM Bool) fun _ y =>
        Holds debts y ∧ (y.node.sentVotes.lookup (round, sender, phase)).getD [] ≠ [] := by
  by_cases hnew : (x.node.sentVotes.lookup (round, sender, phase)).getD [] = []
  · have hm : Moves c given x _ := .single (.vote hnew hseen)
    refine Tracing.ofModifyGet (T := tracing c given) _ ?_ hm ⟨hx.moves hm hx.debts rfl, ?_⟩
    · rw [tracing_proj, Node.shouldSendVote]
      split_ifs with h
      · rfl
      · exact absurd hnew h
    · rw [AList.lookup_insert]
      simp
  · refine Tracing.ofModifyGet (T := tracing c given) x ?_ .refl ⟨hx, hnew⟩
    rw [tracing_proj, Node.shouldSendVote]
    split_ifs
    rfl

end Leaves

/-! ## PB -/

section Pb

variable [Crypto] (c : NodeConfig) (given : Set Header)

/-- What an action passes on. -/
def actionDebts : PbAction → Debts
  | .outputBlock block => {.hold block.round block.author}
  | _ => 0

/-- PB went on from a scene in moves, with debts for the blocks it hands on. -/
def PbPays (x : Scene) (r : Pb × List PbAction) : Prop :=
  (∃ y, Moves c given x y ∧ y.node = { x.node with pb := r.1 } ∧
    y.debts = (r.2.map actionDebts).sum + x.debts ∧ y.stage = x.stage) ∧
  ∀ target vote, .sendVote target vote ∈ r.2 → vote.wahooPhase = some .pbc

variable {c : NodeConfig} {given : Set Header} {x y : Scene}

theorem pbPays_frame {pb : Pb} {actions : List PbAction} (h : x.node.Frame { x.node with pb })
    (hd : (actions.map actionDebts).sum = 0)
    (hv : ∀ target vote, .sendVote target vote ∈ actions → vote.wahooPhase = some .pbc) :
    PbPays c given x (pb, actions) :=
  ⟨⟨_, .single (.frame h), rfl, by rw [hd, zero_add], rfl⟩, hv⟩

/-- PB may hand on a block after it changed otherwise. -/
theorem pbPays_output {pb : Pb} (actions : List PbAction) (hx : Tidy x)
    (h : x.node.Frame { x.node with pb }) (hd : (actions.map actionDebts).sum = 0)
    (hv : ∀ target vote, .sendVote target vote ∈ actions → vote.wahooPhase = some .pbc)
    (round : ℕ) (sender : PublicKey) :
    PbPays c given x ((pb.outputActions round sender).1,
      actions ++ (pb.outputActions round sender).2) := by
  unfold Pb.outputActions
  rcases pb.tryToOutput_cases round sender with he | ⟨b, hl, hnew, he⟩ <;> rw [he]
  · exact pbPays_frame h (by simpa using hd) (by simpa using hv)
  · have hm : Move c given x { x with node := { x.node with pb } } := .frame h
    obtain ⟨rfl, rfl, -⟩ := (hm.tidy hx).pb round sender b hl
    refine ⟨⟨_, (Relation.ReflTransGen.single hm).tail (.output hl hnew), rfl, ?_, rfl⟩, ?_⟩
    · rw [List.map_append, List.sum_append, hd, zero_add]
      rfl
    · simpa using hv

variable {name : PublicKey} {b : Header}

omit [Crypto] in
theorem frame_storeBlockMsg (n : Node) (heven : b.round % 2 = 0) :
    n.Frame { n with pb := n.pb.storeBlockMsg b } := by
  refine { Node.Frame.refl n with pb := fun r a b' hb => ?_ }
  rcases lookup_storeBlockMsg_cases hb with hb | ⟨rfl, rfl, rfl⟩
  · exact .inl hb
  · exact .inr ⟨rfl, rfl, heven⟩

theorem pbPays_handleBlock (hx : Tidy x) (name : PublicKey) (heven : b.round % 2 = 0) :
    PbPays c given x (x.node.pb.handleBlock name b) := by
  have hstore := frame_storeBlockMsg x.node heven
  unfold Pb.handleBlock
  simp only []
  split_ifs
  · exact pbPays_frame { Node.Frame.refl x.node with } rfl (by simp)
  · exact pbPays_output [_] hx hstore rfl (by simp) b.round b.author
  · exact pbPays_frame hstore rfl (by simp)

theorem pbPays_handleCertificate {cert : Certificate} (hx : Tidy x)
    (heven : cert.header.round % 2 = 0) :
    PbPays c given x (x.node.pb.handleCertificate cert) := by
  refine pbPays_output [] hx ?_ rfl (by simp) cert.round cert.origin
  refine { Node.Frame.refl x.node with pb := fun r a b' hb => ?_ }
  change (x.node.pb.pendingBlocks.insert (cert.round, cert.origin) cert.header).lookup (r, a) =
    some b' at hb
  rw [FinMap.lookup_insert_ite] at hb
  split_ifs at hb with hk
  · obtain ⟨rfl, rfl⟩ := Prod.mk.inj hk
    obtain rfl := Option.some.inj hb
    exact .inr ⟨rfl, rfl, heven⟩
  · exact .inl hb

theorem pbPays_handleVote (hx : Tidy x) (committee : Committee) (vote : Vote) :
    PbPays c given x (x.node.pb.handleVote committee vote) := by
  have hframe : ∀ pb : Pb, pb.pendingBlocks = x.node.pb.pendingBlocks →
      pb.blockOutput = x.node.pb.blockOutput → x.node.Frame { x.node with pb } :=
    fun pb h h' => { Node.Frame.refl x.node with
      output := h', pb := fun r a b hb => .inl (h ▸ hb) }
  unfold Pb.handleVote
  simp only []
  rcases x.node.pb.pendingBlocks.lookup (vote.round, vote.origin) with _ | header
  · exact pbPays_frame { Node.Frame.refl x.node with } rfl (by simp)
  obtain ⟨h₁, h₂⟩ := appendVote_blocks committee x.node.pb vote header
  simp only []
  rcases happ : x.node.pb.appendVote committee vote header with ⟨pb, quorum⟩
  rw [happ] at h₁ h₂
  rcases quorum with _ | ⟨_ | _ | _ | _, cert⟩
  · exact pbPays_frame (hframe pb h₁ h₂) rfl (by simp)
  · exact pbPays_frame (hframe pb h₁ h₂) rfl (by simp)
  · exact pbPays_frame (hframe pb h₁ h₂) rfl (by simp)
  · exact pbPays_frame (hframe pb h₁ h₂) rfl (by simp)
  simp only []
  split_ifs
  · exact pbPays_output [] hx (hframe pb h₁ h₂) rfl (by simp) _ _
  · let pb' := Pb.storeCertificate { pb with block2Send := insert vote.round pb.block2Send } cert
    exact pbPays_output [.broadcastCertificate cert] hx (hframe pb' h₁ h₂) rfl (by simp) _ _

end Pb

/-! ## Functions that call others -/

section Calls

variable [Crypto] {c : NodeConfig} {given : Set Header} {x y : Scene}

/-- What a call takes over from its caller. -/
def callDebts : Call → Debts
  | .nextRound round => {.check round}
  | .updateDag block => {.hold block.round block.author}
  | .updateDagFromPending round => {.drain round}
  | .retryPendingEpbc round => {.retry round}
  | _ => 0

/-- What a call relies on. -/
def CallReady (x : Scene) : Call → Prop
  | .broadcastBlock round => x.stage = .entered ∧ x.node.round = round
  | _ => x.stage = .sent

def CallPays (c : NodeConfig) (given : Set Header) (k : Call) (m : NodeM Unit) : Prop :=
  ∀ rest x, Tidy x → x.debts = callDebts k + rest → CallReady x k →
    (tracing c given).Traces x m fun _ => Holds rest

theorem CallPays.pays {k : Call} {m : NodeM Unit} (h : CallPays c given k m)
    (hk : ∀ x, x.stage = .sent → CallReady x k) : Pays c given (callDebts k) m :=
  fun rest x hx => h rest x hx.tidy hx.debts (hk x hx.stage)

variable {call : Call → NodeM Unit} (hcall : ∀ k, CallPays c given k (call k))

include hcall

/-- The check for the round is paid, if it was owed. -/
theorem pays_tryToNextRound {owed : Debts} {round : ℕ} (howed : owed = 0 ∨ owed = {.check round}) :
    Pays c given owed (c.tryToNextRound call round) := by
  refine .get_bind fun rest x hx => ?_
  split_ifs with hround
  · let y : Scene := { x with
      node := { x.node with
        nextRoundSignaled := insert round x.node.nextRoundSignaled, round := round + 1 }
      debts := {.check (round + 1)} + rest
      stage := .entered }
    have henter : Move c given x { y with debts := .check (round + 1) ::ₘ x.debts } :=
      .enter hx.stage hround
    have hy : Moves c given x y := by
      rcases howed with rfl | rfl
      · rw [hx.debts, zero_add] at henter
        exact .single henter
      · have hlate : ¬ round = round + 1 := by omega
        refine (Relation.ReflTransGen.single henter).tail (.checked ?_ fun h => hlate h.1)
        rw [hx.debts]
        exact Multiset.cons_swap _ _ rest
    refine Tracing.bind (P := fun _ z => z = y) ⟨y, rfl, hy, rfl⟩ fun _ z _ hz => ?_
    subst hz
    refine Tracing.bind (hcall (.broadcastBlock (round + 1)) _ y (hy.tidy_of hx.tidy)
      (zero_add _).symm ⟨rfl, rfl⟩) fun _ z _ hz => ?_
    exact (hcall (.nextRound (round + 1))).pays (fun _ h => h) rest z hz
  · rcases howed with rfl | rfl
    · exact Pays.pure () rest x hx
    · have hm : Moves c given x { x with debts := rest } := .single (.checked hx.debts hround)
      exact ⟨{ x with debts := rest }, rfl, hm, hx.moves hm rfl rfl⟩

theorem pays_handleDone (done : WahooDone) : Pays c given 0 (c.handleDone call done) := by
  refine .ite (fun _ rest x hx => ?_) fun _ => .pure _
  rw [zero_add] at hx
  have hrest : ∀ owed : Debts, owed = 0 ∨ owed = {.check done.round} → ∀ y, Holds (owed + rest) y →
      (tracing c given).Traces y (do
        c.tryToNextRound call done.round
        c.commitLeader done.round) fun _ => Holds rest := fun owed howed =>
    ((pays_tryToNextRound hcall howed).andThen fun _ => pays_commitLeader _) rest
  rcases hnew : ((x.node.done.lookup done.round).getD ∅).lookup done.blockSender with _ | old
  · have hm : Move c given x _ := .storeDone hnew
    exact Tracing.bind (traces_move (Q := fun _ => Holds ({.check done.round} + rest)) hm rfl
      (hx.moves (.single hm) (congrArg _ hx.debts) rfl)) fun _ y _ hy => hrest _ (.inr rfl) y hy
  · have hsame : x.node.storeDone done = x.node := by
      unfold Node.storeDone
      simp only [hnew, Option.isSome_some, if_true]
    exact Tracing.bind (P := fun _ => Holds (0 + rest)) ⟨x, hsame.symm, .refl, by rwa [zero_add]⟩
      fun _ y _ hy => hrest 0 (.inl rfl) y hy

/-- The vote of the node for a phase has been sent, now or before. -/
theorem sendEpbcVote_traces {round : ℕ} {id : Digest} {sender : PublicKey}
    {phase : WahooVotePhase} {debts : Debts} (hx : Holds debts x)
    (hseen : phase = .ts1 ∨ phase = .tf → ∃ b ∈ x.seen, b.round = round ∧ b.author = sender ∧
      b.digest = id) :
    (tracing c given).Traces x (c.sendEpbcVote call round id sender phase) fun _ y =>
      Holds debts y ∧ (y.node.sentVotes.lookup (round, sender, phase)).getD [] ≠ [] := by
  refine Tracing.bind (shouldSendVote_traces hx hseen) fun send y _ ⟨hy, hvotes⟩ => ?_
  have hstay : ∀ {m : NodeM Unit}, Pays c given 0 m → (tracing c given).Traces y m fun _ z =>
      Holds debts z ∧ (z.node.sentVotes.lookup (round, sender, phase)).getD [] ≠ [] := fun hm =>
    Tracing.mono (hm debts y (by rwa [zero_add])) fun _ z hz hd => ⟨hd, by
      rwa [Moves.votes_stay hz hvotes]⟩
  refine hstay (.ite (fun _ => .ite (fun _ => .seq (.ofIdle (idle_emit (by trivial))) fun _ => ?_)
    fun _ => .ofIdle (idle_emit (by trivial))) fun _ => .pure _)
  exact (hcall (.epbcVote _)).pays fun _ h => h

theorem pays_sendEpbcShares (block : Header) :
    Pays c given {.shares block} (c.sendEpbcShares call block) := by
  intro rest x hx
  have hb : block ∈ x.seen := hx.tidy.sharesSeen block (hx.debts ▸ Multiset.mem_cons_self _ rest)
  have hseen : ∀ y, Moves c given x y → ∃ b ∈ y.seen, b.round = block.round ∧
      b.author = block.author ∧ b.digest = block.digest :=
    fun y hy => ⟨block, hy.seen_subset hb, rfl, rfl, rfl⟩
  refine Tracing.bind (sendEpbcVote_traces hcall hx fun _ => hseen x .refl)
    fun _ y hy ⟨hd, hts1⟩ => ?_
  refine wp_mono (sendEpbcVote_traces hcall hd fun _ => hseen y hy)
    (fun _ n ⟨z, hz, hr, hd', htf⟩ => ?_) fun _ _ h => h
  have hvotes : z.node.votesFor block .ts1 ≠ [] := by
    unfold Node.votesFor
    rwa [Moves.votes_stay hr hts1]
  have hm : Moves c given z { z with debts := rest } := .single (.voted hd'.debts ⟨hvotes, htf⟩)
  exact ⟨{ z with debts := rest }, hz, hr.trans hm, hd'.moves hm rfl rfl⟩

theorem pays_deliverEpbc {cert : Certificate} (hodd : cert.header.round % 2 = 1)
    (phase : WahooVotePhase) : Pays c given 0 (c.deliverEpbc call cert phase) := by
  intro rest x hx
  rw [zero_add] at hx
  let n' : Node := { x.node with
    epbcDelivered := x.node.epbcDelivered.insert (cert.round, cert.origin) phase }
  have hrest : Pays c given {.hold cert.header.round cert.header.author} (do
      call (.updateDag cert.header)
      let done : WahooDone :=
        { doneSender := c.name, blockSender := cert.origin
          done := cert.votes.map fun v => (v.author, v.signature.toBytes)
          hash := cert.header.id, round := cert.round }
      c.handleDone call done
      if cert.origin = c.name then NodeConfig.emit (.broadcastDone done) else pure ()) :=
    ((hcall (.updateDag cert.header)).pays fun _ h => h).andThen fun _ =>
      (pays_handleDone hcall _).seq fun _ =>
        .ite (fun _ => .ofIdle (idle_emit (by trivial))) fun _ => .pure _
  rcases hnew : x.node.epbcDelivered.lookup (cert.round, cert.origin) with _ | old
  · let y : Scene := { x with
      node := n', debts := {.hold cert.header.round cert.header.author} + x.debts }
    have hm : Moves c given x y := .single (.deliver phase hodd hnew)
    refine Tracing.bind (P := fun already z => already = false ∧ z = y)
      (Tracing.ofModifyGet (T := tracing c given) y rfl hm ⟨?_, rfl⟩) fun already z _ hz => ?_
    · exact congrArg Option.isSome hnew
    obtain ⟨rfl, rfl⟩ := hz
    exact hrest rest y (hx.moves hm (by rw [← hx.debts]) rfl)
  · have hframe : x.node.Frame n' := { Node.Frame.refl x.node with
      delivered := fun k => by
        change ((x.node.epbcDelivered.insert _ _).lookup k).isSome = _
        rw [FinMap.lookup_insert_ite]
        split_ifs with hk
        · rw [hk, hnew]
          rfl
        · rfl }
    have hm : Moves c given x { x with node := n' } := .single (.frame hframe)
    refine Tracing.bind (P := fun already z => already = true ∧ Holds rest z)
      (Tracing.ofModifyGet (T := tracing c given) _ rfl hm ⟨?_, hx.moves hm hx.debts rfl⟩)
      fun already z _ hz => ?_
    · exact congrArg Option.isSome hnew
    obtain ⟨rfl, hz⟩ := hz
    exact Pays.pure () rest z (by rwa [zero_add])

theorem handleEpbcCertificate_traces {cert : Certificate} {debts : Debts} (hx : Holds debts x)
    (hodd : cert.header.round % 2 = 1) (hin : cert.header ∈ given ∨ cert.header ∈ x.seen) :
    (tracing c given).Traces x (c.handleEpbcCertificate call cert) fun _ => Holds debts := by
  have hx' : Holds (0 + debts) x := by rwa [zero_add]
  unfold NodeConfig.handleEpbcCertificate
  split
  · exact Pays.pure () debts x hx'
  have hm : Move c given x _ := .certify hodd hin
  refine Tracing.bind (traces_move (Q := fun _ => Holds (0 + debts)) hm rfl
    (hx'.moves (.single hm) hx'.debts rfl)) fun _ y _ hy => ?_
  split
  · exact Tracing.mono (sendEpbcVote_traces hcall hy (by simp)) fun _ z _ hz => by
      rw [← zero_add debts]
      exact hz.1
  · exact pays_deliverEpbc hcall hodd _ debts y hy
  · exact pays_deliverEpbc hcall hodd _ debts y hy
  · exact Pays.pure () debts y hy

theorem pays_handleEpbcVote (vote : Vote) : Pays c given 0 (c.handleEpbcVote call vote) := by
  intro rest x hx
  obtain ⟨⟨votes, sent, heq⟩, hquorum⟩ := appendEpbcVote_spec c.committee vote x.node
  have hframe : x.node.Frame (x.node.appendEpbcVote c.committee vote).2 := by
    rw [heq]
    exact { Node.Frame.refl x.node with }
  have hm : Moves c given x { x with node := (x.node.appendEpbcVote c.committee vote).2 } :=
    .single (.frame hframe)
  refine Tracing.bind (P := fun quorum y => quorum = (x.node.appendEpbcVote c.committee vote).1 ∧
    y = { x with node := (x.node.appendEpbcVote c.committee vote).2 })
    (Tracing.ofModifyGet (T := tracing c given) _ rfl hm ⟨rfl, rfl⟩) fun quorum y _ hy => ?_
  obtain ⟨hq, rfl⟩ := hy
  have hy := hx.moves hm hx.debts rfl
  split
  · exact Pays.pure () rest _ hy
  · rename_i q
    obtain ⟨header, hget, hheader⟩ := hquorum q hq.symm
    have hodd : q.certificate.header.round % 2 = 1 := by
      rw [hheader, (hx.tidy.epbc _ _ _ hget).1]
      exact hx.tidy.epbcOdd _ _ _ hget
    have hseen : header ∈ x.seen := hx.tidy.epbcSeen _ _ _ hget
    refine Tracing.bind (Pays.ofIdle (idle_emit (by trivial)) rest _ hy) fun _ z hz hd => ?_
    refine handleEpbcCertificate_traces hcall hd hodd (.inr ?_)
    rw [hheader]
    exact Moves.seen_subset hz hseen

/-- A proposal, of another node or of the node itself, is kept and voted on if it can be. -/
theorem handleFastBlock_traces {b : Header} {debts : Debts} (hx : Tidy x) (hd : x.debts = debts)
    (hodd : b.round % 2 = 1) (hin : x.stage = .sent ∧ b ∈ given ∨ x.stage = .offered b) :
    (tracing c given).Traces x (c.handleFastBlock call b) fun _ y =>
      Holds debts y ∧ b ∈ y.proposals := by
  have hm : Move c given x _ := .propose hodd hin
  have htidy := hm.tidy hx
  have hcheck : (x.node.storeEpbcBlock b).checkWhetherCanAddToDag b =
      x.node.checkWhetherCanAddToDag b := by
    unfold Node.storeEpbcBlock
    split_ifs <;> rfl
  refine Tracing.bind (P := fun _ y => y =
    { node := x.node.storeEpbcBlock b
      debts := if x.node.checkWhetherCanAddToDag b then .shares b ::ₘ x.debts else x.debts
      seen := b :: x.seen
      proposals := b :: x.proposals }) ⟨_, rfl, .single hm, rfl⟩ fun _ y _ hy => ?_
  subst hy
  refine Tracing.get_bind ?_
  have hb : ∀ {m : NodeM Unit} {y : Scene}, b ∈ y.proposals →
      ((tracing c given).Traces y m fun _ => Holds debts) →
      (tracing c given).Traces y m fun _ z => Holds debts z ∧ b ∈ z.proposals := fun hb hm =>
    Tracing.mono hm fun _ z hz h => ⟨h, Moves.proposals_subset hz hb⟩
  refine hb List.mem_cons_self ?_
  rw [tracing_proj, hcheck]
  split_ifs at htidy ⊢ with hadd
  · exact pays_sendEpbcShares hcall b debts _ ⟨htidy, by rw [hd]; rfl, rfl⟩
  · exact Pays.pure () debts _ ⟨htidy, by rw [hd, zero_add], rfl⟩

theorem pays_dispatchPbAction (action : PbAction)
    (hv : ∀ target vote, action = .sendVote target vote → vote.wahooPhase = some .pbc) :
    Pays c given (actionDebts action) (c.dispatchPbAction call action) := by
  cases action with
  | sendVote target vote =>
    intro rest x hx
    unfold NodeConfig.dispatchPbAction
    simp only [hv target vote rfl]
    refine Tracing.bind (shouldSendVote_traces hx (by simp)) fun send y _ hy => ?_
    exact Pays.ite (fun _ => .ofIdle (idle_emit (by trivial))) (fun _ => .pure _) rest y hy.1
  | broadcastCertificate cert => exact .ofIdle (idle_emit (by trivial))
  | outputBlock block => exact (hcall (.updateDag block)).pays fun _ h => h

theorem runPb_traces {f : Pb → Pb × List PbAction} {debts : Debts} (hx : Holds debts x)
    (hf : PbPays c given x (f x.node.pb)) :
    (tracing c given).Traces x (c.runPb call f) fun _ => Holds debts := by
  obtain ⟨⟨y, hm, hnode, hd, hs⟩, hv⟩ := hf
  refine Tracing.bind (P := fun actions z => actions = (f x.node.pb).2 ∧ z = y)
    ⟨y, hnode, hm, rfl, rfl⟩ fun actions z _ hz => ?_
  obtain ⟨rfl, rfl⟩ := hz
  have hy : Holds (((f x.node.pb).2.map actionDebts).sum + debts) z :=
    hx.moves hm (by rw [hd, hx.debts]) hs
  exact Pays.forM (fun action ha => pays_dispatchPbAction hcall action fun target vote h =>
    hv target vote (h ▸ ha)) debts z hy

/-- The node is done with the block of its round. -/
theorem handleOwnBlock_traces {b : Header} {debts : Debts} (hx : Tidy x) (hd : x.debts = debts)
    (hs : x.stage = if b.round % 2 = 1 then .offered b else .sent) :
    (tracing c given).Traces x (c.handleOwnBlock call b.round b) fun _ => Holds debts := by
  unfold NodeConfig.handleOwnBlock
  split_ifs with heven
  · have hx : Holds (0 + debts) x := ⟨hx, by rwa [zero_add], by rw [hs, if_neg (by omega)]⟩
    have hframe := frame_storeBlockMsg x.node heven
    refine Tracing.bind (traces_move (Q := fun _ => Holds (0 + debts)) (.frame hframe) rfl
      (hx.moves (show Moves c given x _ from .single (.frame hframe)) hx.debts rfl))
      fun _ y _ hy => ?_
    exact Tracing.bind (runPb_traces hcall hy (pbPays_handleBlock hy.tidy c.name heven))
      fun _ z _ hz => pays_broadcastElect b.round debts z hz
  · have hodd : b.round % 2 = 1 := by omega
    rw [if_pos hodd] at hs
    exact Tracing.mono (handleFastBlock_traces hcall hx hd hodd (.inr hs)) fun _ _ _ h => h.1

theorem broadcastBlock_pays [ThresholdBls] (round : ℕ) :
    CallPays c given (.broadcastBlock round) (c.broadcastBlock call round) := by
  intro rest x hx hd ⟨hstage, hround⟩
  rw [show callDebts (.broadcastBlock round) = 0 from rfl, zero_add] at hd
  subst hround
  have hmark : Moves c given x
      { x with node := (Node.nextBlock c x.node.round x.node).2, stage := .marked } :=
    .single (.mark hstage (Node.nextBlock c x.node.round x.node).2.pendingDigests)
  refine Tracing.bind (P := fun b y => b.round = x.node.round ∧ y.node.round = x.node.round ∧
    y.debts = rest ∧ y.stage = .marked) (Tracing.ofModifyGet (T := tracing c given) _ rfl hmark
      ⟨rfl, rfl, hd, rfl⟩) fun b y hy ⟨hb, hyr, hyd, hys⟩ => ?_
  rw [← hb] at hyr ⊢
  refine Tracing.bind (P := fun _ z => z.node.round = b.round ∧ z.debts = rest ∧ z.stage = .marked)
    ((idle_broadcastRecpsFor _).traces fun _ n' hn => ⟨hn.round.trans hyr, hyd, hys⟩)
    fun _ z hz ⟨hzr, hzd, hzs⟩ => ?_
  have hsend : Move c given z _ := .send hzs hzr.symm
  refine Tracing.bind (P := fun _ w => w.debts = rest ∧
    w.stage = if b.round % 2 = 1 then .offered b else .sent)
    (traces_move hsend rfl ⟨hzd, rfl⟩) fun _ w hw ⟨hwd, hws⟩ => ?_
  have htidy : Tidy w := Moves.tidy_of hw (Moves.tidy_of hz (Moves.tidy_of hy hx))
  exact handleOwnBlock_traces hcall htidy hwd hws

theorem updateDag_pays (block : Header) :
    CallPays c given (.updateDag block) (c.tryToUpdateDag call block) := by
  intro rest x hx hd hstage
  refine Tracing.get_bind ?_
  split_ifs with hadd
  · have hm : Move c given x _ := .insert hd hadd
    have hrest : Pays c given ({.drain (block.round + 1)} + {.retry (block.round + 1)}) (do
        c.advance call block
        call (.updateDagFromPending (block.round + 1))
        call (.retryPendingEpbc (block.round + 1))) := by
      refine .seq (.ite (fun _ => ?_) fun _ => pays_commitLeader _) fun _ =>
        ((hcall (.updateDagFromPending _)).pays fun _ h => h).bind fun _ =>
          (hcall (.retryPendingEpbc _)).pays fun _ h => h
      refine fun rest x hx => ?_
      have hcount : Move c given x _ := .count block.round
      rw [zero_add] at hx
      exact Tracing.bind (traces_move (Q := fun _ => Holds ({.check block.round} + rest)) hcount rfl
        (hx.moves (.single hcount) (congrArg _ hx.debts) rfl)) fun _ y _ hy =>
          pays_tryToNextRound hcall (.inr rfl) rest y hy
    refine Tracing.bind (traces_move (Q := fun _ => Holds _) hm rfl
      ⟨hm.tidy hx, rfl, hstage⟩) fun _ y _ hy => hrest rest y ?_
    rwa [add_assoc]
  · have hm : Move c given x _ := .park hd (Bool.not_eq_true _ ▸ hadd)
    exact traces_move hm rfl ⟨hm.tidy hx, rfl, hstage⟩

theorem updateDagFromPending_pays (round : ℕ) :
    CallPays c given (.updateDagFromPending round) (c.tryToUpdateDagFromPending call round) := by
  intro rest x hx hd hstage
  have hm : Move c given x _ := .drain hd
  let level := (x.node.pendingBlocks.level round).values
  refine Tracing.bind (P := fun drained y => drained = level ∧
    Holds ((level.map fun b => Debt.hold b.round b.author : List Debt) + rest) y)
    (Tracing.ofModifyGet (T := tracing c given) _ rfl (.single hm)
      ⟨rfl, hm.tidy hx, rfl, hstage⟩) fun drained y _ ⟨hl, hy⟩ => ?_
  subst hl
  refine Tracing.bind (iterate_traces level hy) fun drained z _ ⟨hperm, hz⟩ => ?_
  refine Pays.forM (fun b _ => (hcall (.updateDag b)).pays fun _ h => h) rest z ?_
  change Holds ((drained.map fun b => ({.hold b.round b.author} : Debts)).sum + rest) z
  rwa [sum_map_singleton, Multiset.coe_eq_coe.2 (hperm.map _)]

theorem retryPendingEpbc_pays (round : ℕ) :
    CallPays c given (.retryPendingEpbc round) (c.retryPendingEpbc call round) := by
  intro rest x hx hd hstage
  let level := (x.node.epbcBlocks.level round).values
  let addable := level.filter fun b => x.node.checkWhetherCanAddToDag b
  let y : Scene := { x with debts := (addable.map Debt.shares : List Debt) + rest }
  have hm : Moves c given x y := .single (.collect hd)
  have hy : Tidy y := hm.tidy_of hx
  refine Tracing.get_bind (Tracing.from_rel (T := tracing c given) hm ?_)
  refine Tracing.bind (iterate_traces level ⟨hy, rfl, hstage⟩) fun blocks z _ ⟨hperm, hz⟩ => ?_
  refine Pays.forM (fun b _ => pays_sendEpbcShares hcall b) rest z ?_
  rwa [sum_map_singleton, Multiset.coe_eq_coe.2 ((hperm.filter _).map _)]

theorem pays_handleReady (ready : WahooReady) : Pays c given 0 (c.handleReady call ready) := by
  refine .seq (.ofIdle (.ofModify fun _ _ h => ?_)) fun _ => .get_bind fun rest x hx => ?_
  · exact { h with }
  refine Pays.ite (fun _ => ?_) (fun _ => .pure _) rest x hx
  refine .seq (.ofIdle (.ofModify fun _ _ h => ?_)) fun _ =>
    .seq (.ofIdle (idle_iterate _)) fun _ =>
      (pays_handleDone hcall _).seq fun _ => .ofIdle (idle_emit (by trivial))
  exact { h with }

/-- The body of every call pays if the calls it makes do. -/
theorem body_pays [ThresholdBls] (k : Call) : CallPays c given k (c.body call k) := by
  have hpays : ∀ {k : Call} {m : NodeM Unit}, (∀ x, CallReady x k → x.stage = .sent) →
      Pays c given (callDebts k) m → CallPays c given k m :=
    fun hk hm rest x hx hd hr => hm rest x ⟨hx, hd, hk x hr⟩
  cases k with
  | epbcVote vote => exact hpays (fun _ h => h) (pays_handleEpbcVote hcall vote)
  | broadcastBlock round => exact broadcastBlock_pays hcall round
  | nextRound round => exact hpays (fun _ h => h) (pays_tryToNextRound hcall (.inr rfl))
  | updateDag block => exact updateDag_pays hcall block
  | updateDagFromPending round => exact updateDagFromPending_pays hcall round
  | retryPendingEpbc round => exact retryPendingEpbc_pays hcall round

end Calls

/-! ## Runs -/

/-- The headers of odd rounds that an input may bring. -/
def Input.headers : Input → List Header
  | .message (.block b) => [b]
  | .message (.epbcCertificate cert) => [cert.header]
  | _ => []

/-- The headers that the inputs may bring. -/
def givenBy (inputs : List Input) : Set Header := {b | ∃ i ∈ inputs, b ∈ i.headers}

section Runs

variable [Crypto] [ThresholdBls] {c : NodeConfig} {given : Set Header} {x : Scene}

omit [ThresholdBls] in
theorem even_of_verifyWahooCertificate {committee : Committee} {cert : Certificate}
    (h : verifyWahooCertificate committee cert = .ok ())
    (hphase : cert.votes.head?.bind Vote.wahooPhase = some .pbc) : cert.header.round % 2 = 0 := by
  unfold verifyWahooCertificate at h
  obtain ⟨-, h⟩ := Fallible.check_bind_eq_ok.1 h
  obtain ⟨-, h⟩ := Fallible.check_bind_eq_ok.1 h
  obtain ⟨-, h⟩ := Fallible.check_bind_eq_ok.1 h
  obtain ⟨phase, hp, h⟩ := Fallible.bind_eq_ok.1 h
  obtain ⟨hfit, -⟩ := Fallible.check_bind_eq_ok.1 h
  rw [Fallible.ensure_eq_ok] at hfit
  rw [hphase, Option.elim_some, Except.ok.injEq] at hp
  subst hp
  exact of_decide_eq_true hfit

theorem perform_pays (fuel : ℕ) (k : Call) : CallPays c given k (c.perform fuel k) :=
  Handler.tie_spec (S := CallPays c given) (fun _ _ x _ _ _ => ⟨x, .refl, rfl⟩)
    (fun _ hcall k => body_pays hcall k) fuel k

theorem handleMessage_traces (fuel : ℕ) {m : WahooMessage} (hm : m.Received c.committee)
    (hx : Holds 0 x) (hin : ∀ b ∈ (Input.message m).headers, b ∈ given) :
    (tracing c given).Traces x (c.handleMessage (c.perform fuel) m) fun _ y => Holds 0 y ∧
      ∀ b, m = .block b → b.round % 2 = 1 → b ∈ y.proposals := by
  have hcall : ∀ k, CallPays c given k (c.perform fuel k) := perform_pays fuel
  have hother : (∀ b, m ≠ .block b) → ∀ {h : NodeM Unit},
      ((tracing c given).Traces x h fun _ => Holds 0) → (tracing c given).Traces x h fun _ y =>
        Holds 0 y ∧ ∀ b, m = .block b → b.round % 2 = 1 → b ∈ y.proposals := fun hne _ h =>
    Tracing.mono h fun _ _ _ hy => ⟨hy, fun b hb => absurd hb (hne b)⟩
  cases m with
  | block b =>
    unfold NodeConfig.handleMessage
    simp only []
    split_ifs with heven
    · refine Tracing.mono (runPb_traces (f := fun pb => pb.handleBlock c.name b) hcall hx
        (pbPays_handleBlock hx.tidy c.name heven)) fun _ _ _ hy => ⟨hy, fun b' hb hodd => ?_⟩
      cases hb
      omega
    · refine Tracing.mono (handleFastBlock_traces hcall hx.tidy hx.debts (by omega)
        (.inl ⟨hx.stage, hin b List.mem_cons_self⟩)) fun _ _ _ hy => ⟨hy.1, fun b' hb _ => ?_⟩
      cases hb
      exact hy.2
  | vote v =>
    refine hother (by simp) ?_
    unfold NodeConfig.handleMessage
    simp only []
    split_ifs
    · exact runPb_traces (f := fun pb => pb.handleVote c.committee v) hcall hx
        (pbPays_handleVote hx.tidy c.committee v)
    · exact pays_handleEpbcVote hcall v 0 x hx
  | pbcCertificate cert =>
    exact hother (by simp) (runPb_traces (f := fun pb => pb.handleCertificate cert) hcall hx
      (pbPays_handleCertificate hx.tidy (even_of_verifyWahooCertificate hm.1 hm.2)))
  | epbcCertificate cert =>
    exact hother (by simp) (handleEpbcCertificate_traces hcall hx
      (odd_of_verifyWahooCertificate hm.1 hm.2) (.inl (hin _ List.mem_cons_self)))
  | elect e => exact hother (by simp) (pays_handleElect e 0 x hx)
  | ready r => exact hother (by simp) (pays_handleReady hcall r 0 x hx)
  | done d => exact hother (by simp) (pays_handleDone hcall d 0 x hx)
  | reVote => exact hother (by simp) (Pays.pure () 0 x hx)

/-- The odd-round blocks among the inputs have been taken as proposals. -/
def Proposed (inputs : List Input) (x : Scene) : Prop :=
  ∀ b, Input.message (.block b) ∈ inputs → b.round % 2 = 1 → b ∈ x.proposals

theorem handleInput_traces (fuel : ℕ) {i : Input} (hi : i.Received c.committee)
    (hx : Holds 0 x) (hin : ∀ b ∈ i.headers, b ∈ given) :
    (tracing c given).Traces x (c.handleInput fuel i) fun _ y => Holds 0 y ∧
      ∀ b, i = .message (.block b) → b.round % 2 = 1 → b ∈ y.proposals := by
  have hidle : (∀ b, i ≠ .message (.block b)) → ∀ {h : NodeM Unit}, Idle h →
      (tracing c given).Traces x h fun _ y => Holds 0 y ∧
        ∀ b, i = .message (.block b) → b.round % 2 = 1 → b ∈ y.proposals := fun hne _ h =>
    Tracing.mono (Pays.ofIdle h 0 x hx) fun _ _ _ hy => ⟨hy, fun b hb => absurd hb (hne b)⟩
  cases i with
  | message m =>
    refine Tracing.mono (handleMessage_traces fuel hi hx hin) fun _ _ _ hy => ⟨hy.1, fun b hb => ?_⟩
    exact hy.2 b (Input.message.inj hb)
  | worker digest wid =>
    refine hidle (by simp) (.ofModify fun _ _ h => ?_)
    exact { h with }
  | recp r =>
    refine hidle (by simp) (.ofModify fun _ _ h => ?_)
    exact { h with }

/-- A run makes moves from the start. When it has handled its inputs it owes nothing. -/
theorem run_traces (fuel : ℕ) {inputs : List Input}
    (hreceived : ∀ i ∈ inputs, i.Received c.committee) :
    (tracing c (givenBy inputs)).Traces start (c.run fuel inputs) fun _ x =>
      Holds 0 x ∧ Proposed inputs x := by
  have hfirst : (tracing c (givenBy inputs)).Traces start (c.perform fuel (.broadcastBlock 1))
      fun _ => Holds 0 := perform_pays fuel (.broadcastBlock 1) 0 start tidy_start rfl ⟨rfl, rfl⟩
  refine Tracing.bind hfirst fun _ x _ hx => ?_
  -- what is still to be handled, and the proposals taken so far
  refine Tracing.mono (Tracing.forM (P := fun l y => ∃ done, inputs = done ++ l ∧ Holds 0 y ∧
    Proposed done y) (fun i l y ⟨done, hl, hy, hp⟩ => ?_) ⟨[], rfl, hx,
      fun _ hb => absurd hb List.not_mem_nil⟩) ?_
  · have hi : i ∈ inputs := hl ▸ List.mem_append_right _ List.mem_cons_self
    refine Tracing.mono (handleInput_traces fuel (hreceived i hi) hy fun b hb => ⟨i, hi, hb⟩)
      fun _ z hz hd => ⟨done ++ [i], by rw [hl, List.append_assoc]; rfl, hd.1, fun b hb hodd => ?_⟩
    rcases List.mem_append.1 hb with hb | hb
    · exact Moves.proposals_subset hz (hp b hb hodd)
    · exact hd.2 b (List.mem_singleton.1 hb).symm hodd
  · rintro _ y _ ⟨done, hl, hy, hp⟩
    rw [List.append_nil] at hl
    exact ⟨hy, hl ▸ hp⟩

theorem moves_of_run {fuel : ℕ} {inputs : List Input}
    (hreceived : ∀ i ∈ inputs, i.Received c.committee) {n : Node}
    (h : exec (c.run fuel inputs) {} = (.ok (), n)) :
    ∃ x, Moves c (givenBy inputs) start x ∧ x.node = n ∧ Holds 0 x ∧ Proposed inputs x := by
  have hrun := run_traces fuel hreceived
  unfold Tracing.Traces wp at hrun
  rw [show (tracing c (givenBy inputs)).proj start = {} from rfl, h] at hrun
  obtain ⟨x, hx, hm, hd⟩ := hrun
  exact ⟨x, hm, hx, hd⟩

/-- Also where a run fails. -/
theorem exists_moves_of_run (fuel : ℕ) {inputs : List Input}
    (hreceived : ∀ i ∈ inputs, i.Received c.committee) :
    ∃ x, Moves c (givenBy inputs) start x ∧ x.node = (exec (c.run fuel inputs) {}).2 := by
  have hrun := run_traces fuel hreceived
  unfold Tracing.Traces wp at hrun
  rw [show (tracing c (givenBy inputs)).proj start = {} from rfl] at hrun
  rcases hx : exec (c.run fuel inputs) {} with ⟨e | _, n⟩ <;> rw [hx] at hrun
  · exact hrun
  · obtain ⟨x, hx, hm, -⟩ := hrun
    exact ⟨x, hm, hx⟩

end Runs

end NovelDag.Wahoo
