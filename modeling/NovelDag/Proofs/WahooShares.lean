import NovelDag.Proofs.WahooRounds

/-!
# The votes of a Wahoo node

A node sends one vote at most for a round, an author and a phase, since it keeps the digest it has
voted for. The TS1 and the TF share on a block are sent one after the other; the vote on its own
block may make the node go on to other rounds in between, but to later rounds only. So when it comes
back to the TF share nothing has been sent in its place, and both shares are on one digest.
-/

namespace NovelDag.Wahoo

open Handler

def Effect.vote : Effect → Option Vote
  | .sendVote _ vote | .ownVote vote => some vote
  | _ => none

/-- The votes that were sent, those of the node to itself with them. -/
def castVotes (trace : List (Effect × Blocks)) : List Vote := trace.filterMap fun e => e.1.vote

/-- What one vote may be sent for. -/
def slot (v : Vote) : ℕ × PublicKey × Option WahooVotePhase := (v.round, v.origin, v.wahooPhase)

/-- The digests voted for in a round, for an author and a phase. -/
def Node.digests (n : Node) (round : ℕ) (origin : PublicKey) (phase : WahooVotePhase) :
    List Digest :=
  (n.sentVotes.lookup (round, origin, phase)).getD []

/-- What holds of the votes at every moment: the one vote of a slot is for the digest kept, and a TF
share follows a TS1 share. -/
structure Disciplined (n : Node) : Prop where
  once : ((castVotes n.trace).map slot).Nodup
  recorded : ∀ v ∈ castVotes n.trace, ∃ phase, v.wahooPhase = some phase ∧
    n.digests v.round v.origin phase = [v.id]
  paired : ∀ r a, n.digests r a .tf = [] ∨ n.digests r a .tf = n.digests r a .ts1

/-- The blocks of PB are where their round says. -/
def Pb.Filed (pb : Pb) : Prop :=
  ∀ r a b, pb.pendingBlocks.lookup (r, a) = some b → b.round = r ∧ b.author = a

/-- Blocks are where their round says. -/
structure Shelved (n : Node) : Prop where
  epbc : n.epbcBlocks.Filed
  pending : n.pendingBlocks.Filed
  pb : n.pb.Filed

/-- Between two functions: no pair of shares is open from the round `f` on, and below it none was
sent since `n₀`. -/
structure Since (f : ℕ) (n₀ n : Node) : Prop where
  disciplined : Disciplined n
  shelved : Shelved n
  both : ∀ r a, f ≤ r → n.digests r a .tf = n.digests r a .ts1
  below : ∀ r a phase, r < f → phase = .ts1 ∨ phase = .tf →
    n.digests r a phase = n₀.digests r a phase

/-- No vote is sent, and blocks stay where they belong. -/
structure Silent (n n' : Node) : Prop where
  votes : n'.sentVotes = n.sentVotes
  cast : castVotes n'.trace = castVotes n.trace
  shelved : Shelved n → Shelved n'

/-- The handler sends whole pairs of shares, in the rounds from `f` on only. -/
abbrev Settles (f : ℕ) {α : Type} (m : NodeM α) : Prop :=
  Keeps (Since f) (fun _ _ n => Disciplined n) m

section Votes

variable {n n₀ n' : Node} {f : ℕ}

theorem Silent.digests (h : Silent n n') (r : ℕ) (a : PublicKey) (phase : WahooVotePhase) :
    n'.digests r a phase = n.digests r a phase := by
  unfold Node.digests
  rw [h.votes]

theorem Silent.of_eq (hvotes : n'.sentVotes = n.sentVotes) (htrace : n'.trace = n.trace)
    (hepbc : n'.epbcBlocks = n.epbcBlocks) (hpending : n'.pendingBlocks = n.pendingBlocks)
    (hpb : n'.pb.pendingBlocks = n.pb.pendingBlocks) : Silent n n' where
  votes := hvotes
  cast := by rw [htrace]
  shelved h := ⟨hepbc ▸ h.epbc, hpending ▸ h.pending, fun r a b hb => h.pb r a b (hpb ▸ hb)⟩

theorem castVotes_append (trace new : List (Effect × Blocks)) :
    castVotes (trace ++ new) = castVotes trace ++ castVotes new := List.filterMap_append

theorem Silent.append {new : List (Effect × Blocks)} (h : ∀ e ∈ new, e.1.vote = none) :
    Silent n { n with trace := n.trace ++ new } where
  votes := rfl
  cast := by
    have hnone : castVotes new = [] := List.filterMap_eq_nil_iff.2 h
    rw [castVotes_append, hnone, List.append_nil]
  shelved h := { h with }

theorem Silent.emit (n : Node) {e : Effect} (he : e.vote = none) : Silent n (n.emit e) :=
  .append fun e' h => by rwa [List.mem_singleton.1 h]

theorem Silent.trans {n₁ n₂ n₃ : Node} (h : Silent n₁ n₂) (h' : Silent n₂ n₃) : Silent n₁ n₃ where
  votes := h'.votes.trans h.votes
  cast := h'.cast.trans h.cast
  shelved hs := h'.shelved (h.shelved hs)

theorem Silent.ofCommits (h : Commits n n') : Silent n n' := by
  obtain ⟨chain, iterations, new, hnew, rfl⟩ := h
  have hsilent : Silent n { n with trace := n.trace ++ new } :=
    .append fun e he => by
      obtain ⟨b, rfl⟩ := hnew e he
      rfl
  exact ⟨hsilent.votes, hsilent.cast, fun hs => ⟨hs.epbc, hs.pending, hs.pb⟩⟩

theorem Since.refl (hn : Disciplined n) (hs : Shelved n)
    (hboth : ∀ r a, f ≤ r → n.digests r a .tf = n.digests r a .ts1) : Since f n n :=
  ⟨hn, hs, hboth, fun _ _ _ _ _ => rfl⟩

/-- From a later round on. -/
theorem Since.later (hn : Since f n₀ n) {f' : ℕ} (hf : f ≤ f') : Since f' n n :=
  .refl hn.disciplined hn.shelved fun r a hr => hn.both r a (hf.trans hr)

theorem Since.silent (hn : Since f n₀ n) (h : Silent n n') : Since f n₀ n' where
  disciplined :=
    { once := by
        rw [h.cast]
        exact hn.disciplined.once
      recorded := fun v hv => by
        rw [h.cast] at hv
        obtain ⟨phase, hphase, hid⟩ := hn.disciplined.recorded v hv
        exact ⟨phase, hphase, (h.digests _ _ _).trans hid⟩
      paired := fun r a => by
        rw [h.digests, h.digests]
        exact hn.disciplined.paired r a }
  shelved := h.shelved hn.shelved
  both r a hr := by
    rw [h.digests, h.digests]
    exact hn.both r a hr
  below r a phase hr hphase := (h.digests r a phase).trans (hn.below r a phase hr hphase)

/-- What settles the rounds from a later one on settles those from an earlier one on. -/
theorem Settles.mono {α : Type} {m : NodeM α} {f' : ℕ} (hf : f ≤ f') (hm : Settles f' m) :
    Settles f m := by
  intro n₀ n hn
  refine wp_mono (hm n n (hn.later hf)) (fun _ n' hn' => ?_) fun _ _ h => h
  have hkept : ∀ r a phase, r < f' → phase = .ts1 ∨ phase = .tf →
      n'.digests r a phase = n.digests r a phase := hn'.below
  refine ⟨hn'.disciplined, hn'.shelved, fun r a hr => ?_, fun r a phase hr hphase => ?_⟩
  · by_cases hr' : r < f'
    · rw [hkept r a _ hr' (.inr rfl), hkept r a _ hr' (.inl rfl)]
      exact hn.both r a hr
    · exact hn'.both r a (by omega)
  · rw [hkept r a phase (by omega) hphase]
    exact hn.below r a phase hr hphase

theorem Settles.ofSilent {g : Node → Node} (h : ∀ n, Silent n (g n)) :
    Settles f (modify g : NodeM Unit) := .ofModify fun _ n hn => hn.silent (h n)

theorem Settles.ofSilentGet {α : Type} {g : Node → α × Node} (h : ∀ n, Silent n (g n).2) :
    Settles f (modifyGet g : NodeM α) := .ofModifyGet fun _ n hn => hn.silent (h n)

/-- Reading the state. -/
theorem Settles.get {α : Type} {g : Node → NodeM α} (h : ∀ n, Settles f (g n)) :
    Settles f (get >>= g) := .get_bind fun n₀ n hn => h n n₀ n hn

theorem Settles.emit {e : Effect} (he : e.vote = none) : Settles f (NodeConfig.emit e) :=
  .ofSilent fun n => .emit n he

theorem Settles.forM {ι : Type} {g : ι → NodeM PUnit} {l : List ι}
    (h : ∀ i ∈ l, Settles f (g i)) : Settles f (l.forM g) := by
  induction l with
  | nil => exact .pure PUnit.unit
  | cons i l ih =>
    obtain ⟨hi, hl⟩ := List.forall_mem_cons.1 h
    exact .bind hi fun _ => ih hl

/-! ### One vote -/

theorem digests_shouldSendVote (n : Node) (round : ℕ) (origin : PublicKey)
    (phase : WahooVotePhase) (id : Digest) (r : ℕ) (a : PublicKey) (ph : WahooVotePhase) :
    (Node.shouldSendVote round origin phase id n).2.digests r a ph =
      if (r, a, ph) = (round, origin, phase) ∧ n.digests round origin phase = [] then [id]
      else n.digests r a ph := by
  unfold Node.shouldSendVote
  change (if n.digests round origin phase = [] then _ else _ : Bool × Node).2.digests r a ph = _
  by_cases hnew : n.digests round origin phase = []
  · simp only [hnew, if_true, and_true]
    unfold Node.digests
    rw [FinMap.lookup_insert_ite]
    split_ifs <;> rfl
  · simp only [hnew, if_false, and_false]

theorem shouldSendVote_fst (n : Node) (round : ℕ) (origin : PublicKey) (phase : WahooVotePhase)
    (id : Digest) : (Node.shouldSendVote round origin phase id n).1 =
      decide (n.digests round origin phase = []) := by
  unfold Node.shouldSendVote Node.digests
  split_ifs with h <;> simp [h]

theorem shouldSendVote_of_ne {round : ℕ} {origin : PublicKey} {phase : WahooVotePhase} {id : Digest}
    (h : n.digests round origin phase ≠ []) :
    Node.shouldSendVote round origin phase id n = (false, n) := if_neg h

/-- A first vote keeps the discipline, if a TF share is on the digest of the TS1 share. -/
theorem Disciplined.vote (hn : Disciplined n) {v : Vote} {phase : WahooVotePhase} {e : Effect}
    (hphase : v.wahooPhase = some phase) (he : e.vote = some v)
    (hnew : n.digests v.round v.origin phase = [])
    (hpair : phase = .tf → n.digests v.round v.origin .ts1 = [v.id]) :
    Disciplined ((Node.shouldSendVote v.round v.origin phase v.id n).2.emit e) := by
  have hdigests := digests_shouldSendVote n v.round v.origin phase v.id
  simp only [hnew, and_true] at hdigests
  have hcast : castVotes ((Node.shouldSendVote v.round v.origin phase v.id n).2.emit e).trace =
      castVotes n.trace ++ [v] := by
    have htrace : (Node.shouldSendVote v.round v.origin phase v.id n).2.trace = n.trace := by
      unfold Node.shouldSendVote
      split_ifs <;> rfl
    unfold Node.emit
    rw [castVotes_append, htrace]
    simp [castVotes, he]
  -- the digest kept for a vote sent before is not the one of this vote
  have hother : ∀ w ∈ castVotes n.trace, slot w ≠ slot v := by
    intro w hw heq
    obtain ⟨phase', hphase', hid⟩ := hn.recorded w hw
    obtain ⟨hround, horigin, hp⟩ : w.round = v.round ∧ w.origin = v.origin ∧
        w.wahooPhase = v.wahooPhase := by simpa [slot] using heq
    rw [hphase, hphase'] at hp
    rw [hround, horigin, Option.some.inj hp, hnew] at hid
    exact List.cons_ne_nil _ _ hid.symm
  refine ⟨?_, fun w hw => ?_, fun r a => ?_⟩
  · rw [hcast, List.map_append, List.nodup_append]
    refine ⟨hn.once, List.nodup_singleton _, ?_⟩
    intro s hs t ht
    obtain ⟨w, hw, rfl⟩ := List.mem_map.1 hs
    obtain rfl := List.mem_singleton.1 ht
    exact hother w hw
  · rw [hcast, List.mem_append, List.mem_singleton] at hw
    rcases hw with hw | rfl
    · obtain ⟨phase', hphase', hid⟩ := hn.recorded w hw
      refine ⟨phase', hphase', (hdigests _ _ _).trans ?_⟩
      rw [if_neg, hid]
      intro heq
      simp only [Prod.mk.injEq] at heq
      exact hother w hw (by simp [slot, heq, hphase, hphase'])
    · exact ⟨phase, hphase, (hdigests _ _ _).trans (if_pos rfl)⟩
  · change (Node.shouldSendVote v.round v.origin phase v.id n).2.digests r a .tf = [] ∨
      (Node.shouldSendVote v.round v.origin phase v.id n).2.digests r a .tf =
        (Node.shouldSendVote v.round v.origin phase v.id n).2.digests r a .ts1
    rw [hdigests, hdigests]
    have hold := hn.paired r a
    by_cases hk : r = v.round ∧ a = v.origin
    · obtain ⟨rfl, rfl⟩ := hk
      cases phase with
      | ts1 =>
        rw [hnew] at hold
        exact .inl (by simpa using hold)
      | tf =>
        right
        simp [hpair rfl]
      | ts2 => simpa using hold
      | pbc => simpa using hold
    · rw [if_neg fun h => hk ⟨(Prod.mk.inj h).1, (Prod.mk.inj (Prod.mk.inj h).2).1⟩,
        if_neg fun h => hk ⟨(Prod.mk.inj h).1, (Prod.mk.inj (Prod.mk.inj h).2).1⟩]
      exact hold

end Votes

/-! ## Functions that call no other -/

section Leaves

variable [Crypto] {c : NodeConfig} {f : ℕ}

omit [Crypto] in
theorem settles_iterate {α : Type} (l : List α) : Settles f (c.iterate l) :=
  Settles.ofSilentGet fun _ => .of_eq rfl rfl rfl rfl rfl

theorem settles_commitLeader (round : ℕ) : Settles f (c.commitLeader round) :=
  Settles.ofSilent fun n => .ofCommits (Commits.tryToCommitLeader c.order round n)

theorem settles_tryToElectLeader (round : ℕ) : Settles f (c.tryToElectLeader round) := by
  refine Settles.get fun n => ?_
  simp only []
  split_ifs
  · exact .pure _
  split
  · exact .ofThrow fun _ _ hn => hn.disciplined
  · exact .pure _
  · exact .bind (Settles.ofSilent fun _ => .of_eq rfl rfl rfl rfl rfl) fun _ => settles_commitLeader _

theorem settles_handleElect (elect : WahooElect) : Settles f (c.handleElect elect) :=
  .bind (Settles.ofSilent fun _ => .of_eq rfl rfl rfl rfl rfl) fun _ => settles_tryToElectLeader _

theorem settles_broadcastElect (round : ℕ) : Settles f (c.broadcastElect round) :=
  (settles_handleElect _).bind fun _ => Settles.emit rfl

theorem settles_broadcastRecpsFor (round : ℕ) : Settles f (c.broadcastRecpsFor round) := by
  refine .ite (fun _ => Settles.get fun n => ?_) fun _ => .pure _
  refine (settles_iterate _).bind fun blocks => .forM (fun block => ?_) blocks
  split
  · exact .pure _
  · exact .bind (Settles.ofSilent fun _ => .of_eq rfl rfl rfl rfl rfl) fun _ => Settles.emit rfl

omit [Crypto] in
theorem settles_storeDone (done : WahooDone) :
    Settles f (modify fun n => n.storeDone done : NodeM Unit) := by
  refine Settles.ofSilent fun n => ?_
  unfold Node.storeDone
  simp only []
  split_ifs
  · exact .of_eq rfl rfl rfl rfl rfl
  · refine Silent.trans ?_ (.emit _ rfl)
    exact .of_eq rfl rfl rfl rfl rfl

end Leaves

/-! ## Functions that call others -/

/-- The rounds in which a call may send shares start here. -/
def floor : Call → ℕ
  | .epbcVote vote => vote.round + 1
  | .broadcastBlock round => round
  | .nextRound round => round + 1
  | .updateDag block => block.round + 1
  | .updateDagFromPending round => round + 1
  | .retryPendingEpbc round => round

section Calls

variable [Crypto] {c : NodeConfig} {call : Call → NodeM Unit}
  (hcall : ∀ k, Settles (floor k) (call k))

include hcall

omit [Crypto] in
theorem settles_call {f : ℕ} {k : Call} (h : f ≤ floor k) : Settles f (call k) := (hcall k).mono h

omit [Crypto] in
theorem settles_tryToNextRound (round : ℕ) : Settles (round + 1) (c.tryToNextRound call round) := by
  refine Settles.get fun n => .ite (fun _ => ?_) fun _ => .pure _
  refine .bind (Settles.ofSilent fun _ => .of_eq rfl rfl rfl rfl rfl) fun _ => ?_
  exact .bind (settles_call hcall (Nat.le_refl _)) fun _ => settles_call hcall (Nat.le_succ _)

theorem settles_handleDone {f : ℕ} {done : WahooDone} (h : f ≤ done.round + 1) :
    Settles f (c.handleDone call done) :=
  .ite (fun _ => .bind (settles_storeDone done) fun _ =>
    .bind (Settles.mono h (settles_tryToNextRound hcall done.round)) fun _ =>
      settles_commitLeader done.round) fun _ => .pure _

/-- The vote for a phase is sent, and what follows it settles the later rounds. -/
theorem sendEpbcVote_wp {round : ℕ} {id : Digest} {origin : PublicKey} {phase : WahooVotePhase}
    {n₀ n : Node} (hn : Since (round + 1) n₀ n)
    (hpair : phase = .tf → n.digests round origin .tf = [] → n.digests round origin .ts1 = [id]) :
    wp (c.sendEpbcVote call round id origin phase)
      (fun _ => Since (round + 1) (Node.shouldSendVote round origin phase id n).2)
      (fun _ n => Disciplined n) n := by
  have hdigests := digests_shouldSendVote n round origin phase id
  unfold NodeConfig.sendEpbcVote
  rw [wp_bind, wp_modifyGet, wp_ite, shouldSendVote_fst, decide_eq_true_iff]
  refine ⟨fun hnew => ?_, fun hold => ?_⟩
  swap
  · rw [shouldSendVote_of_ne hold]
    exact hn.later (Nat.le_refl _)
  -- the vote is out, and no share of a later round is
  have hsent : ∀ {v : Vote} {e : Effect}, v.round = round → v.origin = origin → v.id = id →
      v.wahooPhase = some phase → e.vote = some v →
      Since (round + 1) (Node.shouldSendVote round origin phase id n).2
        ((Node.shouldSendVote round origin phase id n).2.emit e) := by
    rintro v e rfl rfl rfl hphase he
    refine ⟨hn.disciplined.vote hphase he hnew fun h => hpair h (h ▸ hnew), ?_, fun r a hr => ?_,
      fun _ _ _ _ _ => rfl⟩
    · have hs := hn.shelved
      unfold Node.shouldSendVote
      split_ifs <;> exact ⟨hs.epbc, hs.pending, hs.pb⟩
    · have hlater : ∀ ph ph' : WahooVotePhase, (r, a, ph) ≠ (v.round, v.origin, ph') := by
        intro ph ph' heq
        have hround := (Prod.mk.inj heq).1
        omega
      change (Node.shouldSendVote v.round v.origin phase v.id n).2.digests r a .tf =
        (Node.shouldSendVote v.round v.origin phase v.id n).2.digests r a .ts1
      rw [hdigests, hdigests, if_neg fun h => hlater _ _ h.1, if_neg fun h => hlater _ _ h.1]
      exact hn.both r a hr
  rw [wp_ite]
  refine ⟨fun _ => ?_, fun _ => hsent rfl rfl rfl rfl rfl⟩
  exact Keeps.bind (.ofModify fun _ _ h => h) (fun _ => hcall (.epbcVote _)) _ _
    (hsent rfl rfl rfl rfl rfl)

/-- The two shares on a block, on one digest. -/
theorem settles_sendEpbcShares (block : Header) :
    Settles block.round (c.sendEpbcShares call block) := by
  intro n₀ n hn
  have hts1 := digests_shouldSendVote n block.round block.author .ts1 block.digest
  unfold NodeConfig.sendEpbcShares
  rw [wp_bind]
  refine wp_mono (sendEpbcVote_wp hcall (hn.later (Nat.le_succ _)) nofun) (fun _ n₁ hn₁ => ?_)
    fun _ _ h => h
  have htf := digests_shouldSendVote n₁ block.round block.author .tf block.digest
  -- the TF share finds what the TS1 share left, whatever went on in between
  have hts1₁ : ∀ a, n₁.digests block.round a .ts1 =
      if a = block.author ∧ n.digests block.round block.author .ts1 = [] then [block.digest]
      else n.digests block.round a .ts1 := fun a => by
    rw [hn₁.below _ a _ (Nat.lt_succ_self _) (.inl rfl), hts1]
    simp
  have htf₁ : ∀ a, n₁.digests block.round a .tf = n.digests block.round a .ts1 := fun a => by
    rw [hn₁.below _ a _ (Nat.lt_succ_self _) (.inr rfl), hts1, if_neg (by simp)]
    exact hn.both _ a (Nat.le_refl _)
  refine wp_mono (sendEpbcVote_wp hcall hn₁ fun _ hnew => ?_) (fun _ n₂ hn₂ => ?_) fun _ _ h => h
  · rw [htf₁] at hnew
    rw [hts1₁, if_pos ⟨rfl, hnew⟩]
  · refine ⟨hn₂.disciplined, hn₂.shelved, fun r a hr => ?_, fun r a phase hr hphase => ?_⟩
    · rcases Nat.lt_or_eq_of_le hr with hr | rfl
      · exact hn₂.both r a hr
      · rw [hn₂.below _ a _ (Nat.lt_succ_self _) (.inl rfl),
          hn₂.below _ a _ (Nat.lt_succ_self _) (.inr rfl), htf, htf, htf₁, htf₁, hts1₁]
        by_cases ha : a = block.author
        · subst ha
          simp
        · simp [ha]
    · have hne : ∀ ph, (r, a, phase) ≠ (block.round, block.author, ph) := fun ph h => by
        have hround := (Prod.mk.inj h).1
        omega
      rw [hn₂.below r a phase (Nat.lt_succ_of_lt hr) hphase, htf, if_neg fun h => hne _ h.1,
        hn₁.below r a phase (Nat.lt_succ_of_lt hr) hphase, hts1, if_neg fun h => hne _ h.1]
      exact hn.below r a phase hr hphase

theorem settles_deliverEpbc (cert : Certificate) (phase : WahooVotePhase) :
    Settles (cert.round + 1) (c.deliverEpbc call cert phase) := by
  refine .bind (Settles.ofSilentGet fun _ => .of_eq rfl rfl rfl rfl rfl) fun _ =>
    .ite (fun _ => .pure _) fun _ => ?_
  refine .bind (settles_call hcall (Nat.le_refl _)) fun _ => ?_
  exact .bind (settles_handleDone hcall (Nat.le_refl _)) fun _ =>
    .ite (fun _ => Settles.emit rfl) fun _ => .pure _

theorem settles_handleEpbcCertificate (cert : Certificate) :
    Settles (cert.round + 1) (c.handleEpbcCertificate call cert) := by
  unfold NodeConfig.handleEpbcCertificate
  split
  · exact .pure _
  · refine .bind (Settles.ofSilent fun n => ?_) fun _ => ?_
    · exact ⟨rfl, rfl, fun hs => ⟨hs.epbc.put _, hs.pending, hs.pb⟩⟩
    split
    · intro n₀ n hn
      refine wp_mono (sendEpbcVote_wp hcall hn nofun) (fun _ n' hn' => ?_) fun _ _ h => h
      refine ⟨hn'.disciplined, hn'.shelved, hn'.both, fun r a phase hr hphase => ?_⟩
      rw [hn'.below r a phase hr hphase, digests_shouldSendVote, if_neg]
      · exact hn.below r a phase hr hphase
      · rintro ⟨heq, -⟩
        rcases hphase with rfl | rfl <;> simp at heq
    · exact settles_deliverEpbc hcall cert _
    · exact settles_deliverEpbc hcall cert _
    · exact .pure _

theorem settles_handleEpbcVote (vote : Vote) :
    Settles (vote.round + 1) (c.handleEpbcVote call vote) := by
  intro n₀ n hn
  unfold NodeConfig.handleEpbcVote
  rw [wp_bind, wp_modifyGet]
  obtain ⟨⟨votes, sent, heq⟩, hquorum⟩ := appendEpbcVote_spec c.committee vote n
  have hn' : Since (vote.round + 1) n₀ (n.appendEpbcVote c.committee vote).2 := by
    rw [heq]
    exact hn.silent (.of_eq rfl rfl rfl rfl rfl)
  split
  · exact hn'
  · rename_i quorum hq
    obtain ⟨header, hget, hheader⟩ := hquorum quorum hq
    have hround : quorum.certificate.round = vote.round := by
      rw [Certificate.round, hheader]
      exact (hn.shelved.epbc _ _ _ hget).1
    have hcert := settles_handleEpbcCertificate (c := c) hcall quorum.certificate
    rw [hround] at hcert
    exact (Settles.emit rfl).bind (fun _ => hcert) n₀ _ hn'

theorem settles_handleFastBlock (block : Header) :
    Settles block.round (c.handleFastBlock call block) := by
  refine .bind (Settles.ofSilent fun n => ?_) fun _ => Settles.get fun n =>
    .ite (fun _ => settles_sendEpbcShares hcall block) fun _ => .pure _
  unfold Node.storeEpbcBlock
  split_ifs
  · exact .of_eq rfl rfl rfl rfl rfl
  · exact ⟨rfl, rfl, fun hs => ⟨hs.epbc.put _, hs.pending, hs.pb⟩⟩

end Calls

/-! ## PB -/

/-- What PB returns is in order: it keeps its blocks where they belong, votes in its own phase, and
hands on blocks of the round `r` or of later ones. -/
structure PbSettles (r : ℕ) (out : Pb × List PbAction) : Prop where
  filed : out.1.Filed
  votes : ∀ target vote, .sendVote target vote ∈ out.2 → vote.wahooPhase = some .pbc
  blocks : ∀ block, .outputBlock block ∈ out.2 → r ≤ block.round

section Pb

variable {pb : Pb}

theorem filed_storeBlockMsg (h : pb.Filed) (block : Header) : (pb.storeBlockMsg block).Filed :=
  fun r a b hb => (lookup_storeBlockMsg_cases hb).elim (h r a b) fun ⟨hb, hr, ha⟩ =>
    ⟨hb ▸ hr, hb ▸ ha⟩

theorem pbSettles_outputActions (h : pb.Filed) (round : ℕ) (sender : PublicKey) :
    PbSettles round (pb.outputActions round sender) := by
  unfold Pb.outputActions
  rcases pb.tryToOutput_cases round sender with he | ⟨b, hb, -, he⟩ <;> rw [he]
  · exact ⟨h, by simp, by simp⟩
  · refine ⟨h, by simp, fun block hblock => ?_⟩
    obtain rfl : block = b := by simpa using hblock
    exact (h _ _ _ hb).1.ge

/-- Actions that hand on nothing may come first. -/
theorem PbSettles.cons {r : ℕ} {out : Pb × List PbAction} (h : PbSettles r out) {action : PbAction}
    (hvote : ∀ target vote, action = .sendVote target vote → vote.wahooPhase = some .pbc)
    (hblock : ∀ block, action ≠ .outputBlock block) : PbSettles r (out.1, action :: out.2) where
  filed := h.filed
  votes target vote hm := (List.mem_cons.1 hm).elim (fun he => hvote target vote he.symm)
    (h.votes target vote)
  blocks block hm := (List.mem_cons.1 hm).elim (fun he => absurd he.symm (hblock block))
    (h.blocks block)

theorem pbSettles_nil (h : pb.Filed) (r : ℕ) : PbSettles r (pb, []) := ⟨h, by simp, by simp⟩

theorem pbSettles_handleBlock [Crypto] (h : pb.Filed) (name : PublicKey) (block : Header) :
    PbSettles block.round (pb.handleBlock name block) := by
  have hstore := filed_storeBlockMsg h block
  unfold Pb.handleBlock
  simp only []
  split_ifs
  · exact pbSettles_nil h _
  · exact (pbSettles_outputActions hstore block.round block.author).cons
      (fun _ _ he => by cases he; rfl) (by simp)
  · exact (pbSettles_nil hstore _).cons (fun _ _ he => by cases he; rfl) (by simp)

theorem pbSettles_handleCertificate (h : pb.Filed) (cert : Certificate) :
    PbSettles cert.round (pb.handleCertificate cert) := by
  refine pbSettles_outputActions (fun r a b hb => ?_) cert.round cert.origin
  change (pb.pendingBlocks.insert (cert.round, cert.origin) cert.header).lookup (r, a) = some b at hb
  rw [FinMap.lookup_insert_ite] at hb
  split_ifs at hb with hk
  · obtain ⟨rfl, rfl⟩ := Prod.mk.inj hk
    obtain rfl := Option.some.inj hb
    exact ⟨rfl, rfl⟩
  · exact h r a b hb

theorem pbSettles_handleVote (h : pb.Filed) (committee : Committee) (vote : Vote) :
    PbSettles vote.round (pb.handleVote committee vote) := by
  unfold Pb.handleVote
  simp only []
  rcases pb.pendingBlocks.lookup (vote.round, vote.origin) with _ | header
  · exact pbSettles_nil h _
  have hblocks := (appendVote_blocks committee pb vote header).1
  simp only []
  rcases happ : pb.appendVote committee vote header with ⟨pb', quorum⟩
  rw [happ] at hblocks
  have hpb' : pb'.Filed := fun r a b hb => h r a b (hblocks ▸ hb)
  rcases quorum with _ | ⟨_ | _ | _ | _, cert⟩
  · exact pbSettles_nil hpb' _
  · exact pbSettles_nil hpb' _
  · exact pbSettles_nil hpb' _
  · exact pbSettles_nil hpb' _
  simp only []
  split_ifs
  · exact pbSettles_outputActions hpb' vote.round vote.origin
  · let sent := Pb.storeCertificate { pb' with block2Send := insert vote.round pb'.block2Send } cert
    have hsent : sent.Filed := hpb'
    exact (pbSettles_outputActions hsent vote.round vote.origin).cons (by simp) (by simp)

end Pb

section Runs

variable [Crypto] {c : NodeConfig} {call : Call → NodeM Unit}
  (hcall : ∀ k, Settles (floor k) (call k))

include hcall

theorem settles_dispatchPbAction {f : ℕ} {action : PbAction}
    (hvote : ∀ target vote, action = .sendVote target vote → vote.wahooPhase = some .pbc)
    (hblock : ∀ block, action = .outputBlock block → f ≤ block.round + 1) :
    Settles f (c.dispatchPbAction call action) := by
  cases action with
  | sendVote target vote =>
    have hphase := hvote target vote rfl
    unfold NodeConfig.dispatchPbAction
    simp only []
    split
    · rename_i hnone
      exact absurd (hnone.symm.trans hphase) nofun
    rename_i phase hsome
    obtain rfl : phase = .pbc := Option.some.inj (hsome.symm.trans hphase)
    intro n₀ n hn
    have hdigests := digests_shouldSendVote n vote.round vote.origin .pbc vote.id
    rw [wp_bind, wp_modifyGet, wp_ite, shouldSendVote_fst, decide_eq_true_iff]
    refine ⟨fun hnew => ?_, fun hold => ?_⟩
    · let v : Vote := { vote with signature := Crypto.sign c.name vote.digest }
      have hkept : ∀ r a phase, phase = .ts1 ∨ phase = .tf →
          ((Node.shouldSendVote vote.round vote.origin .pbc vote.id n).2.emit
            (.sendVote target v)).digests r a phase = n.digests r a phase := by
        intro r a phase hphase
        refine (hdigests r a phase).trans (if_neg ?_)
        rintro ⟨heq, -⟩
        rcases hphase with rfl | rfl <;> simp at heq
      refine ⟨hn.disciplined.vote (v := v) hphase rfl hnew nofun, ?_, fun r a hr => ?_,
        fun r a phase hr hphase => ?_⟩
      · have hs := hn.shelved
        unfold Node.shouldSendVote
        split_ifs <;> exact ⟨hs.epbc, hs.pending, hs.pb⟩
      · exact (hkept r a _ (.inr rfl)).trans ((hn.both r a hr).trans (hkept r a _ (.inl rfl)).symm)
      · exact (hkept r a phase hphase).trans (hn.below r a phase hr hphase)
    · rw [shouldSendVote_of_ne hold]
      exact hn
  | broadcastCertificate cert => exact Settles.emit rfl
  | outputBlock block => exact settles_call hcall (hblock block rfl)

theorem settles_runPb {f : ℕ} {g : Pb → Pb × List PbAction}
    (hg : ∀ pb : Pb, pb.Filed → ∃ r, f ≤ r + 1 ∧ PbSettles r (g pb)) :
    Settles f (c.runPb call g) := by
  intro n₀ n hn
  obtain ⟨r, hr, hout⟩ := hg n.pb hn.shelved.pb
  unfold NodeConfig.runPb
  rw [wp_bind, wp_modifyGet]
  have hn' : Since f n₀ { n with pb := (g n.pb).1 } :=
    hn.silent ⟨rfl, rfl, fun hs => ⟨hs.epbc, hs.pending, hout.filed⟩⟩
  refine Settles.forM (fun action hmem => ?_) n₀ _ hn'
  exact settles_dispatchPbAction hcall (fun target vote he => hout.votes target vote (he ▸ hmem))
    fun block he => hr.trans (Nat.succ_le_succ (hout.blocks block (he ▸ hmem)))

theorem settles_broadcastBlock [ThresholdBls] (round : ℕ) :
    Settles round (c.broadcastBlock call round) := by
  intro n₀ n hn
  unfold NodeConfig.broadcastBlock
  rw [wp_bind, wp_modifyGet]
  have hround : (Node.nextBlock c round n).1.round = round := rfl
  have hn' : Since round n₀ (Node.nextBlock c round n).2 := hn.silent (.of_eq rfl rfl rfl rfl rfl)
  generalize Node.nextBlock c round n = next at hround hn'
  obtain ⟨block, n'⟩ := next
  have hblock : block.round = round := hround
  refine ((settles_broadcastRecpsFor round).bind fun _ => (Settles.emit rfl).bind fun _ =>
    Keeps.ite (fun _ => ?_) fun _ => ?_) n₀ n' hn'
  · refine .bind (Settles.ofSilent fun n => ⟨rfl, rfl, fun hs => ?_⟩) fun _ =>
      .bind (settles_runPb hcall fun pb hpb => ?_) fun _ => settles_broadcastElect round
    · exact ⟨hs.epbc, hs.pending, filed_storeBlockMsg hs.pb block⟩
    · exact ⟨block.round, hblock ▸ Nat.le_succ _, pbSettles_handleBlock hpb c.name block⟩
  · have hfast := settles_handleFastBlock (c := c) hcall block
    rwa [hblock] at hfast

theorem settles_tryToUpdateDag (block : Header) :
    Settles (block.round + 1) (c.tryToUpdateDag call block) := by
  refine Settles.get fun n => .ite (fun _ => ?_) fun _ => Settles.ofSilent fun n => ?_
  · refine .bind (Settles.ofSilent fun _ => .of_eq rfl rfl rfl rfl rfl) fun _ => .bind ?_ fun _ =>
      .bind (settles_call hcall (Nat.le_succ _)) fun _ => settles_call hcall (Nat.le_refl _)
    unfold NodeConfig.advance
    split_ifs
    · exact .bind (Settles.ofSilent fun _ => .of_eq rfl rfl rfl rfl rfl) fun _ =>
        settles_tryToNextRound hcall block.round
    · exact settles_commitLeader block.round
  · exact ⟨rfl, rfl, fun hs => ⟨hs.epbc, hs.pending.put block, hs.pb⟩⟩

theorem settles_retryPendingEpbc (round : ℕ) :
    Settles round (c.retryPendingEpbc call round) := by
  intro n₀ n hn
  unfold NodeConfig.retryPendingEpbc
  have hround : ∀ b ∈ c.order.order n.iterations (n.epbcBlocks.level round).values,
      b.round = round := by
    intro b hb
    obtain ⟨a, ha⟩ := FinMap.mem_values.1 ((c.order.perm _ _).mem_iff.1 hb)
    exact (hn.shelved.epbc round a b ha).1
  rw [wp_bind, wp_get, wp_bind]
  refine Settles.forM (fun b hb => ?_) n₀ _ (hn.silent (.of_eq rfl rfl rfl rfl rfl))
  have hshares := settles_sendEpbcShares (c := c) hcall b
  rwa [hround b (List.mem_filter.1 hb).1] at hshares

omit [Crypto] in
theorem settles_updateDagFromPending (round : ℕ) :
    Settles (round + 1) (c.tryToUpdateDagFromPending call round) := by
  intro n₀ n hn
  unfold NodeConfig.tryToUpdateDagFromPending
  have hround : ∀ b ∈ c.order.order n.iterations (n.pendingBlocks.level round).values,
      b.round = round := by
    intro b hb
    obtain ⟨a, ha⟩ := FinMap.mem_values.1 ((c.order.perm _ _).mem_iff.1 hb)
    exact (hn.shelved.pending round a b ha).1
  rw [wp_bind, wp_modifyGet, wp_bind]
  refine Settles.forM (fun b hb => settles_call hcall (hround b hb ▸ Nat.le_refl _)) n₀ _
    (hn.silent ⟨rfl, rfl, fun hs => ⟨hs.epbc, fun r a b hb => ?_, hs.pb⟩⟩)
  change Blocks.get (n.pendingBlocks.erase round) r a = some b at hb
  rw [Blocks.get_erase] at hb
  split_ifs at hb
  exact hs.pending r a b hb

theorem settles_handleReady (ready : WahooReady) : Settles 0 (c.handleReady call ready) := by
  refine .bind (Settles.ofSilent fun _ => .of_eq rfl rfl rfl rfl rfl) fun _ => Settles.get fun n =>
    .ite (fun _ => ?_) fun _ => .pure _
  refine .bind (Settles.ofSilent fun _ => .of_eq rfl rfl rfl rfl rfl) fun _ =>
    .bind (settles_iterate _) fun _ => ?_
  exact .bind (settles_handleDone hcall (Nat.zero_le _)) fun _ => Settles.emit rfl

theorem settles_body [ThresholdBls] (k : Call) : Settles (floor k) (c.body call k) := by
  cases k with
  | epbcVote vote => exact settles_handleEpbcVote hcall vote
  | broadcastBlock round => exact settles_broadcastBlock hcall round
  | nextRound round => exact settles_tryToNextRound hcall round
  | updateDag block => exact settles_tryToUpdateDag hcall block
  | updateDagFromPending round => exact settles_updateDagFromPending hcall round
  | retryPendingEpbc round => exact settles_retryPendingEpbc hcall round

theorem settles_handleMessage (m : WahooMessage) : Settles 0 (c.handleMessage call m) := by
  cases m with
  | block b =>
    refine .ite (fun _ => settles_runPb hcall fun pb hpb => ?_) fun _ => ?_
    · exact ⟨_, Nat.zero_le _, pbSettles_handleBlock hpb c.name b⟩
    · exact Settles.mono (Nat.zero_le _) (settles_handleFastBlock hcall b)
  | vote v =>
    refine .ite (fun _ => settles_runPb hcall fun pb hpb => ?_) fun _ => ?_
    · exact ⟨_, Nat.zero_le _, pbSettles_handleVote hpb c.committee v⟩
    · exact Settles.mono (Nat.zero_le _) (settles_handleEpbcVote hcall v)
  | pbcCertificate cert =>
    change Settles 0 (c.runPb call fun pb => pb.handleCertificate cert)
    exact settles_runPb hcall fun pb hpb =>
      ⟨_, Nat.zero_le _, pbSettles_handleCertificate hpb cert⟩
  | epbcCertificate cert =>
    exact Settles.mono (Nat.zero_le _) (settles_handleEpbcCertificate hcall cert)
  | elect e => exact settles_handleElect e
  | ready r => exact settles_handleReady hcall r
  | done d => exact settles_handleDone hcall (Nat.zero_le _)
  | reVote => exact .pure _

end Runs

theorem disciplined_run [Crypto] [ThresholdBls] (c : NodeConfig) (fuel : ℕ) (inputs : List Input) :
    Disciplined (exec (c.run fuel inputs) {}).2 := by
  have hcall : ∀ k, Settles (floor k) (c.perform fuel k) := Handler.tie_spec
    (fun _ => .ofThrow fun _ _ hn => hn.disciplined) (fun _ hcall k => settles_body hcall k) fuel
  have hrun : Settles 0 (c.run fuel inputs) := by
    refine .bind (settles_call hcall (Nat.zero_le _)) fun _ => Settles.forM fun i _ => ?_
    cases i with
    | message m => exact settles_handleMessage hcall m
    | worker digest wid => exact Settles.ofSilent fun _ => .of_eq rfl rfl rfl rfl rfl
    | recp r => exact Settles.ofSilent fun _ => .of_eq rfl rfl rfl rfl rfl
  have hempty : Since 0 ({} : Node) {} := by
    refine .refl ⟨List.nodup_nil, by simp [castVotes], by simp [Node.digests]⟩ ⟨?_, ?_, ?_⟩
      fun r a _ => by simp [Node.digests]
    · intro r a b hb
      simp [Blocks.get, Blocks.level] at hb
    · intro r a b hb
      simp [Blocks.get, Blocks.level] at hb
    · intro r a b hb
      simp at hb
  have hend := hrun {} {} hempty
  unfold wp at hend
  rcases hx : exec (c.run fuel inputs) {} with ⟨_ | _, n⟩ <;> rw [hx] at hend
  · exact hend
  · exact hend.disciplined

/-- In every run a node sends one vote at most for a round, an origin and a phase, to others and to
itself, and its TS1 share and its TF share for a round and an origin are on one digest. -/
theorem vote_discipline [Crypto] [ThresholdBls] (c : NodeConfig) (fuel : ℕ) (inputs : List Input) :
    let votes := castVotes (exec (c.run fuel inputs) {}).2.trace
    (votes.map slot).Nodup ∧ ∀ v ∈ votes, ∀ w ∈ votes, v.round = w.round → v.origin = w.origin →
      v.wahooPhase = some .ts1 → w.wahooPhase = some .tf → v.id = w.id := by
  have hend := disciplined_run c fuel inputs
  refine ⟨hend.once, fun v hv w hw hround horigin hts1 htf => ?_⟩
  obtain ⟨_, hphase, hv⟩ := hend.recorded v hv
  obtain rfl := Option.some.inj (hphase.symm.trans hts1)
  obtain ⟨_, hphase, hw⟩ := hend.recorded w hw
  obtain rfl := Option.some.inj (hphase.symm.trans htf)
  rw [hround, horigin] at hv
  rcases hend.paired w.round w.origin with hnone | hsame
  · rw [hw] at hnone
    cases hnone
  · rw [hv, hw] at hsame
    exact (List.cons.inj hsame).1.symm

end NovelDag.Wahoo
