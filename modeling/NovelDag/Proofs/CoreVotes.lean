import NovelDag.Proofs.CoreRuns

/-!
# The votes of the core

The core signs one vote for each round and author as long as the headers it handles are not below the
round it has cleaned up to: what it forgets is below that round, and so is everything it forgot before.
-/

namespace NovelDag

open Handler Fallible

/-- No two votes for one round and author are for different headers. -/
def SignsOnce (votes : List Vote) : Prop :=
  ∀ v ∈ votes, ∀ w ∈ votes, v.round = w.round → v.origin = w.origin → v.id = w.id

namespace CoreConfig

variable [Crypto] {c : CoreConfig} {g : Given} {x y : Moment} {s t : Core} {i : Input}
  {K : Header → Prop}

/-! ## One vote for each round and author -/

section Once

/-- An input that the core does not check the round of is not below the round it cleaned up to, and
the round of consensus does not go back. -/
def Timely (s : Core) : Input → Prop
  | .headerWaiter h | .proposer h => s.gcRound ≤ h.round
  | .certificateWaiter x => s.gcRound ≤ x.round
  | .consensusRound round => s.consensusRound ≤ round
  | .message _ => True

/-- Headers of one id are of one round. -/
def OneRound (K : Header → Prop) : Prop :=
  ∀ h, K h → ∀ h', K h' → h.id = h'.id → h.round = h'.round

/-- What was voted for is remembered or below the round the core cleaned up to; nothing it may still
vote for is. -/
structure Votes (shortfin : Prop) (K : Header → Prop) (s : Core) : Prop extends Knows K s where
  remembered : ∀ v ∈ s.signedVotes, v.round < s.gcRound ∨
    v.origin ∈ (s.lastVoted.lookup v.round).getD ∅
  once : SignsOnce s.signedVotes
  ownRound : ∀ id h, s.ownHeaders.lookup id = some h → s.gcRound ≤ h.round
  stateRound : shortfin → ∀ id, (s.shortfinStates.lookup id).isSome → ∀ h, K h → h.id = id →
    s.gcRound ≤ h.round

structure VotesAt (shortfin : Prop) (K : Header → Prop) (x : Moment) : Prop
    extends Votes shortfin K x.core, KnowsAt K x where
  targetRound : ∀ h ∈ x.targets, x.core.gcRound ≤ h.round

omit [Crypto] in
theorem signsOnce_concat {votes : List Vote} {v : Vote} (h : SignsOnce votes)
    (hv : ∀ w ∈ votes, v.round = w.round → v.origin = w.origin → v.id = w.id) :
    SignsOnce (votes ++ [v]) := by
  intro a ha b hb hr ho
  rcases List.mem_append.1 ha with ha | ha <;> rcases List.mem_append.1 hb with hb | hb
  · exact h a ha b hb hr ho
  · cases List.mem_singleton.1 hb
    exact (hv a ha hr.symm ho.symm).symm
  · cases List.mem_singleton.1 ha
    exact hv b hb hr ho
  · rw [List.mem_singleton.1 ha, List.mem_singleton.1 hb]

theorem Prim.votes (hgenesis : ∀ p ∈ c.genesis, K p.header)
    (hgiven : ∀ h, g.call.Gives h → K h ∧ x.core.gcRound ≤ h.round)
    (hbind : c.dagProtocol = .shortfin → OneRound K) (o : Orderly c x.core) (h : c.Prim g x y)
    (v : VotesAt (c.dagProtocol = .shortfin) K x) : VotesAt (c.dagProtocol = .shortfin) K y := by
  have k := h.knows hgenesis (fun h hh => (hgiven h hh).1) v.toKnowsAt
  have handled : ∀ {h : Header}, g.Handles x.core h → K h ∧ x.core.gcRound ≤ h.round := fun hh =>
    hh.elim (hgiven _) fun ho => ⟨v.own _ _ ho, v.ownRound _ _ ho⟩
  have admitted : ∀ {h : Header}, c.dagProtocol = .shortfin → g.Handles x.core h →
      ∀ h', K h' → h'.id = h.id → x.core.gcRound ≤ h'.round := fun hp hh h' hk he => by
    rw [hbind hp h' hk _ (handled hh).1 he]
    exact (handled hh).2
  cases h with
  | frame h =>
    obtain ⟨_, _, _, _, _, rfl⟩ := h.eq
    exact { k, v with }
  | embeddedQc | certificateQc =>
    obtain ⟨states, he, hs⟩ := recordShortfinQc_eq x.core _ _
    rw [he] at k ⊢
    refine { k, v with stateRound := fun hp id hi => v.stateRound hp id ?_ }
    rcases hs id with h | ⟨-, h, -⟩
    · exact (congrArg Option.isSome h).symm.trans hi
    · exact Option.isSome_of_eq_some h
  | available hh hs =>
    refine { k, v with stateRound := fun hp id hi => ?_ }
    rcases isSome_of_insert hi with rfl | hi
    · exact v.stateRound hp _ hs
    · exact v.stateRound hp _ hi
  | target hp hl hs =>
    refine { k, v with
      stateRound := fun _ id hi => ?_
      targetRound := List.forall_mem_cons.2 ⟨?_, v.targetRound⟩ }
    · rcases isSome_of_insert hi with rfl | hi
      · exact v.stateRound hp _ (Option.isSome_of_eq_some hs)
      · exact v.stateRound hp _ hi
    · exact v.stateRound hp _ (Option.isSome_of_eq_some hs) _ (v.named _ _ hl) (o.named _ _ hl)
  | bubble hp hh _ _ =>
    refine { k, v with stateRound := fun _ id hi => ?_ }
    rcases isSome_of_orInsertBubble hi with rfl | hi
    · exact admitted hp hh
    · exact v.stateRound hp _ hi
  | admitted hp hh _ =>
    refine { k, v with stateRound := fun _ id hi => ?_ }
    rcases isSome_of_insert hi with rfl | hi
    · exact admitted hp hh
    · rcases isSome_of_orInsertBubble hi with rfl | hi
      · exact admitted hp hh
      · exact v.stateRound hp _ hi
  | @vote h voterRound hh hv hn =>
    have hround : x.core.gcRound ≤ h.round :=
      hh.elim (fun hh => (handled hh).2) (v.targetRound h)
    refine { k, v with remembered := fun w hw => ?_, once := signsOnce_concat v.once ?_ }
    · rcases List.mem_append.1 hw with hw | hw
      · exact (v.remembered w hw).imp_right mem_alter_insert
      · cases List.mem_singleton.1 hw
        exact .inr (by simp [Core.recordVote, Core.signVote, Vote.new])
    · -- A vote for the same round and author would be remembered.
      intro w hw hr ho
      have hr : h.round = w.round := hr
      have ho : h.author = w.origin := ho
      rcases v.remembered w hw with hlt | hmem
      · omega
      · rw [← hr, ← ho] at hmem
        exact absurd (decide_eq_true hmem) (Bool.eq_false_iff.1 hn)
  | record | recordBlock =>
    rw [recordCertificate_eq] at k ⊢
    exact { k, v with }
  | @deliver certificate =>
    obtain ⟨_, _, _, he⟩ := appendBlock_eq (c := c) certificate (x.core.storeCertificate certificate)
    rw [he] at k ⊢
    exact { k, v with }
  | @weakRef certificate =>
    obtain ⟨_, he⟩ := recordMahiWeakRef_eq x.core certificate
    rw [he] at k ⊢
    exact { k, v with }
  | @qcSignal certificate =>
    obtain ⟨_, _, he⟩ := sendQcSignal_eq certificate x.core
    rw [he] at k ⊢
    exact { k, v with }
  | _ => exact { k, v with }

theorem Steps.votes (hgenesis : ∀ p ∈ c.genesis, K p.header)
    (hgiven : ∀ h, g.call.Gives h → K h ∧ x.core.gcRound ≤ h.round)
    (hbind : c.dagProtocol = .shortfin → OneRound K) (t : Tidy c g x.core) (h : c.Steps g x y)
    (v : VotesAt (c.dagProtocol = .shortfin) K x) : VotesAt (c.dagProtocol = .shortfin) K y := by
  induction h with
  | refl => exact v
  | @tail w z hs hp ih =>
    have hs : c.Steps g x w := hs
    refine hp.votes hgenesis (fun h hh => ?_) hbind (hs.tidy t).toOrderly ih
    rw [hs.grows.gcRound]
    exact hgiven h hh

/-- What passes its check, or comes in time, is not below the round the core cleaned up to. -/
theorem le_of_passes (hp : c.Passes s i) (ht : Timely s i) {h : Header} (hb : i.Brings h) :
    s.gcRound ≤ h.round := by
  cases i with
  | message m =>
    cases m with
    | header h' =>
      obtain rfl : h = h' := hb
      obtain ⟨hround, -⟩ := check_bind_eq_ok.1 hp
      simpa using hround
    | certificate x' =>
      obtain rfl : h = x'.header := hb
      obtain ⟨hround, -⟩ := check_bind_eq_ok.1 hp
      simpa using hround
    | _ => exact hb.elim
  | headerWaiter h' | proposer h' =>
    obtain rfl : h = h' := hb
    exact ht
  | certificateWaiter x' =>
    obtain rfl : h = x'.header := hb
    exact ht
  | consensusRound r => exact hb.elim

/-- What a turn is to know of its input. -/
def Expected (K : Header → Prop) (s : Core) (i : Input) : Prop :=
  Timely s i ∧ ∀ h, i.Brings h → K h

omit [Crypto] in
theorem Votes.receive (hi : Expected K s i) (v : Votes (c.dagProtocol = .shortfin) K s) :
    Votes (c.dagProtocol = .shortfin) K (c.receive s i) := by
  have k := v.toKnows.receive (c := c) hi.2
  cases i with
  | proposer h => exact { k, v with ownRound := forall_insert v.ownRound hi.1 }
  | _ => exact v

theorem Votes.cleanup (hbind : c.dagProtocol = .shortfin → OneRound K) {gcRound : ℕ}
    (hround : s.gcRound ≤ gcRound) (v : Votes (c.dagProtocol = .shortfin) K s) :
    Votes (c.dagProtocol = .shortfin) K (CoreConfig.cleanup gcRound s) := by
  refine { v.toKnows.cleanup gcRound with
    remembered := fun w hw => ?_
    once := v.once
    ownRound := fun id h hl => ?_
    stateRound := fun hp id hi h hk hid => ?_ }
  · rcases v.remembered w hw with hlt | hmem
    · exact .inl (hlt.trans_le hround)
    · refine (Nat.lt_or_ge w.round gcRound).imp_right fun hge => ?_
      change w.origin ∈ ((s.lastVoted.retain _).lookup w.round).getD ∅
      rcases hl : s.lastVoted.lookup w.round with _ | names
      · rw [hl] at hmem
        exact absurd hmem (Finset.notMem_empty _)
      · rw [hl] at hmem
        rw [FinMap.lookup_retain_eq_some.2 ⟨hl, decide_eq_true hge⟩]
        exact hmem
  · exact of_decide_eq_true (FinMap.lookup_retain_eq_some.1 hl).2
  · obtain ⟨state, hstate⟩ := Option.isSome_iff_exists.1 hi
    obtain ⟨r, byAuthority, a, x, hle, hr, ha, hx⟩ :=
      exists_live (FinMap.lookup_retain_eq_some.1 hstate).2
    obtain ⟨hkx, hxr, -⟩ := v.ranked r byAuthority a x hr ha
    rw [hbind hp h hk x.header hkx (hid.trans (of_decide_eq_true hx).symm)]
    exact hle.trans hxr.ge

/-- What holds between two turns. -/
structure Counted (c : CoreConfig) (K : Header → Prop) (s : Core) : Prop
    extends Votes (c.dagProtocol = .shortfin) K s where
  clock : s.gcRound ≤ s.consensusRound - c.gcDepth

/-- A call of a turn keeps what holds between two turns. -/
theorem Counted.steps {s₀ : Core} {k : CoreCall} (hgenesis : ∀ p ∈ c.genesis, K p.header)
    (hbind : c.dagProtocol = .shortfin → OneRound K) (hi : Expected K s₀ i)
    (ha : c.Acts s₀ i (c.receive s₀ i) s) (o : Orderly c s) (hk : i.Calls k)
    (hp : c.Passes s₀ i) (h : c.Steps ⟨s, k⟩ { core := s } y) (v : Counted c K s) :
    Counted c K y.core := by
  have hround : s.gcRound = s₀.gcRound := ha.rounds.1.trans (receive_rounds s₀ i).1
  have hy : VotesAt (c.dagProtocol = .shortfin) K y :=
    Steps.votes hgenesis (fun h hg => ?_) hbind (o.tidy k) h
      { v with assembled := by simp, targets := by simp, targetRound := by simp }
  · refine { hy with clock := ?_ }
    rw [h.grows.gcRound, h.grows.consensusRound]
    exact v.clock
  · have hb := Input.brings_of_calls hk hg
    exact ⟨hi.2 h hb, hround.le.trans (le_of_passes hp hi.1 hb)⟩

omit [Crypto] in
theorem Counted.receive (hi : Expected K s i) (v : Counted c K s) :
    Counted c K (c.receive s i) := by
  refine { v.toVotes.receive hi with clock := ?_ }
  rw [(receive_rounds s i).1, (receive_rounds s i).2]
  exact v.clock

theorem Counted.cleanupStep (hbind : c.dagProtocol = .shortfin → OneRound K)
    (v : Counted c K s) : Counted c K (c.cleanupStep s) := by
  unfold CoreConfig.cleanupStep
  split_ifs
  · exact { v.toVotes.cleanup hbind v.clock with clock := le_rfl }
  · exact v

theorem Counted.init (hgenesis : ∀ p ∈ c.genesis, K p.header) : Counted c K c.init :=
  { knows_init hgenesis with
    remembered := by simp [CoreConfig.init]
    once := by simp [CoreConfig.init, SignsOnce]
    ownRound := by simp [CoreConfig.init]
    stateRound := by simp [CoreConfig.init]
    clock := Nat.zero_le _ }

end Once

/-- The headers a run may meet. -/
def Met (c : CoreConfig) (inputs : List Input) (h : Header) : Prop :=
  (∃ i ∈ inputs, i.Brings h) ∨ ∃ p ∈ c.genesis, p.header = h

theorem counted_run {inputs : List Input} (hbind : c.dagProtocol = .shortfin → OneRound (c.Met inputs))
    (htimely : c.Throughout Timely inputs) : Counted c (c.Met inputs) (c.run inputs).2 := by
  have hgenesis : ∀ p ∈ c.genesis, c.Met inputs p.header := fun p hp => .inr ⟨p, hp, rfl⟩
  have hexpected : c.Throughout (Expected (c.Met inputs)) inputs := fun before i after s he hrun =>
    ⟨htimely before i after s he hrun, fun h hb => .inl ⟨i, by simp [he], hb⟩⟩
  have hkept : c.Kept (Expected (c.Met inputs)) (Counted c (c.Met inputs)) :=
    { steps := fun hi ha o hk hp h v => v.steps hgenesis hbind hi ha o hk hp h
      pend := fun _ v => { v with }
      send := fun _ _ v => { v with }
      receive := fun hi v => v.receive hi
      cleanup := fun v => v.cleanupStep hbind
      clock := fun hi v => { v with clock := v.clock.trans (Nat.sub_le_sub_right hi.1 _) } }
  exact hkept.run (.init hgenesis) hexpected

/-- In a run the core signs no two votes for different headers of one round and author, as long as no
header from a waiter or the proposer is below the round it has cleaned up to. -/
theorem signsOnce_run {inputs : List Input}
    (hbind : c.dagProtocol = .shortfin → OneRound (c.Met inputs))
    (htimely : c.Throughout Timely inputs) : SignsOnce (c.run inputs).2.signedVotes :=
  (counted_run hbind htimely).once

/-- Two headers of one author and round, and one of the node. -/
def inputsOfFour : List Input :=
  [.message (.header (headerOfFour 1 ∅)), .headerWaiter (headerOfFour 1 (SortedMap.ofList [(7, 0)])),
    .proposer (headerOfFour 0 ∅)]

theorem timely_inputsOfFour (h : (c.run (inputsOfFour.take 1)).2.gcRound ≤ 1)
    (h' : (c.run (inputsOfFour.take 2)).2.gcRound ≤ 1) : c.Throughout Timely inputsOfFour := by
  have hone : c.Throughout Timely ([] ++ [Input.message (.header (headerOfFour 1 ∅))]) :=
    Throughout.nil.concat trivial
  have htwo : c.Throughout Timely ([Input.message (.header (headerOfFour 1 ∅))] ++
      [Input.headerWaiter (headerOfFour 1 (SortedMap.ofList [(7, 0)]))]) := Throughout.concat hone h
  exact Throughout.concat htwo h'

omit [Crypto] in
/-- Of two headers of one author and round the core votes for one, and for one of its own. -/
theorem signsOnce_run_four : letI := toyCrypto
    SignsOnce ((nodeOfFour .narwhal).run inputsOfFour).2.signedVotes ∧
      ((nodeOfFour .narwhal).run inputsOfFour).2.signedVotes.length = 2 := by
  have hrun : letI := toyCrypto
      ((nodeOfFour .narwhal).run (inputsOfFour.take 1)).2.gcRound ≤ 1 ∧
        ((nodeOfFour .narwhal).run (inputsOfFour.take 2)).2.gcRound ≤ 1 ∧
        ((nodeOfFour .narwhal).run inputsOfFour).2.signedVotes.length = 2 := by decide +kernel
  have hp : (nodeOfFour .narwhal).dagProtocol ≠ .shortfin := by simp [nodeOfFour]
  exact ⟨@signsOnce_run toyCrypto _ _ (fun h => absurd h hp)
    (@timely_inputsOfFour toyCrypto _ hrun.1 hrun.2.1), hrun.2.2⟩

end CoreConfig

end NovelDag
