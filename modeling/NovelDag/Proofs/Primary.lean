import NovelDag.Primary
import NovelDag.Proofs.Proposer

/-!
# The headers of a primary

However the turns of its tasks are interleaved, the core and the proposer have each made a run of their
own, and what the proposer was signalled is what the core has sent. So what the core keeps and what
the proposer keeps hold together: the headers of a primary are of increasing rounds, and each has a
quorum behind it.
-/

namespace NovelDag

open Handler

namespace PrimaryConfig

variable [Crypto] {c : PrimaryConfig} {s t : Primary} {move : Move} {moves : List Move}
  {P : Core → CoreConfig.Input → Prop} {inputs : List CoreConfig.Input}
  {events : List ProposerConfig.Event}

/-! ## Turns -/

section Turns

/-- What a move does. -/
inductive Does (c : PrimaryConfig) (s : Primary) (move : Move) : Primary → Prop
  | core {i k t} (hi : coreInput s move = some i)
      (h : c.stepCore { s with headersReceived := k } i = some t) : Does c s move t
  | proposer {event t} (hs : s.proposer.signals ++ event.signals <+: s.core.toProposer)
      (h : c.stepProposer s event = some t) : Does c s move t
  | collector {certificate t} (h : c.collect s certificate = some t) : Does c s move t

theorem step_does (hs : s.proposer.signals <+: s.core.toProposer) (h : c.step s move = some t) :
    c.Does s move t := by
  have hnone : ∀ {event : ProposerConfig.Event}, event.signals = [] →
      s.proposer.signals ++ event.signals <+: s.core.toProposer := fun he => by
    rw [he, List.append_nil]
    exact hs
  unfold step at h
  split at h
  · obtain ⟨signal, hsignal, h⟩ := Option.bind_eq_some_iff.1 h
    refine .proposer ?_ h
    -- The next signal is the one after those received.
    obtain ⟨rest, hrest⟩ := hs
    rw [← hrest, List.getElem?_append_right le_rfl, Nat.sub_self] at hsignal
    obtain ⟨rest', rfl⟩ : ∃ rest', rest = signal :: rest' := by
      rcases rest with _ | ⟨τ, rest⟩
      · simp at hsignal
      · exact ⟨rest, congrArg (· :: rest) (by simpa using hsignal)⟩
    exact ⟨rest', by rw [← hrest, List.append_assoc]; rfl⟩
  · exact .proposer (hnone rfl) h
  · exact .proposer (hnone rfl) h
  · exact .collector h
  · obtain ⟨i, hi, h⟩ := Option.bind_eq_some_iff.1 h
    exact .core hi h
  · obtain ⟨i, hi, h⟩ := Option.bind_eq_some_iff.1 h
    exact .core (k := s.headersReceived) hi h

end Turns

/-! ## Runs -/

section Runs

/-- The core has run on some inputs, each of which satisfied `P` where it came, the proposer on some
events, and the signals among these are what the core sent. -/
structure Traced (c : PrimaryConfig) (P : Core → CoreConfig.Input → Prop) (s : Primary)
    (inputs : List CoreConfig.Input) (events : List ProposerConfig.Event) : Prop where
  core : (c.core.run inputs).2 = s.core
  running : s.corePanicked = false → c.core.run inputs = (.ok (), s.core)
  within : c.core.Throughout P inputs
  proposer : c.proposer.run events = .ok s.proposer
  signals : events.flatMap ProposerConfig.Event.signals <+: s.core.toProposer
  clock : s.core.consensusRound ≤ s.lastCommittedRound

theorem traced_init : Traced c P c.init [] [] where
  core := rfl
  running _ := rfl
  within := .nil
  proposer := rfl
  signals := List.nil_prefix
  clock := le_rfl

theorem Traced.received (h : Traced c P s inputs events) :
    s.proposer.signals <+: s.core.toProposer := by
  rw [(ProposerConfig.run_logs h.proposer).2]
  exact h.signals

/-- The clock of the core stands where it was last set. -/
theorem input_clock {cc : CoreConfig} {core : Core} {i : CoreConfig.Input} {bound : ℕ}
    (o : CoreConfig.Orderly cc core) (hi : ∀ round, i = .consensusRound round → round ≤ bound)
    (h : core.consensusRound ≤ bound) :
    (exec (cc.handleInput i) core).2.consensusRound ≤ bound := by
  have hkept : cc.Kept (fun _ i => ∀ round, i = .consensusRound round → round ≤ bound)
      fun core => core.consensusRound ≤ bound := by
    refine ⟨fun _ _ _ _ _ hy ht => hy.grows.consensusRound.trans_le ht, fun _ ht => ht,
      fun _ _ ht => ht, fun {u i} _ ht => ?_, fun {u} ht => ?_, fun hi _ => hi _ rfl⟩
    · cases i with
      | _ => exact ht
    · unfold CoreConfig.cleanupStep
      split_ifs
      · exact ht
      · exact ht
  exact hkept.input hi o h

theorem Traced.stepCore (h : Traced c P s inputs events) {i : CoreConfig.Input} (hi : P s.core i)
    (hclock : ∀ round, i = .consensusRound round → round ≤ s.lastCommittedRound)
    (hs : c.stepCore s i = some t) : Traced c P t (inputs ++ [i]) events := by
  unfold PrimaryConfig.stepCore at hs
  split_ifs at hs with hp
  have hrun := h.running (by simpa using hp)
  have o := CoreConfig.run_orderly hrun
  have hnext := CoreConfig.run_append_singleton (i := i) hrun
  have hwithin : c.core.Throughout P (inputs ++ [i]) := h.within.concat (by rw [h.core]; exact hi)
  have hsignals := CoreConfig.input_signals o i
  have hclock' := input_clock o hclock h.clock
  rcases hx : exec (c.core.handleInput i) s.core with ⟨e | ⟨⟩, core⟩ <;>
    rw [hx] at hs hnext hsignals hclock' <;> obtain rfl := Option.some.inj hs
  · exact ⟨congrArg Prod.snd hnext, by simp, hwithin, h.proposer, h.signals.trans hsignals, hclock'⟩
  · exact ⟨congrArg Prod.snd hnext, fun _ => hnext, hwithin, h.proposer,
      h.signals.trans hsignals, hclock'⟩

theorem Traced.stepProposer (h : Traced c P s inputs events) {event : ProposerConfig.Event}
    (hsignals : s.proposer.signals ++ event.signals <+: s.core.toProposer)
    (hs : c.stepProposer s event = some t) : ∃ events, Traced c P t inputs events := by
  unfold PrimaryConfig.stepProposer at hs
  split_ifs at hs
  rcases hstep : c.proposer.step s.proposer event with e | proposer <;> rw [hstep] at hs <;>
    obtain rfl := Option.some.inj hs
  · exact ⟨events, { h with }⟩
  · refine ⟨events ++ [event], { h with proposer := ?_, signals := ?_ }⟩
    · exact Runs.foldlM_concat_eq_ok.2 ⟨_, h.proposer, hstep⟩
    · rw [List.flatMap_append, List.flatMap_singleton, ← (ProposerConfig.run_logs h.proposer).2]
      exact hsignals

theorem Traced.collect (h : Traced c P s inputs events) {certificate : Certificate}
    (hP : ∀ core round, core.consensusRound ≤ round → P core (.consensusRound round))
    (hs : c.collect s certificate = some t) : ∃ inputs, Traced c P t inputs events := by
  unfold PrimaryConfig.collect at hs
  simp only [] at hs
  split_ifs at hs with hlt hp
  · obtain rfl := Option.some.inj hs
    exact ⟨inputs, { h with clock := h.clock.trans hlt.le }⟩
  · have hle := h.clock.trans hlt.le
    have h' : Traced c P { s with lastCommittedRound := certificate.round } inputs events :=
      { h with clock := hle }
    exact ⟨_, h'.stepCore (hP _ _ hle)
      (fun round he => (CoreConfig.Input.consensusRound.inj he).ge) hs⟩
  · obtain rfl := Option.some.inj hs
    exact ⟨inputs, h⟩

/-- What comes to the core in the moves of a run satisfies a condition where it comes. -/
def Throughout (c : PrimaryConfig) (P : Core → CoreConfig.Input → Prop) (moves : List Move) : Prop :=
  ∀ before move after s i, moves = before ++ move :: after → c.run before = some s →
    coreInput s move = some i → P s.core i

/-- In every interleaving the tasks have made runs of their own. -/
theorem traced_run (hP : ∀ core round, core.consensusRound ≤ round → P core (.consensusRound round))
    (hmoves : c.Throughout P moves) (h : c.run moves = some s) :
    ∃ inputs events, Traced c P s inputs events := by
  have hall := Runs.foldlM_some_induction (P := fun before s =>
    c.run before = some s ∧ (before <+: moves → ∃ inputs events, Traced c P s inputs events))
    ⟨rfl, fun _ => ⟨[], [], traced_init⟩⟩ (fun before move s t ⟨hrun, hs⟩ ht => ?_) h
  · exact hall.2 List.prefix_rfl
  refine ⟨Runs.foldlM_concat_eq_some.2 ⟨s, hrun, ht⟩, fun ⟨after, he⟩ => ?_⟩
  rw [List.append_assoc, List.singleton_append] at he
  obtain ⟨inputs, events, hs⟩ := hs ⟨move :: after, he⟩
  have hdoes := step_does hs.received ht
  cases hdoes with
  | @core i k t hi ht =>
    have hs' : Traced c P { s with headersReceived := k } inputs events := { hs with }
    refine ⟨_, events, hs'.stepCore (hmoves before move after s i he.symm hrun hi) ?_ ht⟩
    -- Only the garbage collector sets the clock.
    rintro round rfl
    cases move with
    | message m => cases m <;> cases hi
    | headerWaiter h =>
      simp only [coreInput] at hi
      split_ifs at hi
      cases hi
    | certificateWaiter x =>
      simp only [coreInput] at hi
      split_ifs at hi
      cases hi
    | header =>
      obtain ⟨h, -, hi⟩ := Option.map_eq_some_iff.1 hi
      cases hi
    | _ => cases hi
  | proposer hsignals ht => exact ⟨inputs, hs.stepProposer hsignals ht⟩
  | collector ht =>
    obtain ⟨inputs, h⟩ := hs.collect hP ht
    exact ⟨inputs, events, h⟩

/-- In every interleaving, whatever comes to the core. -/
theorem traced (h : c.run moves = some s) :
    ∃ inputs events, Traced c (fun _ _ => True) s inputs events :=
  traced_run (fun _ _ _ => trivial) (fun _ _ _ _ _ _ _ _ => trivial) h

end Runs

/-! ## Rounds -/

section Rounds

/-- What comes to the core is not below the round it has cleaned up to, and not of round zero. -/
def Prompt (c : PrimaryConfig) (moves : List Move) : Prop := c.Throughout CoreConfig.Later moves

omit [Crypto] in
theorem onceEach_of_increasing {signals : List ProposerSignal}
    (h : (signals.map ProposerSignal.round).Pairwise (· < ·))
    (htwo : ∀ signal ∈ signals, 2 ≤ signal.round) : ProposerConfig.OnceEach signals :=
  ⟨h.imp Nat.ne_of_lt, htwo⟩

/-- The core signals no round twice. -/
theorem onceEach_signals (hself : ¬ ProposerConfig.SelfPaced c.dagProtocol)
    (hprompt : c.dagProtocol = .narwhal → c.Prompt moves) (h : c.run moves = some s) :
    ∃ inputs events, Traced c (fun _ _ => True) s inputs events ∧
      ProposerConfig.OnceEach s.core.toProposer := by
  by_cases hp : c.dagProtocol = .narwhal
  · obtain ⟨inputs, events, ht⟩ := traced_run (fun core round hle => ⟨hle, by simp [
      CoreConfig.Input.Brings]⟩) (hprompt hp) h
    have v := CoreConfig.signalled_run hp ht.within
    rw [ht.core] at v
    refine ⟨inputs, events, { ht with within := fun _ _ _ _ _ _ => trivial }, v.nodup,
      fun σ hσ => ?_⟩
    obtain ⟨r, hr, hpos, -⟩ := v.quiet σ hσ
    omega
  · obtain ⟨inputs, events, ht⟩ := traced h
    have hu : c.core.dagProtocol.isUncertifiedDag = true := by
      change c.dagProtocol.isUncertifiedDag = true
      revert hself hp
      cases c.dagProtocol <;> simp [ProposerConfig.SelfPaced, DagProtocol.isUncertifiedDag]
    have v := CoreConfig.signalling_run hu inputs
    rw [ht.core] at v
    exact ⟨inputs, events, ht, onceEach_of_increasing v.increasing fun σ hσ => (v.bounded σ hσ).1⟩

/-- A primary makes no two headers of one round: in every interleaving their rounds increase. In
Narwhal this needs that nothing comes to the core of round zero or below the round cleaned up to. -/
theorem headers_increase (h : c.run moves = some s)
    (hprompt : c.dagProtocol = .narwhal → c.Prompt moves) :
    (s.proposer.toCore.map Header.round).Pairwise (· < ·) := by
  by_cases hself : ProposerConfig.SelfPaced c.dagProtocol
  · obtain ⟨inputs, events, ht⟩ := traced h
    exact ProposerConfig.rounds_increase ht.proposer fun hns => absurd hself hns
  · obtain ⟨inputs, events, ht, ho⟩ := onceEach_signals hself hprompt h
    refine ProposerConfig.rounds_increase ht.proposer fun _ => ?_
    obtain ⟨rest, hrest⟩ := ht.signals
    rw [← hrest] at ho
    exact ho.of_append

/-- A primary of a committee of four. -/
def primaryOfFour (dagProtocol : DagProtocol) : PrimaryConfig where
  name := 0
  committee := .uniform 4
  dagProtocol
  consensusProtocol := .roundRobin
  gcDepth := 50
  headerSize := 1000
  coinCommittee := ⟨[0, 1, 2, 3], CoinCommittee.four_ne_nil⟩
  coin := ⟨fun _ _ => none, fun _ _ => none⟩
  order := HashOrder.entryOrder
  payloads _ := ∅

/-- The certificate of an author's block on the genesis certificates. -/
def certificateBy (author : PublicKey) : Certificate where
  header := CoreConfig.headerOfFour author ∅
  votes := ([0, 1, 2, 3].filter (· ≠ author)).map (Vote.new (CoreConfig.headerOfFour author ∅) 1)

/-- A header on the genesis certificates, three certificates, and a header on these. -/
def movesOfFour : List Move :=
  [.timer, .message (.certificate (certificateBy 1)), .message (.certificate (certificateBy 2)),
    .message (.certificate (certificateBy 3)), .signal, .timer]

theorem prompt_movesOfFour : (primaryOfFour .narwhal).Prompt movesOfFour := by
  intro before move after s i he _ hi
  have hmem : move ∈ movesOfFour := by simp [he]
  have hlater : ∀ author,
      CoreConfig.Later s.core (.message (.certificate (certificateBy author))) := fun author =>
    ⟨trivial, fun h hb => hb ▸ le_rfl⟩
  simp only [movesOfFour, List.mem_cons, List.not_mem_nil, or_false] at hmem
  rcases hmem with rfl | rfl | rfl | rfl | rfl | rfl <;> cases hi <;> exact hlater _

omit [Crypto] in
theorem run_movesOfFour : letI := toyCrypto
    ∃ s, (primaryOfFour .narwhal).run movesOfFour = some s ∧
      s.proposer.toCore.map Header.round = [1, 2] := by
  have hrun : letI := toyCrypto
      ((primaryOfFour .narwhal).run movesOfFour).map (fun s => s.proposer.toCore.map Header.round) =
        some [1, 2] := by decide +kernel
  exact Option.map_eq_some_iff.1 hrun

omit [Crypto] in
theorem headers_increase_four : letI := toyCrypto
    ∃ s, (primaryOfFour .narwhal).run movesOfFour = some s ∧
      (s.proposer.toCore.map Header.round).Pairwise (· < ·) := by
  obtain ⟨s, hs, -⟩ := run_movesOfFour
  exact ⟨s, hs, @headers_increase toyCrypto _ _ _ hs fun _ => @prompt_movesOfFour toyCrypto⟩

end Rounds

/-! ## Parents -/

section Parents

/-- The parents of a header are certificates of a quorum, and a Shortfin header carries the author's
certificate of the round before. -/
def Grounded (c : PrimaryConfig) (round : ℕ) (parents : List Digest) (qc : Option EmbeddedQc) : Prop :=
  c.core.Backed round parents ∧
    (c.dagProtocol = .shortfin → round = 1 ∨ c.core.CarriesQc round qc)

omit [Crypto] in
theorem gathers_genesis (hv : 0 < c.committee.totalVotes) :
    CoreConfig.Gathers c.core 0 (Certificate.genesis c.committee) := by
  have hnames : (Certificate.genesis c.committee).map Certificate.origin = c.committee.names := by
    rw [Certificate.genesis, List.map_map]
    exact List.map_id _
  refine ⟨?_, fun x hx => ?_⟩
  · rw [hnames]
    change c.committee.quorumThreshold ≤ Weighted.weight c.committee.stake c.committee.members
    rw [← c.committee.totalVotes_eq_weight, Committee.quorumThreshold]
    omega
  · obtain ⟨name, -, rfl⟩ := List.mem_map.1 hx
    rfl

/-- Certificates of a quorum are behind the block on them. -/
theorem backed_of_gathers {round : ℕ} {certificates : List Certificate}
    (h : CoreConfig.Gathers c.core round certificates) :
    c.core.Backed (round + 1) (certificates.map Certificate.digest) :=
  ⟨certificates, h.1, fun x hx => ⟨List.mem_map_of_mem hx, (congrArg Nat.succ (h.2 x hx)).ge,
    fun _ => congrArg Nat.succ (h.2 x hx)⟩⟩

theorem parents_ne_nil {round : ℕ} {parents : List Digest} (h : c.core.Backed round parents) :
    parents ≠ [] := by
  obtain ⟨certificates, hq, hmem⟩ := h
  rintro rfl
  rcases certificates with _ | ⟨x, certificates⟩
  · exact absurd hq (not_le.2 c.committee.quorumThreshold_pos)
  · exact absurd (hmem x List.mem_cons_self).1 (List.not_mem_nil)

/-- The parents that are signalled, and the certificate of the author, in a protocol whose proposer
does not advance by itself. -/
theorem grounded_signals (hself : ¬ ProposerConfig.SelfPaced c.dagProtocol)
    (ht : Traced c P s inputs events) : ∀ signal ∈ events.flatMap ProposerConfig.Event.signals,
      c.Grounded signal.round signal.parents1 (ProposerConfig.headerQc c.proposer signal.qc) ∧
        (c.dagProtocol = .shortfin → signal.parents1 ≠ [] ∧ signal.qc.isSome) := by
  intro signal hsignal
  have hmem : signal ∈ s.core.toProposer := ht.signals.subset hsignal
  by_cases hp : c.dagProtocol = .narwhal
  · have v := CoreConfig.tallied_run (c := c.core) hp inputs
    rw [ht.core] at v
    exact ⟨⟨v.backed signal hmem, fun he => absurd (hp.symm.trans he) (by simp)⟩,
      fun he => absurd (hp.symm.trans he) (by simp)⟩
  · have hu : c.core.dagProtocol.isUncertifiedDag = true := by
      change c.dagProtocol.isUncertifiedDag = true
      revert hself hp
      cases c.dagProtocol <;> simp [ProposerConfig.SelfPaced, DagProtocol.isUncertifiedDag]
    have v := CoreConfig.signalling_run hu inputs
    rw [ht.core] at v
    obtain ⟨hb, hqc⟩ := v.backed signal hmem
    have hheader : c.dagProtocol = .shortfin →
        ProposerConfig.headerQc c.proposer signal.qc = signal.qc := fun he =>
      if_pos (by
        change c.dagProtocol.isShortfinFamily = true
        rw [he]
        rfl)
    refine ⟨⟨hb, fun he => .inr ?_⟩, fun he => ⟨parents_ne_nil hb, ?_⟩⟩
    · rw [hheader he]
      exact hqc he
    · obtain ⟨own, -, -, -, hq⟩ := hqc he
      rw [hq]
      rfl

/-- In every interleaving each header of a primary has a quorum behind it, and in Shortfin carries a
certificate of the author's block of the round before. -/
theorem headers_grounded (hp : c.dagProtocol ≠ .wahoo) (hv : 0 < c.committee.totalVotes)
    (h : c.run moves = some s) {header : Header} (hh : header ∈ s.proposer.toCore) :
    ∃ parents, header.parents = SortedSet.ofList parents ∧
      c.Grounded header.round parents header.qc := by
  obtain ⟨inputs, events, ht⟩ := traced h
  by_cases hb : c.dagProtocol = .bullshark
  · have v := CoreConfig.opening_run (c := c.core) hb inputs
    rw [ht.core] at v
    obtain ⟨rest, hrest⟩ := ht.signals
    have ho := v.opens
    rw [← hrest] at ho
    have hg := ProposerConfig.gathered_run (c := c.proposer) (Q := CoreConfig.Gathers c.core) hb
      (fun _ hnil => absurd hnil.1 (not_le.2 c.committee.quorumThreshold_pos))
      (fun r l l' hl hl' => ⟨hl.1.trans (Weighted.weight_mono _ ?_), ?_⟩) (gathers_genesis hv)
      ht.proposer ho.of_append
    · obtain ⟨r, certificates, hround, hq, hparents⟩ := hg.headers header hh
      have hbacked := backed_of_gathers hq
      rw [← hround] at hbacked
      refine ⟨_, hparents, hbacked, fun he => ?_⟩
      exact absurd (hb.symm.trans he) (by simp)
    · rw [List.map_append, List.toFinset_append]
      exact Finset.subset_union_left
    · intro x hx
      rcases List.mem_append.1 hx with hx | hx
      · exact hl.2 x hx
      · exact hl' x hx
  · have hself : ¬ ProposerConfig.SelfPaced c.dagProtocol := fun hs => hs.elim hb hp
    have hs := ProposerConfig.supported_run (c := c.proposer) (P := c.Grounded) hself ht.proposer
      ⟨backed_of_gathers (gathers_genesis hv), fun _ => .inl rfl⟩ (grounded_signals hself ht)
    obtain ⟨parents, hg, hparents⟩ := hs.headers header hh
    exact ⟨parents, hparents, hg⟩

omit [Crypto] in
/-- The header of round two has three certificates of round one as parents. -/
theorem headers_grounded_four : letI := toyCrypto
    ∃ s header, (primaryOfFour .narwhal).run movesOfFour = some s ∧ header ∈ s.proposer.toCore ∧
      header.round = 2 ∧ ∃ parents, header.parents = SortedSet.ofList parents ∧
        (primaryOfFour .narwhal).Grounded header.round parents header.qc := by
  obtain ⟨s, hs, hrounds⟩ := run_movesOfFour
  obtain ⟨header, hmem, hround⟩ : ∃ header ∈ s.proposer.toCore, header.round = 2 :=
    List.mem_map.1 (hrounds ▸ by simp)
  exact ⟨s, header, hs, hmem, hround, @headers_grounded toyCrypto _ _ _ (by simp [primaryOfFour])
    (by decide) hs _ hmem⟩

end Parents

end PrimaryConfig

end NovelDag
