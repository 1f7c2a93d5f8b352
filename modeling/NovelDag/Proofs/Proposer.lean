import NovelDag.Proposer
import NovelDag.Lib.Packing
import NovelDag.Lib.Runs
import NovelDag.Proofs.CoreSignals

/-!
# Headers of the proposer

Each digest of a worker goes into one header, in the order in which it came. A header is made for a
round only once as long as no round is signalled twice.
-/

namespace NovelDag

open Fallible

namespace ProposerConfig

variable [Crypto] {c : ProposerConfig} {s t : Proposer} {event : Event} {events : List Event}

/-! ## Turns -/

/-- The proposer when it takes its parents for the next round of Bullshark. -/
def advanced (s : Proposer) : Proposer :=
  { s with
    round := s.round + 1
    parents1 := s.lastParentCerts.map Certificate.digest
    lastParentCerts := [] }

/-- In Bullshark the proposer advances by itself. -/
def SelfPaced (p : DagProtocol) : Prop := p = .bullshark ∨ p = .wahoo

/-- A protocol whose blocks have the parents that are signalled, and no QC. -/
def PlainDag (p : DagProtocol) : Prop := p = .narwhal ∨ p.isMahiMahi = true

omit [Crypto] in
theorem PlainDag.not_selfPaced {p : DagProtocol} (hp : PlainDag p) : ¬ SelfPaced p := by
  rintro (rfl | rfl) <;> exact absurd hp (by simp [PlainDag, DagProtocol.isMahiMahi,
    DagProtocol.mahiMahiWaveLength])

/-- What the top of the loop does. -/
inductive Proposes (c : ProposerConfig) (s : Proposer) : Proposer → Prop
  | waits : Proposes c s s
  | makes (hp : ¬ SelfPaced c.dagProtocol) (hparents : s.parents1 ≠ [])
      (hqc : c.dagProtocol = .shortfin → s.round < 2 ∨ s.lastQc.isSome) :
      Proposes c s { c.makeHeader s with timerExpired := false }
  | advances (hp : SelfPaced c.dagProtocol)
      (hcerts : s.lastParentCerts ≠ []) (hready : s.timerExpired = true ∨ s.advance = true) :
      Proposes c s { c.makeHeader (advanced s) with timerExpired := false }

theorem propose_cases (c : ProposerConfig) (s : Proposer) : c.Proposes s (c.propose s) := by
  unfold propose
  simp only []
  rcases hp : c.dagProtocol <;> simp only []
  case shortfin =>
    split
    · next h =>
      simp only [Bool.and_eq_true, Bool.or_eq_true, decide_eq_true_eq] at h
      exact .makes (by simp [hp, SelfPaced]) (by simpa using h.1.2) fun _ => h.2
    · exact .waits
  case narwhal | mahiMahi | mahiMahi4 | mahiMahi5 =>
    split
    · next h =>
      simp only [Bool.and_eq_true] at h
      exact .makes (by simp [hp, SelfPaced]) (by simpa using h.2) fun he => by simp [hp] at he
    · exact .waits
  case bullshark | wahoo =>
    split
    · next h =>
      simp only [Bool.and_eq_true, Bool.or_eq_true] at h
      exact .advances (by simp [hp, SelfPaced]) (by simpa using h.2) (h.1.imp_right And.right)
    · exact .waits

/-- A turn handles its event and then looks whether to propose. -/
theorem step_eq_ok : c.step s event = .ok t ↔ ∃ u, c.handle s event = .ok u ∧ c.propose u = t := by
  unfold step
  rcases c.handle s event with e | u <;> simp [Except.map]

/-- What the first look keeps of `spawn`, and every turn keeps, holds in every state a run ends in. -/
theorem run_keeps {P : Proposer → Prop} (h0 : P c.spawn) (hpropose : ∀ s, P s → P (c.propose s))
    (hhandle : ∀ s event t, event ∈ events → P s → c.handle s event = .ok t → P t)
    (h : c.run events = .ok t) : P t := by
  refine Runs.foldlM_induction (hpropose _ h0) (fun s event t he hs ht => ?_) h
  obtain ⟨u, hu, rfl⟩ := step_eq_ok.1 ht
  exact hpropose u (hhandle s event u he hs hu)

/-- The proposer with a signal in its log. -/
def log (signal : ProposerSignal) (s : Proposer) : Proposer :=
  { s with signals := s.signals ++ [signal] }

/-- What an event does. -/
inductive Handles (c : ProposerConfig) (s : Proposer) : Event → Proposer → Prop
  | digest digest workerId : Handles c s (.digest digest workerId)
      { s with
        payloadSize := s.payloadSize + digest.size
        digests := s.digests ++ [(digest, workerId)]
        received := s.received ++ [(digest, workerId)] }
  | timer : Handles c s .timer { s with timerExpired := true }
  | ignore signal (hp : ¬ SelfPaced c.dagProtocol) (h : signal.round < s.round) :
      Handles c s (.signal signal) (log signal s)
  | parents signal (hp : PlainDag c.dagProtocol) (h : s.round ≤ signal.round) :
      Handles c s (.signal signal)
        { log signal s with round := signal.round, parents1 := signal.parents1 }
  | qc signal (hp : c.dagProtocol = .shortfin) (h : s.round ≤ signal.round) :
      Handles c s (.signal signal)
        { log signal s with
          round := signal.round
          parents1 := if signal.parents1.isEmpty then s.parents1 else signal.parents1
          parents2 := if signal.parents2.isEmpty then s.parents2 else signal.parents2
          lastQc := if signal.qc.isSome then signal.qc else s.lastQc }
  | certificates signal {t} (hp : SelfPaced c.dagProtocol)
      (h : c.updateAdvance (mergeParents signal (log signal s)) = .ok t) :
      Handles c s (.signal signal) t

theorem handle_cases (h : c.handle s event = .ok t) : c.Handles s event t := by
  cases event with
  | signal signal =>
    change c.handleSignal signal (log signal s) = .ok t at h
    unfold handleSignal at h
    rcases hp : c.dagProtocol <;> simp only [hp] at h
    case shortfin =>
      split at h <;> cases h
      · next hlt => exact .ignore signal (by simp [hp, SelfPaced]) hlt
      · next hle => exact .qc signal hp (not_lt.1 hle)
    case narwhal | mahiMahi | mahiMahi4 | mahiMahi5 =>
      split at h <;> cases h
      · next hlt => exact .ignore signal (by simp [hp, SelfPaced]) hlt
      · next hle => exact .parents signal (by simp [PlainDag, hp, DagProtocol.isMahiMahi,
          DagProtocol.mahiMahiWaveLength]) (not_lt.1 hle)
    case bullshark | wahoo => exact .certificates signal (by simp [hp, SelfPaced]) h
  | digest digest workerId =>
    cases h
    exact .digest digest workerId
  | timer =>
    cases h
    exact .timer

/-- Whether to advance is all that is updated. -/
theorem updateAdvance_eq (h : c.updateAdvance s = .ok t) :
    ∃ lastLeader advance, t = { s with lastLeader, advance } := by
  unfold updateAdvance at h
  split at h
  · obtain ⟨lastLeader, -, h⟩ := bind_eq_ok.1 h
    exact ⟨lastLeader, _, (Except.ok.inj h).symm⟩
  · exact ⟨s.lastLeader, _, (Except.ok.inj h).symm⟩

omit [Crypto] in
/-- The parents of a Bullshark block are those signalled for the latest round. -/
theorem mergeParents_cases (signal : ProposerSignal) (s : Proposer) :
    (s.round < signal.round ∧ mergeParents signal s =
      { s with round := signal.round, lastParentCerts := signal.certificates1 }) ∨
    (signal.round < s.round ∧ mergeParents signal s = s) ∨
    (signal.round = s.round ∧ mergeParents signal s =
      { s with lastParentCerts := s.lastParentCerts ++ signal.certificates1 }) := by
  unfold mergeParents
  split_ifs with hlt hgt
  · exact .inl ⟨hlt, rfl⟩
  · exact .inr (.inl ⟨hgt, rfl⟩)
  · exact .inr (.inr ⟨le_antisymm (not_lt.1 hlt) (not_lt.1 hgt), rfl⟩)

/-- The digests that come with an event. -/
def Event.digests : Event → List (Digest × ℕ)
  | .digest received workerId => [(received, workerId)]
  | _ => []

/-- The signals that come with an event. -/
def Event.signals : Event → List ProposerSignal
  | .signal received => [received]
  | _ => []

/-! ## Panics -/

theorem updateLeader_total (h : c.dagProtocol = .bullshark → c.consensusProtocol = .roundRobin →
    2 ≤ s.round) : ∃ leader, c.updateLeader s = .ok leader := by
  unfold updateLeader
  rcases hc : c.consensusProtocol <;> simp only []
  case roundRobin =>
    unfold roundRobinCoin roundRobinSlot
    split_ifs with hp hzero hlt
    · cases hzero
    · exact absurd (h hp hc) (not_le.2 hlt)
    · exact ⟨_, rfl⟩
    · exact ⟨_, rfl⟩
  case pseudoRandom | commonCoin => exact ⟨_, rfl⟩

/-- The proposer does not panic, unless Bullshark elects its leaders in turn and a signal is for round
zero, which has none. -/
theorem run_total (h : c.dagProtocol = .bullshark → c.consensusProtocol = .roundRobin →
    ∀ signal ∈ events.flatMap Event.signals, 1 ≤ signal.round) : ∃ s, c.run events = .ok s := by
  have hhandle : ∀ s event, event ∈ events → ∃ u, c.handle s event = .ok u := by
    intro s event he
    cases event with
    | digest | timer => exact ⟨_, rfl⟩
    | signal signal =>
      have hin : signal ∈ events.flatMap Event.signals :=
        List.mem_flatMap.2 ⟨_, he, List.mem_singleton.2 rfl⟩
      have hadvance : ∃ u, c.updateAdvance (mergeParents signal (log signal s)) = .ok u := by
        unfold updateAdvance
        split_ifs with heven
        · have hle : signal.round ≤ (mergeParents signal (log signal s)).round := by
            rcases mergeParents_cases signal (log signal s) with ⟨-, he⟩ | ⟨hlt, he⟩ | ⟨heq, he⟩ <;>
              rw [he]
            exacts [hlt.le, heq.le]
          have htwo : c.dagProtocol = .bullshark → c.consensusProtocol = .roundRobin →
              2 ≤ (mergeParents signal (log signal s)).round := by
            intro hp hc
            have hone := h hp hc signal hin
            omega
          obtain ⟨leader, hl⟩ := updateLeader_total htwo
          exact ⟨_, bind_eq_ok.2 ⟨leader, hl, rfl⟩⟩
        · exact ⟨_, rfl⟩
      change ∃ u, c.handleSignal signal (log signal s) = .ok u
      unfold handleSignal
      rcases c.dagProtocol <;> simp only []
      case bullshark | wahoo => exact hadvance
      all_goals split <;> exact ⟨_, rfl⟩
  obtain ⟨s, hs, -⟩ := Runs.foldlM_total (P := fun _ => True) (s := c.init) trivial
    fun s event he _ => ⟨_, step_eq_ok.2 ⟨_, (hhandle s event he).choose_spec, rfl⟩, trivial⟩
  exact ⟨s, hs⟩

/-- The proposer of a node of four, with headers of a given size. -/
def ofFour (dagProtocol : DagProtocol) (headerSize : ℕ) : ProposerConfig where
  name := 0
  dagProtocol
  committee := .uniform 4
  consensusProtocol := .roundRobin
  headerSize
  coinCommittee := ⟨[0, 1, 2, 3], CoinCommittee.four_ne_nil⟩
  coin := ⟨fun _ _ => none, fun _ _ => none⟩

/-! ## Payloads -/

section Payloads

omit [Crypto] in
/-- A header takes digests until they reach its size, at least one. -/
theorem takeDigests_spec (headerSize : ℕ) : ∀ (digests : List (Digest × ℕ)) (k n : ℕ),
    ∃ m ≤ digests.length, takeDigests headerSize k n digests = (k + m, n + 32 * m) ∧
      (m = 0 ∨ k + m = 1 ∨ n + 32 * (m - 1) < headerSize) ∧
      (m = digests.length ∨ (0 < k + m ∧ headerSize ≤ n + 32 * m))
  | [], k, n => ⟨0, le_rfl, rfl, .inl rfl, .inl rfl⟩
  | (digest, workerId) :: digests, k, n => by
    rw [takeDigests]
    split_ifs with hstop
    · exact ⟨0, Nat.zero_le _, rfl, .inl rfl, .inr ⟨hstop.1, hstop.2⟩⟩
    · obtain ⟨m, hm, he, hsmall, hfull⟩ := takeDigests_spec headerSize digests (k + 1) (n + 32)
      refine ⟨m + 1, Nat.succ_le_succ hm, ?_, ?_, ?_⟩
      · rw [Digest.size, he]
        exact congrArg₂ Prod.mk (by omega) (by omega)
      · rw [not_and_or, not_lt, not_le] at hstop
        omega
      · rw [List.length_cons]
        omega

/-- What a header takes of the digests that are held. -/
structure Taken (c : ProposerConfig) (s : Proposer) (n : ℕ) : Prop where
  le : n ≤ s.digests.length
  eq : c.makeHeader s = { s with
    digests := s.digests.drop n
    payloadSize := s.payloadSize - 32 * n
    parents1 := []
    toCore := s.toCore ++ [c.header s (SortedMap.ofList (s.digests.take n))] }
  small : n ≤ 1 ∨ 32 * (n - 1) < c.headerSize
  full : n = s.digests.length ∨ (0 < n ∧ c.headerSize ≤ 32 * n)

theorem exists_taken (c : ProposerConfig) (s : Proposer) : ∃ n, c.Taken s n := by
  obtain ⟨n, hle, he, hsmall, hfull⟩ := takeDigests_spec c.headerSize s.digests 0 0
  simp only [Nat.zero_add] at he hsmall hfull
  refine ⟨n, hle, ?_, by omega, hfull⟩
  unfold makeHeader
  rw [he]

/-- The digests received are in the headers, in their order, or held. -/
structure Dealt (c : ProposerConfig) (s : Proposer) (chunks : List (List (Digest × ℕ))) : Prop where
  packed : Packed s.received chunks s.digests
  payloads : s.toCore.map Header.payload = chunks.map SortedMap.ofList
  size : s.payloadSize = 32 * s.digests.length
  small : ∀ chunk ∈ chunks, chunk.length ≤ 1 ∨ 32 * (chunk.length - 1) < c.headerSize

theorem Dealt.makeHeader {chunks : List (List (Digest × ℕ))} (h : Dealt c s chunks) :
    ∃ chunks, Dealt c (c.makeHeader s) chunks := by
  obtain ⟨n, hn⟩ := exists_taken c s
  have hlength : (s.digests.take n).length = n := List.length_take_of_le hn.le
  refine ⟨chunks ++ [s.digests.take n], ?_, ?_, ?_, fun chunk hc => ?_⟩
  · rw [hn.eq]
    exact h.packed.cut n
  · rw [hn.eq, List.map_append, List.map_append, h.payloads]
    rfl
  · rw [hn.eq]
    change s.payloadSize - 32 * n = 32 * (s.digests.drop n).length
    rw [h.size, List.length_drop]
    omega
  · rcases List.mem_append.1 hc with hc | hc
    · exact h.small chunk hc
    · rw [List.mem_singleton.1 hc, hlength]
      exact hn.small

theorem Dealt.propose {chunks : List (List (Digest × ℕ))} (h : Dealt c s chunks) :
    ∃ chunks, Dealt c (c.propose s) chunks := by
  have hmake : ∀ {u : Proposer}, Dealt c u chunks →
      ∃ chunks, Dealt c { c.makeHeader u with timerExpired := false } chunks := fun hu => by
    obtain ⟨chunks, h⟩ := hu.makeHeader
    exact ⟨chunks, { h with }⟩
  have hp := propose_cases c s
  generalize c.propose s = t at hp ⊢
  cases hp with
  | waits => exact ⟨chunks, h⟩
  | makes => exact hmake h
  | advances => exact hmake (u := advanced s) { h with }

theorem Dealt.handle {chunks : List (List (Digest × ℕ))} (h : Dealt c s chunks)
    (ht : c.handle s event = .ok t) : ∃ chunks, Dealt c t chunks := by
  cases handle_cases ht with
  | digest digest workerId =>
    refine ⟨chunks, { h with packed := h.packed.push _, size := ?_ }⟩
    change s.payloadSize + 32 = 32 * (s.digests ++ [_]).length
    rw [h.size, List.length_append, List.length_singleton]
    omega
  | certificates signal _ hu =>
    obtain ⟨_, _, rfl⟩ := updateAdvance_eq hu
    rcases mergeParents_cases signal (log signal s) with ⟨-, he⟩ | ⟨-, he⟩ | ⟨-, he⟩ <;>
      exact ⟨chunks, by rw [he]; exact { h with }⟩
  | timer | ignore | parents | qc => exact ⟨chunks, { h with }⟩

/-- Whether a header is made changes nothing that was recorded. -/
theorem propose_logs (c : ProposerConfig) (s : Proposer) :
    (c.propose s).received = s.received ∧ (c.propose s).signals = s.signals := by
  have hp := propose_cases c s
  generalize c.propose s = t at hp ⊢
  cases hp with
  | waits => exact ⟨rfl, rfl⟩
  | makes | advances => exact ⟨rfl, rfl⟩

/-- A turn records what it is given. -/
theorem step_logs (h : c.step s event = .ok t) :
    t.received = s.received ++ event.digests ∧ t.signals = s.signals ++ event.signals := by
  obtain ⟨u, hu, rfl⟩ := step_eq_ok.1 h
  rw [(propose_logs c u).1, (propose_logs c u).2]
  cases handle_cases hu with
  | digest | timer => exact ⟨by simp [Event.digests], by simp [Event.signals]⟩
  | certificates signal _ h =>
    obtain ⟨_, _, rfl⟩ := updateAdvance_eq h
    rcases mergeParents_cases signal (log signal s) with ⟨-, he⟩ | ⟨-, he⟩ | ⟨-, he⟩ <;>
      · rw [he]
        exact ⟨by simp [Event.digests, log], rfl⟩
  | ignore | parents | qc => exact ⟨by simp [Event.digests, log], rfl⟩

theorem run_logs (h : c.run events = .ok t) : t.received = events.flatMap Event.digests ∧
    t.signals = events.flatMap Event.signals := by
  have key : ∀ (l : List Event) (s : Proposer), l.foldlM c.step s = .ok t →
      t.received = s.received ++ l.flatMap Event.digests ∧
        t.signals = s.signals ++ l.flatMap Event.signals := by
    intro l
    induction l with
    | nil =>
      intro s h
      rw [← Except.ok.inj h]
      simp
    | cons event l ih =>
      intro s h
      obtain ⟨u, hu, h⟩ := bind_eq_ok.1 (List.foldlM_cons.symm.trans h)
      obtain ⟨hr, hs⟩ := ih u h
      obtain ⟨hr', hs'⟩ := step_logs hu
      rw [hr, hs, hr', hs', List.flatMap_cons, List.flatMap_cons, List.append_assoc,
        List.append_assoc]
      exact ⟨rfl, rfl⟩
  obtain ⟨hr, hs⟩ := key events c.init h
  have h0 : c.init.received = [] ∧ c.init.signals = [] := propose_logs c c.spawn
  rw [h0.1, List.nil_append] at hr
  rw [h0.2, List.nil_append] at hs
  exact ⟨hr, hs⟩

/-- The digests of our workers are dealt out to the headers in the order in which they came: each is in
the payload of one header or still held, and no header takes more once it has reached its size. -/
theorem payloads_exact (h : c.run events = .ok s) : ∃ chunks,
    s.toCore.map Header.payload = chunks.map SortedMap.ofList ∧
      Packed (events.flatMap Event.digests) chunks s.digests ∧
      ∀ chunk ∈ chunks, chunk.length ≤ 1 ∨ 32 * (chunk.length - 1) < c.headerSize := by
  have h0 : Dealt c c.spawn [] := ⟨.nil, rfl, rfl, by simp⟩
  obtain ⟨chunks, hd⟩ := run_keeps (P := fun s => ∃ chunks, Dealt c s chunks) ⟨[], h0⟩
    (fun _ ⟨_, hd⟩ => hd.propose) (fun _ _ _ _ ⟨_, hd⟩ ht => hd.handle ht) h
  refine ⟨chunks, hd.payloads, ?_, hd.small⟩
  rw [← (run_logs h).1]
  exact hd.packed

omit [Crypto] in
/-- With room for one digest, the second header takes one of two digests. -/
theorem payloads_exact_four : letI := toyCrypto
    ∃ s, (ofFour .narwhal 32).run [.digest 7 0, .signal { round := 2, parents1 := [1] }, .digest 8 0,
      .digest 9 1] = .ok s ∧ ∃ chunks : List (List (Digest × ℕ)),
        s.toCore.map Header.payload = chunks.map SortedMap.ofList ∧
          chunks.flatten ++ s.digests = [(7, 0), (8, 0), (9, 1)] ∧ s.toCore.length = 2 := by
  have hp : (ofFour .narwhal 32).dagProtocol ≠ .bullshark := by simp [ofFour]
  obtain ⟨s, hs⟩ := @run_total toyCrypto (ofFour .narwhal 32) [.digest 7 0,
    .signal { round := 2, parents1 := [1] }, .digest 8 0, .digest 9 1] fun h => absurd h hp
  have hlength : letI := toyCrypto
      ((ofFour .narwhal 32).run [.digest 7 0, .signal { round := 2, parents1 := [1] },
        .digest 8 0, .digest 9 1]).toOption.map (fun s => s.toCore.length) = some 2 := by
    decide +kernel
  rw [hs] at hlength
  obtain ⟨chunks, hpayload, hpacked, -⟩ := @payloads_exact toyCrypto _ _ _ hs
  exact ⟨s, hs, chunks, hpayload, hpacked.symm, Option.some.inj hlength⟩

end Payloads

/-! ## Rounds -/

section Rounds

/-- No round is signalled twice, and none before the second. -/
structure OnceEach (signals : List ProposerSignal) : Prop where
  nodup : (signals.map ProposerSignal.round).Nodup
  two_le : ∀ signal ∈ signals, 2 ≤ signal.round

/-- The parents that are held are for a round later than that of every header made. -/
structure Fresh (s : Proposer) : Prop where
  increasing : (s.toCore.map Header.round).Pairwise (· < ·)
  le : ∀ h ∈ s.toCore, h.round ≤ s.round
  fresh : s.parents1 ≠ [] → ∀ h ∈ s.toCore, h.round < s.round

/-- The round is the first one, or one that was signalled. -/
def Current (c : ProposerConfig) (s : Proposer) : Prop :=
  SelfPaced c.dagProtocol ∨ s.round = 1 ∨ ∃ signal ∈ s.signals, signal.round = s.round

theorem Fresh.makeHeader (h : Fresh s) (hf : ∀ h ∈ s.toCore, h.round < s.round) :
    Fresh { c.makeHeader s with timerExpired := false } := by
  obtain ⟨n, hn⟩ := exists_taken c s
  rw [hn.eq]
  refine ⟨?_, fun k hk => ?_, fun hne => absurd rfl hne⟩
  · change ((s.toCore ++ [_]).map Header.round).Pairwise _
    rw [List.map_append]
    refine List.pairwise_append.2 ⟨h.increasing, List.pairwise_singleton _ _, fun r hr r' hr' => ?_⟩
    obtain ⟨k, hk, rfl⟩ := List.mem_map.1 hr
    rw [List.mem_singleton.1 hr']
    exact hf k hk
  · rcases List.mem_append.1 hk with hk | hk
    · exact h.le k hk
    · rw [List.mem_singleton.1 hk]
      exact le_rfl

theorem Fresh.propose (h : Fresh s) : Fresh (c.propose s) := by
  have hp := propose_cases c s
  generalize c.propose s = t at hp ⊢
  cases hp with
  | waits => exact h
  | makes _ hparents _ => exact h.makeHeader (h.fresh hparents)
  | advances =>
    have hlt : ∀ k ∈ s.toCore, k.round < s.round + 1 := fun k hk => Nat.lt_succ_of_le (h.le k hk)
    have h' : Fresh (advanced s) := ⟨h.increasing, fun k hk => (hlt k hk).le, fun _ => hlt⟩
    exact h'.makeHeader hlt

theorem Current.propose (h : Current c s) : Current c (c.propose s) := by
  have hp := propose_cases c s
  generalize c.propose s = t at hp ⊢
  cases hp with
  | waits => exact h
  | makes =>
    obtain ⟨n, hn⟩ := exists_taken c s
    rw [hn.eq]
    exact h
  | advances hp => exact .inl hp

omit [Crypto] in
/-- A signal that is not ignored is for a later round. -/
theorem lt_of_current {signal : ProposerSignal} (hp : ¬ SelfPaced c.dagProtocol)
    (hc : Current c s) (ho : OnceEach (s.signals ++ [signal])) (hle : s.round ≤ signal.round) :
    s.round < signal.round := by
  refine lt_of_le_of_ne hle fun he => ?_
  have htwo := ho.two_le signal (by simp)
  rcases hc.resolve_left hp with hone | ⟨τ, hτ, hround⟩
  · omega
  · have hn := ho.nodup
    rw [List.map_append, List.nodup_append] at hn
    exact hn.2.2 _ (List.mem_map_of_mem hτ) _ (by simp) (hround.trans he)

omit [Crypto] in
theorem OnceEach.of_append {signals signals' : List ProposerSignal}
    (h : OnceEach (signals ++ signals')) : OnceEach signals := by
  refine ⟨?_, fun σ hσ => h.two_le σ (List.mem_append_left _ hσ)⟩
  have hn := h.nodup
  rw [List.map_append] at hn
  exact hn.of_append_left

/-- What holds in every state, as long as no round was signalled twice. -/
def Paced (c : ProposerConfig) (s : Proposer) : Prop :=
  (¬ SelfPaced c.dagProtocol → OnceEach s.signals) → Fresh s ∧ Current c s

omit [Crypto] in
/-- With a later round and parents for it. -/
theorem Fresh.later {round : ℕ} (h : Fresh s) (hlt : s.round < round) (t : Proposer)
    (ht : t.toCore = s.toCore ∧ t.round = round) : Fresh t := by
  obtain ⟨hcore, hround⟩ := ht
  have hlt' : ∀ k ∈ t.toCore, k.round < t.round := fun k hk => by
    rw [hcore] at hk
    rw [hround]
    exact (h.le k hk).trans_lt hlt
  exact ⟨hcore ▸ h.increasing, fun k hk => (hlt' k hk).le, fun _ => hlt'⟩

theorem Paced.handle (h : Paced c s) (ht : c.handle s event = .ok t) : Paced c t := by
  intro ho
  cases handle_cases ht with
  | digest | timer =>
    obtain ⟨hf, hc⟩ := h ho
    exact ⟨{ hf with }, hc⟩
  | ignore signal =>
    obtain ⟨hf, hc⟩ := h fun hp => (ho hp).of_append
    refine ⟨{ hf with }, hc.imp_right (Or.imp_right ?_)⟩
    rintro ⟨τ, hτ, he⟩
    exact ⟨τ, List.mem_append_left _ hτ, he⟩
  | parents signal hp hle =>
    have hself := hp.not_selfPaced
    obtain ⟨hf, hc⟩ := h fun hp => (ho hp).of_append
    refine ⟨hf.later (lt_of_current hself hc (ho hself) hle) _ ⟨rfl, rfl⟩, .inr (.inr ⟨signal, ?_⟩)⟩
    exact ⟨List.mem_append_right _ List.mem_cons_self, rfl⟩
  | qc signal hp hle =>
    have hself : ¬ SelfPaced c.dagProtocol := fun hs => by
      rcases hs with he | he <;> rw [he] at hp <;> cases hp
    obtain ⟨hf, hc⟩ := h fun hp => (ho hp).of_append
    refine ⟨hf.later (lt_of_current hself hc (ho hself) hle) _ ⟨rfl, rfl⟩, .inr (.inr ⟨signal, ?_⟩)⟩
    exact ⟨List.mem_append_right _ List.mem_cons_self, rfl⟩
  | certificates signal hp hu =>
    obtain ⟨hf, -⟩ := h fun hself => absurd hp hself
    obtain ⟨_, _, rfl⟩ := updateAdvance_eq hu
    refine ⟨?_, .inl hp⟩
    rcases mergeParents_cases signal (log signal s) with ⟨hlt, he⟩ | ⟨-, he⟩ | ⟨-, he⟩ <;> rw [he]
    · exact hf.later hlt _ ⟨rfl, rfl⟩
    · exact { hf with }
    · exact { hf with }

theorem paced_run (h : c.run events = .ok s) : Paced c s := by
  refine run_keeps (P := Paced c) (fun _ => ⟨⟨List.Pairwise.nil, by simp [spawn],
    by simp [spawn]⟩, ?_⟩) (fun _ hs ho => ?_) (fun _ _ _ _ hs ht => hs.handle ht) h
  · by_cases hp : SelfPaced c.dagProtocol
    · exact .inl hp
    · exact .inr (.inl (if_neg fun he => hp (.inl he)))
  · rw [(propose_logs c _).2] at ho
    exact ⟨(hs ho).1.propose, (hs ho).2.propose⟩

/-- The rounds of the headers increase, where the rounds signalled are distinct or Bullshark advances
by itself. -/
theorem rounds_increase (h : c.run events = .ok s)
    (ho : ¬ SelfPaced c.dagProtocol → OnceEach (events.flatMap Event.signals)) :
    (s.toCore.map Header.round).Pairwise (· < ·) := by
  rw [← (run_logs h).2] at ho
  exact (paced_run h ho).1.increasing

end Rounds

/-! ## Parents -/

section Parents

variable {P : ℕ → List Digest → Option EmbeddedQc → Prop}

/-- The QC a header has. -/
def headerQc (c : ProposerConfig) (qc : Option EmbeddedQc) : Option EmbeddedQc :=
  if c.dagProtocol.isShortfinFamily then qc else none

/-- The parents and the QC of every header, and those that are held, satisfy `P` for their round. -/
structure Supported (c : ProposerConfig) (P : ℕ → List Digest → Option EmbeddedQc → Prop)
    (s : Proposer) : Prop where
  headers : ∀ h ∈ s.toCore, ∃ parents, P h.round parents h.qc ∧
    h.parents = SortedSet.ofList parents
  held : s.parents1 ≠ [] → P s.round s.parents1 (headerQc c s.lastQc)

theorem Supported.makeHeader (h : Supported c P s) (hp : P s.round s.parents1 (headerQc c s.lastQc)) :
    Supported c P { c.makeHeader s with timerExpired := false } := by
  obtain ⟨n, hn⟩ := exists_taken c s
  rw [hn.eq]
  refine ⟨fun k hk => ?_, fun hne => absurd rfl hne⟩
  rcases List.mem_append.1 hk with hk | hk
  · exact h.headers k hk
  · rw [List.mem_singleton.1 hk]
    exact ⟨s.parents1, hp, rfl⟩

/-- Where the proposer does not advance by itself, its headers have what was signalled for their
round, or the genesis certificates. -/
theorem supported_run (hself : ¬ SelfPaced c.dagProtocol) (h : c.run events = .ok s)
    (h0 : P 1 ((Certificate.genesis c.committee).map Certificate.digest) none)
    (hsignals : ∀ signal ∈ events.flatMap Event.signals,
      P signal.round signal.parents1 (headerQc c signal.qc) ∧
        (c.dagProtocol = .shortfin → signal.parents1 ≠ [] ∧ signal.qc.isSome)) :
    Supported c P s := by
  have hround : c.spawn.round = 1 := if_neg fun he => hself (.inl he)
  have hnone : headerQc c none = none := ite_self none
  refine run_keeps ⟨by simp [spawn], fun _ => ?_⟩ (fun u hu => ?_) (fun u event t he hu ht => ?_) h
  · rw [hround]
    exact hnone.symm ▸ h0
  · have hp := propose_cases c u
    generalize c.propose u = t at hp ⊢
    cases hp with
    | waits => exact hu
    | makes _ hparents _ => exact hu.makeHeader (hu.held hparents)
    | advances hp => exact absurd hp hself
  · have hin : ∀ signal, event = .signal signal →
        P signal.round signal.parents1 (headerQc c signal.qc) ∧
          (c.dagProtocol = .shortfin → signal.parents1 ≠ [] ∧ signal.qc.isSome) := fun signal hs =>
      hsignals signal (List.mem_flatMap.2 ⟨event, he, hs ▸ List.mem_singleton.2 rfl⟩)
    cases handle_cases ht with
    | digest | timer | ignore => exact { hu with }
    | parents signal hp =>
      have hqc : ∀ qc, headerQc c qc = none := fun qc => if_neg (by
        rcases hp with hp | hp
        · rw [hp]
          decide
        · revert hp
          cases c.dagProtocol <;> decide)
      refine ⟨hu.headers, fun _ => ?_⟩
      have hP := (hin signal rfl).1
      rw [hqc] at hP ⊢
      exact hP
    | qc signal hp =>
      obtain ⟨hP, hne⟩ := hin signal rfl
      refine ⟨hu.headers, fun _ => ?_⟩
      simp only [List.isEmpty_iff, if_neg (hne hp).1, if_pos (hne hp).2]
      exact hP
    | certificates _ hp => exact absurd hp hself

end Parents

/-! ## Bullshark -/

section Bullshark

variable {Q : ℕ → List Certificate → Prop}

/-- What is gathered for a round satisfies `Q`, and what was signalled is not of a later round. -/
structure Gathered (Q : ℕ → List Certificate → Prop) (s : Proposer) : Prop where
  headers : ∀ h ∈ s.toCore, ∃ r certificates, h.round = r + 1 ∧ Q r certificates ∧
    h.parents = SortedSet.ofList (certificates.map Certificate.digest)
  held : s.lastParentCerts ≠ [] → Q s.round s.lastParentCerts
  seen : ∀ σ ∈ s.signals, σ.round ≤ s.round
  fresh : s.lastParentCerts = [] → ∀ σ ∈ s.signals, σ.round < s.round

theorem Gathered.propose (hp : SelfPaced c.dagProtocol) (h : Gathered Q s) :
    Gathered Q (c.propose s) := by
  have hc := propose_cases c s
  generalize c.propose s = t at hc ⊢
  cases hc with
  | waits => exact h
  | makes hp' => exact absurd hp hp'
  | advances _ hcerts =>
    obtain ⟨n, hn⟩ := exists_taken c (advanced s)
    rw [hn.eq]
    refine ⟨fun k hk => ?_, fun hne => absurd rfl hne, fun σ hσ => Nat.le_succ_of_le (h.seen σ hσ),
      fun _ σ hσ => Nat.lt_succ_of_le (h.seen σ hσ)⟩
    rcases List.mem_append.1 hk with hk | hk
    · exact h.headers k hk
    · rw [List.mem_singleton.1 hk]
      exact ⟨s.round, s.lastParentCerts, rfl, h.held hcerts, rfl⟩

/-- A signal for the round or a later one brings its first certificates, or more of them. -/
theorem Gathered.merge (hnil : ∀ r, ¬ Q r [])
    (hmono : ∀ r l l', Q r l → (∀ x ∈ l', x.round = r) → Q r (l ++ l')) {signal : ProposerSignal}
    (ho : Opens Q (s.signals ++ [signal])) (h : Gathered Q s) :
    Gathered Q (mergeParents signal (log signal s)) := by
  have hseen : ∀ {r : ℕ}, (∀ σ ∈ s.signals, σ.round ≤ r) → signal.round ≤ r →
      ∀ σ ∈ s.signals ++ [signal], σ.round ≤ r := fun hs hle σ hσ => by
    rcases List.mem_append.1 hσ with hσ | hσ
    · exact hs σ hσ
    · rw [List.mem_singleton.1 hσ]
      exact hle
  rcases mergeParents_cases signal (log signal s) with ⟨hlt, he⟩ | ⟨hlt, he⟩ | ⟨heq, he⟩ <;> rw [he]
  · have hlt : s.round < signal.round := hlt
    have hQ : Q signal.round signal.certificates1 := ho.first s.signals signal [] rfl
      fun σ hσ => ((h.seen σ hσ).trans_lt hlt).ne
    exact ⟨h.headers, fun _ => hQ, hseen (fun σ hσ => ((h.seen σ hσ).trans hlt.le)) le_rfl,
      fun hemp => absurd ((show signal.certificates1 = [] from hemp) ▸ hQ) (hnil _)⟩
  · have hlt : signal.round < s.round := hlt
    refine ⟨h.headers, h.held, hseen h.seen hlt.le, fun hemp σ hσ => ?_⟩
    rcases List.mem_append.1 hσ with hσ | hσ
    · exact h.fresh hemp σ hσ
    · rw [List.mem_singleton.1 hσ]
      exact hlt
  · have heq : signal.round = s.round := heq
    have hQ : Q s.round (s.lastParentCerts ++ signal.certificates1) := by
      by_cases hemp : s.lastParentCerts = []
      · rw [hemp, List.nil_append, ← heq]
        refine ho.first s.signals signal [] rfl fun σ hσ => ?_
        rw [heq]
        exact (h.fresh hemp σ hσ).ne
      · exact hmono _ _ _ (h.held hemp) fun x hx =>
          (ho.rounds signal (by simp) x hx).trans heq
    exact ⟨h.headers, fun _ => hQ, hseen h.seen heq.le, fun hemp =>
      absurd ((show s.lastParentCerts ++ signal.certificates1 = [] from hemp) ▸ hQ) (hnil _)⟩

/-- A Bullshark header has as parents certificates of the round before that include the first ones
signalled for it. -/
theorem gathered_run (hp : c.dagProtocol = .bullshark) (hnil : ∀ r, ¬ Q r [])
    (hmono : ∀ r l l', Q r l → (∀ x ∈ l', x.round = r) → Q r (l ++ l'))
    (h0 : Q 0 (Certificate.genesis c.committee)) (h : c.run events = .ok s)
    (ho : Opens Q (events.flatMap Event.signals)) : Gathered Q s := by
  rw [← (run_logs h).2] at ho
  refine run_keeps (P := fun s => Opens Q s.signals → Gathered Q s) (fun _ => ?_)
    (fun u hu ho => ?_) (fun u event t _ hu ht ho => ?_) h ho
  · have hround : c.spawn.round = 0 := if_pos hp
    have hcerts : c.spawn.lastParentCerts = Certificate.genesis c.committee := if_pos hp
    refine ⟨by simp [spawn], fun _ => ?_, by simp [spawn], by simp [spawn]⟩
    rw [hround, hcerts]
    exact h0
  · rw [(propose_logs c u).2] at ho
    exact (hu ho).propose (.inl hp)
  · cases handle_cases ht with
    | digest | timer =>
      have h := hu ho
      exact { h with }
    | certificates signal _ hu' =>
      obtain ⟨_, _, rfl⟩ := updateAdvance_eq hu'
      have ho : Opens Q (mergeParents signal (log signal u)).signals := ho
      have hlog : (mergeParents signal (log signal u)).signals = u.signals ++ [signal] := by
        rcases mergeParents_cases signal (log signal u) with ⟨-, he⟩ | ⟨-, he⟩ | ⟨-, he⟩ <;>
          rw [he] <;> rfl
      rw [hlog] at ho
      have h := (hu ho.of_append).merge hnil hmono ho
      exact { h with }
    | ignore _ hself => exact absurd (.inl hp) hself
    | parents _ hp' => exact absurd (.inl hp) hp'.not_selfPaced
    | qc _ hp' => exact absurd (hp.symm.trans hp') (by decide)

/-- A certificate is of the leader of its round, by the value of the coin of the round. -/
def IsLeader (c : ProposerConfig) (round : ℕ) (certificates : List Certificate)
    (leader : Certificate) : Prop :=
  ∃ value, leader.origin = c.coinCommittee.leader value 0 ∧ match c.consensusProtocol with
    | .roundRobin => c.roundRobinCoin round = .ok value
    | .pseudoRandom => value = c.coinCommittee.pseudoRandom round
    | .commonCoin => ∃ coin, c.thresholdCoin = some coin ∧
      coin.recover round (certificates.filterMap fun x =>
        if x.header.coinShare.isEmpty then none else some (x.origin, x.header.coinShare)) = some value

/-- The certificates are those the protocol waits for: in an even round that of its leader is among
them; in an odd round they settle the vote for the last leader, if there is one. -/
def Awaited (c : ProposerConfig) (round : ℕ) (certificates : List Certificate)
    (lastLeader : Option Certificate) : Prop :=
  (round % 2 = 0 → ∃ leader ∈ certificates, IsLeader c round certificates leader) ∧
    (round % 2 ≠ 0 → ∀ leader, lastLeader = some leader →
      c.committee.quorumThreshold ≤ ((certificates.filter fun x =>
        decide (leader.digest ∈ x.header.parents)).map fun x => c.committee.stake x.origin).sum ∨
      c.committee.validityThreshold ≤ ((certificates.filter fun x =>
        !decide (leader.digest ∈ x.header.parents)).map fun x => c.committee.stake x.origin).sum)

omit [Crypto] in
theorem findLeader_eq_some {value : ℕ} {leader : Certificate}
    (h : c.findLeader s value = some leader) :
    leader ∈ s.lastParentCerts ∧ leader.origin = c.coinCommittee.leader value 0 :=
  ⟨List.mem_of_find?_eq_some h, by simpa using List.find?_some h⟩

theorem updateLeader_eq_some {leader : Certificate} (h : c.updateLeader s = .ok (some leader)) :
    leader ∈ s.lastParentCerts ∧ IsLeader c s.round s.lastParentCerts leader := by
  unfold updateLeader at h
  unfold IsLeader
  rcases hp : c.consensusProtocol <;> simp only [hp] at h ⊢
  case roundRobin =>
    rcases hv : c.roundRobinCoin s.round with e | value <;> rw [hv] at h
    · cases h
    · obtain ⟨hmem, ho⟩ := findLeader_eq_some (Except.ok.inj h)
      exact ⟨hmem, value, ho, rfl⟩
  case pseudoRandom =>
    obtain ⟨hmem, ho⟩ := findLeader_eq_some (Except.ok.inj h)
    exact ⟨hmem, _, ho, rfl⟩
  case commonCoin =>
    obtain ⟨value, hv, hf⟩ := Option.bind_eq_some_iff.1 (Except.ok.inj h)
    obtain ⟨hmem, ho⟩ := findLeader_eq_some hf
    unfold thresholdCoinFromParents at hv
    split_ifs at hv
    obtain ⟨coin, hcoin, hv⟩ := Option.bind_eq_some_iff.1 hv
    exact ⟨hmem, value, ho, coin, hcoin, hv⟩

/-- Whether the proposer may advance was decided on the certificates that are held. -/
def Decided (c : ProposerConfig) (s : Proposer) : Prop :=
  s.signals = [] ∨ (s.lastParentCerts ≠ [] → s.advance = true →
    Awaited c s.round s.lastParentCerts s.lastLeader)

theorem awaited_of_updateAdvance (h : c.updateAdvance s = .ok t) (ha : t.advance = true) :
    Awaited c t.round t.lastParentCerts t.lastLeader := by
  unfold updateAdvance at h
  split_ifs at h with heven
  · obtain ⟨lastLeader, hl, h⟩ := bind_eq_ok.1 h
    obtain rfl := Except.ok.inj h
    obtain ⟨leader, rfl⟩ := Option.isSome_iff_exists.1 ha
    exact ⟨fun _ => ⟨leader, updateLeader_eq_some hl⟩, fun hodd => absurd heven hodd⟩
  · obtain rfl := Except.ok.inj h
    refine ⟨fun he => absurd he heven, fun _ leader hl => ?_⟩
    have hl : s.lastLeader = some leader := hl
    change c.enoughVotes s = true at ha
    unfold enoughVotes leaderVotes at ha
    rw [hl] at ha
    simp only [List.partition_eq_filter_filter, Bool.or_eq_true, decide_eq_true_eq] at ha
    exact ha

theorem Decided.propose (h : Decided c s) : Decided c (c.propose s) := by
  have hp := propose_cases c s
  generalize c.propose s = t at hp ⊢
  cases hp with
  | waits => exact h
  | makes | advances =>
    obtain ⟨n, hn⟩ := exists_taken c _
    rw [hn.eq]
    first
      | exact h
      | exact .inr fun hne => absurd rfl hne

theorem Decided.handle (hp : c.dagProtocol = .bullshark) (h : Decided c s)
    (ht : c.handle s event = .ok t) : Decided c t := by
  cases handle_cases ht with
  | digest | timer => exact h
  | certificates signal _ hu => exact .inr fun _ ha => awaited_of_updateAdvance hu ha
  | ignore _ hself => exact absurd (.inl hp) hself
  | parents _ hp' => exact absurd (.inl hp) hp'.not_selfPaced
  | qc _ hp' => exact absurd (hp.symm.trans hp') (by decide)

/-- An event makes no header, and only the timer makes the timer expire. -/
theorem handle_keeps (h : c.handle s event = .ok t) : t.toCore = s.toCore ∧
    (event ≠ .timer → t.timerExpired = s.timerExpired) := by
  cases handle_cases h with
  | timer => exact ⟨rfl, fun hne => absurd rfl hne⟩
  | certificates signal _ hu =>
    obtain ⟨_, _, rfl⟩ := updateAdvance_eq hu
    rcases mergeParents_cases signal (log signal s) with ⟨-, he⟩ | ⟨-, he⟩ | ⟨-, he⟩ <;> rw [he] <;>
      exact ⟨rfl, fun _ => rfl⟩
  | digest | ignore | parents | qc => exact ⟨rfl, fun _ => rfl⟩

/-- Until its timer expires a Bullshark proposer waits: in an even round for the certificate of the
leader, which its header then has as a parent, and in an odd one until the vote for the leader is
settled. Only the header on the genesis certificates, made before any signal, does not wait. -/
theorem waits_for_leader (hp : c.dagProtocol = .bullshark) (h : c.run events = .ok s)
    (ht : c.step s event = .ok t) {header : Header} (hnew : t.toCore = s.toCore ++ [header])
    (htimer : s.timerExpired = false) (hevent : event ≠ .timer) (hsignals : t.signals ≠ []) :
    ∃ round certificates, header.round = round + 1 ∧
      header.parents = SortedSet.ofList (certificates.map Certificate.digest) ∧
      Awaited c round certificates t.lastLeader := by
  have hs : Decided c s := run_keeps (.inl rfl) (fun _ hu => hu.propose)
    (fun u event t _ hu ht => hu.handle hp ht) h
  obtain ⟨u, hu, rfl⟩ := step_eq_ok.1 ht
  obtain ⟨hcore, hexpired⟩ := handle_keeps hu
  have hd := hs.handle hp hu
  rw [(propose_logs c u).2] at hsignals
  have hc := propose_cases c u
  generalize c.propose u = t at hnew hc ⊢
  cases hc with
  | waits =>
    rw [hcore] at hnew
    exact absurd hnew (by simp)
  | makes hself => exact absurd (.inl hp) hself
  | advances _ hcerts hready =>
    rw [hexpired hevent, htimer] at hready
    obtain ⟨n, hn⟩ := exists_taken c (advanced u)
    rw [hn.eq] at hnew ⊢
    have hnew : u.toCore ++ [_] = s.toCore ++ [header] := hnew
    rw [hcore] at hnew
    obtain rfl := List.singleton_inj.1 (List.append_cancel_left hnew)
    exact ⟨u.round, u.lastParentCerts, rfl, rfl,
      hd.resolve_left hsignals hcerts (hready.resolve_left (by simp))⟩

/-- A block of an author of a round. -/
def blockOfFour (author : PublicKey) (round : ℕ) : Certificate := { header := { author, round } }

/-- The blocks of a round, signalled by the core. -/
def signalOfFour (round : ℕ) : Event :=
  .signal { round, parents1 := [], certificates1 := [0, 1, 2].map fun name => blockOfFour name round }

omit [Crypto] in
/-- In round two it is authority 0 that leads. -/
theorem waits_for_leader_four : letI := toyCrypto
    ∃ s t, ∃ header : Header, (ofFour .bullshark 0).run [signalOfFour 1] = .ok s ∧
      (ofFour .bullshark 0).step s (signalOfFour 2) = .ok t ∧ t.toCore = s.toCore ++ [header] ∧
      ∃ round certificates, header.round = round + 1 ∧
        header.parents = SortedSet.ofList (certificates.map Certificate.digest) ∧
        Awaited (ofFour .bullshark 0) round certificates t.lastLeader := by
  have hone : ∀ signal ∈ [signalOfFour 1, signalOfFour 2].flatMap Event.signals,
      1 ≤ signal.round := by simp [signalOfFour, Event.signals]
  obtain ⟨t, hrun⟩ := @run_total toyCrypto (ofFour .bullshark 0) ([signalOfFour 1] ++ [signalOfFour 2])
    fun _ _ => hone
  obtain ⟨s, hs, ht⟩ := Runs.foldlM_concat_eq_ok.1 hrun
  have hlast : letI := toyCrypto
      ((ofFour .bullshark 0).run [signalOfFour 1]).toOption.map (fun s =>
          (s.timerExpired, s.toCore)) =
        ((ofFour .bullshark 0).run [signalOfFour 1, signalOfFour 2]).toOption.map (fun t =>
          (false, t.toCore.dropLast)) ∧
      ((ofFour .bullshark 0).run [signalOfFour 1, signalOfFour 2]).toOption.map (fun t =>
        t.toCore.isEmpty) = some false := by decide +kernel
  have hs : letI := toyCrypto; (ofFour .bullshark 0).run [signalOfFour 1] = .ok s := hs
  have hrun : letI := toyCrypto
      (ofFour .bullshark 0).run [signalOfFour 1, signalOfFour 2] = .ok t := hrun
  rw [hs, hrun] at hlast
  obtain ⟨hlast, hne⟩ := hlast
  obtain ⟨htimer, hcore⟩ := Prod.mk.inj (Option.some.inj hlast)
  have hne : t.toCore ≠ [] := by simpa using Option.some.inj hne
  have hnew : t.toCore = s.toCore ++ [t.toCore.getLast hne] := by
    rw [hcore, List.dropLast_append_getLast]
  have hsignals : t.signals ≠ [] := by
    rw [(@run_logs toyCrypto _ _ _ hrun).2]
    simp [signalOfFour, Event.signals]
  exact ⟨s, t, _, hs, ht, hnew, @waits_for_leader toyCrypto _ _ _ _ _ rfl hs ht _ hnew htimer
    (by simp [signalOfFour]) hsignals⟩

end Bullshark

end ProposerConfig

end NovelDag
