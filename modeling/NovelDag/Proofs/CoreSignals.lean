import NovelDag.Proofs.CoreVotes
import NovelDag.Proofs.Aggregators

/-!
# The signals of the core

What the core sends to the proposer: in a DAG without certificates the rounds of its signals increase,
in Narwhal no round is signalled twice, and the parents in a signal are of a quorum, in Bullshark those
in the first signal of a round.
-/

namespace NovelDag

open Handler Fallible

/-- The first signal of a round carries certificates that satisfy `Q`, every signal certificates of
its round. -/
structure Opens (Q : ℕ → List Certificate → Prop) (signals : List ProposerSignal) : Prop where
  first : ∀ (before : List ProposerSignal) (signal : ProposerSignal)
    (after : List ProposerSignal), signals = before ++ signal :: after →
      (∀ σ ∈ before, σ.round ≠ signal.round) → Q signal.round signal.certificates1
  rounds : ∀ signal ∈ signals, ∀ x ∈ signal.certificates1, x.round = signal.round

namespace Opens

variable {Q : ℕ → List Certificate → Prop} {signals signals' : List ProposerSignal}

theorem of_append (h : Opens Q (signals ++ signals')) : Opens Q signals := by
  refine ⟨fun before signal after he => h.first before signal (after ++ signals') ?_,
    fun σ hσ => h.rounds σ (List.mem_append_left _ hσ)⟩
  rw [he, List.append_assoc, List.cons_append]

/-- One more signal, with certificates that satisfy `Q` if it is the first one of its round. -/
theorem concat {signal : ProposerSignal} (h : Opens Q signals)
    (hr : ∀ x ∈ signal.certificates1, x.round = signal.round)
    (hq : (∀ σ ∈ signals, σ.round ≠ signal.round) → Q signal.round signal.certificates1) :
    Opens Q (signals ++ [signal]) := by
  refine ⟨fun before τ after he hnew => ?_, fun τ hτ => ?_⟩
  · rcases List.eq_nil_or_concat after with rfl | ⟨after, last, rfl⟩
    · obtain ⟨rfl, hτ⟩ := List.append_inj' he rfl
      rw [← List.singleton_inj.1 hτ] at hnew ⊢
      exact hq hnew
    · have he' : signals ++ [signal] = (before ++ τ :: after) ++ [last] := by
        rw [he, List.concat_eq_append, List.append_assoc, List.cons_append]
      exact h.first before τ after (List.append_inj' he' rfl).1 hnew
  · rcases List.mem_append.1 hτ with hτ | hτ
    · exact h.rounds τ hτ
    · rw [List.mem_singleton.1 hτ]
      exact hr

end Opens

namespace CoreConfig

variable [Crypto] {c : CoreConfig} {g : Given} {x y : Moment} {s t : Core} {i : Input}

/-- The parents of a block of a round are certificates of a quorum of authors, of the round before or,
in Shortfin, of a later one. -/
def Backed (c : CoreConfig) (round : ℕ) (parents : List Digest) : Prop :=
  ∃ certificates : List Certificate,
    c.committee.quorumThreshold ≤ c.committee.stakeOf (certificates.map Certificate.origin) ∧
    ∀ x ∈ certificates, x.digest ∈ parents ∧ round ≤ x.round + 1 ∧
      (c.dagProtocol ≠ .shortfin → x.round + 1 = round)

/-- The certificate a Shortfin block carries is of its author, of the round before. -/
def CarriesQc (c : CoreConfig) (round : ℕ) (qc : Option EmbeddedQc) : Prop :=
  ∃ own : Certificate, own.origin = c.name ∧ own.round + 1 = round ∧ own.votes ≠ [] ∧
    qc = some (embeddedQc own)

/-! ## A round with a quorum -/

section Rounds

omit [Crypto] in
theorem foldl_laterRound : ∀ (certificates : List Certificate) (best : Option Certificate),
    (certificates = [] ∧ certificates.foldl laterRound best = best) ∨
      ∃ b, certificates.foldl laterRound best = some b ∧ (b ∈ certificates ∨ best = some b) ∧
        (∀ x ∈ certificates, x.round ≤ b.round) ∧ ∀ x, best = some x → x.round ≤ b.round
  | [], best => .inl ⟨rfl, rfl⟩
  | certificate :: certificates, best => by
    have hstep : ∃ b, laterRound best certificate = some b ∧ (b = certificate ∨ best = some b) ∧
        certificate.round ≤ b.round ∧ ∀ x, best = some x → x.round ≤ b.round := by
      rcases best with _ | b
      · exact ⟨_, rfl, .inl rfl, le_rfl, by simp⟩
      · simp only [laterRound]
        split_ifs with hlt
        · refine ⟨b, rfl, .inr rfl, hlt.le, fun x hx => ?_⟩
          rw [Option.some.inj hx]
        · refine ⟨_, rfl, .inl rfl, le_rfl, fun x hx => ?_⟩
          rw [← Option.some.inj hx]
          exact not_lt.1 hlt
    obtain ⟨b, hb, hmem, hle, hbest⟩ := hstep
    rw [List.foldl_cons, hb]
    refine .inr ?_
    rcases foldl_laterRound certificates (some b) with ⟨rfl, he⟩ | ⟨d, he, hd, hall, hd'⟩
    · exact ⟨b, he, hmem.imp (fun h => by simp [h]) id, by simpa using hle, hbest⟩
    · have hbd := hd' b rfl
      refine ⟨d, he, ?_, fun x hx => ?_, fun x hx => (hbest x hx).trans hbd⟩
      · rcases hd with hd | hd
        · exact .inl (List.mem_cons_of_mem _ hd)
        · obtain rfl := Option.some.inj hd
          exact hmem.imp (fun h => by simp [h]) id
      · rcases List.mem_cons.1 hx with rfl | hx
        · exact hle.trans hbd
        · exact hall x hx

/-- The latest certificate of a member is among the references, not below any of its rounds. -/
theorem mem_latestRefDigests {K : Header → Prop} (k : Knows K s) {name : PublicKey}
    (hn : name ∈ c.committee.names) {round : ℕ} {byAuthority : FinMap PublicKey Certificate}
    (hr : s.certificatesByRound.lookup round = some byAuthority) {x : Certificate}
    (hx : byAuthority.lookup name = some x) :
    ∃ b : Certificate, b.digest ∈ c.latestRefDigests s ∧ b.origin = name ∧ round ≤ b.round := by
  have hmem : x ∈ s.certificatesByRound.values.filterMap fun m => m.lookup name :=
    List.mem_filterMap.2 ⟨byAuthority, FinMap.mem_values.2 ⟨round, hr⟩, hx⟩
  rcases foldl_laterRound (s.certificatesByRound.values.filterMap fun m => m.lookup name) none with
    ⟨he, -⟩ | ⟨b, hb, hb', hall, -⟩
  · rw [he] at hmem
    cases hmem
  · obtain ⟨m, hm, hl⟩ := List.mem_filterMap.1 (hb'.resolve_right nofun)
    obtain ⟨r, hr'⟩ := FinMap.mem_values.1 hm
    refine ⟨b, List.mem_filterMap.2 ⟨name, hn, congrArg (Option.map Certificate.digest) hb⟩,
      (k.ranked r m name b hr' hl).2.2, ?_⟩
    rw [← (k.ranked round byAuthority name x hr hx).2.1]
    exact hall x hmem

/-- A certificate for each member of a quorum. -/
theorem backed_of_authors {authors : Finset PublicKey} {round : ℕ} {parents : List Digest}
    (hq : c.committee.quorumThreshold ≤ Weighted.weight c.committee.stake authors)
    (h : ∀ a ∈ authors, a ∈ c.committee.names → ∃ x : Certificate, x.origin = a ∧
      x.digest ∈ parents ∧ round ≤ x.round + 1 ∧
        (c.dagProtocol ≠ .shortfin → x.round + 1 = round)) : c.Backed round parents := by
  have hmem : ∀ a : {a // a ∈ authors ∩ c.committee.members}, ∃ x : Certificate, x.origin = a.1 ∧
      x.digest ∈ parents ∧ round ≤ x.round + 1 ∧
        (c.dagProtocol ≠ .shortfin → x.round + 1 = round) := fun ⟨a, ha⟩ =>
    h a (Finset.mem_inter.1 ha).1 (List.mem_toFinset.1 (Finset.mem_inter.1 ha).2)
  choose f horigin hf using hmem
  have hnames : ((authors ∩ c.committee.members).attach.toList.map f).map Certificate.origin =
      (authors ∩ c.committee.members).attach.toList.map Subtype.val := by
    rw [List.map_map]
    exact List.map_congr_left fun a _ => horigin a
  refine ⟨(authors ∩ c.committee.members).attach.toList.map f, ?_, fun x hx => ?_⟩
  · have hset : ((authors ∩ c.committee.members).attach.toList.map Subtype.val).toFinset =
        authors ∩ c.committee.members := by
      ext a
      simp
    rw [hnames, Committee.stakeOf, hset, c.committee.weight_inter_members]
    exact hq
  · obtain ⟨a, -, rfl⟩ := List.mem_map.1 hx
    exact hf a

omit [Crypto] in
theorem roundWeight_eq (byAuthority : FinMap PublicKey Certificate) : c.roundWeight byAuthority =
    Weighted.weight c.committee.stake byAuthority.keys.toFinset :=
  Weighted.sum_map_eq_weight _ byAuthority.keys_nodup

/-- What is signalled is of a quorum. -/
theorem Signals.backed {K : Header → Prop} (k : Knows K s) {parents1 parents2 : List Digest}
    {qc : Option EmbeddedQc} {byAuthority : FinMap PublicKey Certificate}
    (hs : c.Signals s parents1 parents2 qc byAuthority) :
    c.Backed (s.nextRoundToSignal + 1) parents1 := by
  refine backed_of_authors (hs.quorate.trans (roundWeight_eq byAuthority).le) fun a ha hn => ?_
  obtain ⟨x, hx⟩ := FinMap.mem_keys_iff.1 (List.mem_toFinset.1 ha)
  obtain ⟨-, hround, horigin⟩ := k.ranked _ _ _ _ hs.round hx
  rcases uncertified_cases hs.uncertified with hm | hp
  · exact ⟨x, horigin, (hs.covers hm).2 a x hx, by omega, fun _ => by omega⟩
  · obtain ⟨b, hb, hb', hle⟩ := mem_latestRefDigests k hn hs.round hx
    exact ⟨b, hb', (hs.own hp).1 ▸ hb, by omega, fun h => absurd hp h⟩

/-- What a Shortfin signal carries is our certificate of the round. -/
theorem Signals.carriesQc {K : Header → Prop} (k : Knows K s) {parents1 parents2 : List Digest}
    {qc : Option EmbeddedQc} {byAuthority : FinMap PublicKey Certificate}
    (hs : c.Signals s parents1 parents2 qc byAuthority) (hp : c.dagProtocol = .shortfin) :
    c.CarriesQc (s.nextRoundToSignal + 1) qc := by
  obtain ⟨-, own, ho, hv, hq⟩ := hs.own hp
  obtain ⟨-, hround, horigin⟩ := k.ranked _ _ _ _ hs.round ho
  exact ⟨own, horigin, by omega, hv, hq⟩

end Rounds

/-! ## A DAG without certificates -/

section Uncertified

/-- The signals sent, and the next one. -/
structure Signalling (c : CoreConfig) (s : Core) : Prop extends Knows (fun _ => True) s where
  next : 1 ≤ s.nextRoundToSignal
  pending : s.pendingQcSignals = ∅
  increasing : (s.toProposer.map ProposerSignal.round).Pairwise (· < ·)
  bounded : ∀ σ ∈ s.toProposer, 2 ≤ σ.round ∧ σ.round ≤ s.nextRoundToSignal
  backed : ∀ σ ∈ s.toProposer, c.Backed σ.round σ.parents1 ∧
    (c.dagProtocol = .shortfin → c.CarriesQc σ.round σ.qc)

theorem Signalling.signal {parents1 parents2 : List Digest} {qc : Option EmbeddedQc}
    {byAuthority : FinMap PublicKey Certificate} {localRound : ℕ}
    (hs : c.Signals s parents1 parents2 qc byAuthority) (v : Signalling c s) :
    Signalling c { signalRound s parents1 parents2 qc with localRound } := by
  have hnext := v.next
  refine { v with
    next := Nat.le_succ_of_le hnext
    increasing := ?_
    bounded := fun σ hσ => ?_
    backed := fun σ hσ => ?_ }
  · change ((s.toProposer ++ [_]).map ProposerSignal.round).Pairwise _
    rw [List.map_append]
    refine List.pairwise_append.2 ⟨v.increasing, List.pairwise_singleton _ _, fun r hr r' hr' => ?_⟩
    obtain ⟨σ, hσ, rfl⟩ := List.mem_map.1 hr
    rw [List.mem_singleton.1 hr']
    exact Nat.lt_succ_of_le (v.bounded σ hσ).2
  · rcases List.mem_append.1 hσ with hσ | hσ
    · exact ⟨(v.bounded σ hσ).1, Nat.le_succ_of_le (v.bounded σ hσ).2⟩
    · rw [List.mem_singleton.1 hσ]
      exact ⟨Nat.succ_le_succ hnext, le_rfl⟩
  · rcases List.mem_append.1 hσ with hσ | hσ
    · exact v.backed σ hσ
    · rw [List.mem_singleton.1 hσ]
      exact ⟨hs.backed v.toKnows, hs.carriesQc v.toKnows⟩

theorem Prim.ranked (h : c.Prim g x y) (k : Knows (fun _ => True) x.core) :
    Knows (fun _ => True) y.core :=
  (h.knows (fun _ _ => trivial) (fun _ _ => trivial)
    { k with assembled := fun _ _ => trivial, targets := fun _ _ => trivial }).toKnows

theorem Prim.signalling (hu : c.dagProtocol.isUncertifiedDag = true) (h : c.Prim g x y)
    (v : Signalling c x.core) : Signalling c y.core := by
  have k := h.ranked v.toKnows
  cases h with
  | frame h =>
    obtain ⟨_, _, _, _, _, rfl⟩ := h.eq
    exact { k, v with }
  | embeddedQc | certificateQc =>
    obtain ⟨_, he, _⟩ := recordShortfinQc_eq x.core _ _
    rw [he] at k ⊢
    exact { k, v with }
  | record | recordBlock =>
    rw [recordCertificate_eq] at k ⊢
    exact { k, v with }
  | deliver hp => exact absurd hu hp
  | @weakRef certificate =>
    obtain ⟨_, he⟩ := recordMahiWeakRef_eq x.core certificate
    rw [he] at k ⊢
    exact { k, v with }
  | signal hs => exact v.signal hs
  | qcSignal =>
    -- No round waits for a certificate.
    rw [sendQcSignal, v.pending, if_neg (Finset.notMem_empty _)]
    exact v
  | _ => exact { k, v with }

theorem Steps.signalling (hu : c.dagProtocol.isUncertifiedDag = true) (h : c.Steps g x y)
    (v : Signalling c x.core) : Signalling c y.core := by
  induction h with
  | refl => exact v
  | tail _ hp ih => exact hp.signalling hu ih

theorem Signalling.receive (v : Signalling c s) (i : Input) : Signalling c (c.receive s i) := by
  have k := v.toKnows.receive (c := c) (i := i) fun _ _ => trivial
  cases i with
  | proposer h => exact { k, v with }
  | _ => exact v

theorem Signalling.cleanupStep (v : Signalling c s) : Signalling c (c.cleanupStep s) := by
  have k := v.toKnows.cleanupStep (c := c)
  unfold CoreConfig.cleanupStep at k ⊢
  split_ifs with hgc
  · rw [if_pos hgc] at k
    exact { k, v with }
  · exact v

/-- In a DAG without certificates the core signals increasing rounds, each with parents of a quorum
and, in Shortfin, with our certificate of the round before. -/
theorem signalling_run (hu : c.dagProtocol.isUncertifiedDag = true) (inputs : List Input) :
    Signalling c (c.run inputs).2 := by
  have hall : c.Throughout (fun _ _ => True) inputs := fun _ _ _ _ _ _ => trivial
  refine Kept.run ⟨fun _ _ _ _ _ hs v => Steps.signalling hu hs v, fun _ v => { v with },
    fun _ _ v => { v with }, fun _ v => v.receive _, fun v => v.cleanupStep,
    fun _ v => { v with }⟩ ?_ hall
  exact { knows_init fun _ _ => trivial with
    next := le_rfl
    pending := rfl
    increasing := List.Pairwise.nil
    bounded := by simp [init]
    backed := by simp [init] }

end Uncertified

/-! ## Narwhal -/

section Narwhal

/-- What an aggregator of a round has counted. -/
structure Counts (c : CoreConfig) (round : ℕ) (a : CertificatesAggregator) : Prop where
  weight : a.weight ≤ Weighted.weight c.committee.stake a.used
  certificates : ∃ l : List Certificate, a.certificates = l.map Certificate.digest ∧
    a.weight ≤ c.committee.stakeOf (l.map Certificate.origin) ∧
    ∀ x ∈ l, x.round = round ∧ x.origin ∈ a.used

/-- A quorum was counted before the weight started again. -/
def Quiet (c : CoreConfig) (a : CertificatesAggregator) : Prop :=
  c.committee.quorumThreshold + a.weight ≤ Weighted.weight c.committee.stake a.used

theorem counts_empty (round : ℕ) : Counts c round {} :=
  ⟨Nat.zero_le _, [], rfl, Nat.zero_le _, by simp⟩

/-- A certificate is counted once; with a quorum the round is backed, and never again. -/
theorem Counts.append {a : CertificatesAggregator} {certificate : Certificate}
    (h : Counts c certificate.round a) :
    Counts c certificate.round (a.append c.committee certificate).2 ∧
      (Quiet c a → Quiet c (a.append c.committee certificate).2 ∧
        (a.append c.committee certificate).1 = none) ∧
      ∀ parents, (a.append c.committee certificate).1 = some parents →
        Quiet c (a.append c.committee certificate).2 ∧
          c.Backed (certificate.round + 1) parents := by
  obtain ⟨hweight, l, hl, hstake, hround⟩ := h
  unfold CertificatesAggregator.append
  split_ifs with hu
  · exact ⟨⟨hweight, l, hl, hstake, hround⟩, fun hq => ⟨hq, rfl⟩, by simp⟩
  have hW : Weighted.weight c.committee.stake (insert certificate.origin a.used) =
      c.committee.stake certificate.origin + Weighted.weight c.committee.stake a.used :=
    Weighted.weight_insert_of_notMem _ hu
  have htwo : Weighted.weight c.committee.stake (insert certificate.origin a.used) <
      2 * c.committee.quorumThreshold := weight_lt_two_quorums _
  have horigin : certificate.origin ∉ l.map Certificate.origin := fun hm => by
    obtain ⟨x, hx, he⟩ := List.mem_map.1 hm
    exact hu (he ▸ (hround x hx).2)
  have hstake' : a.weight + c.committee.stake certificate.origin ≤
      c.committee.stakeOf ((l ++ [certificate]).map Certificate.origin) := by
    rw [List.map_append, List.map_singleton, stakeOf_concat, if_neg horigin]
    exact Nat.add_le_add_right hstake _
  have hround' : ∀ x ∈ l ++ [certificate], x.round = certificate.round ∧
      x.origin ∈ insert certificate.origin a.used := fun x hx => by
    rcases List.mem_append.1 hx with hx | hx
    · exact ⟨(hround x hx).1, Finset.mem_insert_of_mem (hround x hx).2⟩
    · rw [List.mem_singleton.1 hx]
      exact ⟨rfl, Finset.mem_insert_self _ _⟩
  have hdigests : a.certificates ++ [certificate.digest] =
      (l ++ [certificate]).map Certificate.digest := by rw [hl, List.map_append, List.map_singleton]
  simp only []
  split_ifs with hq
  · refine ⟨⟨Nat.zero_le _, [], rfl, Nat.zero_le _, by simp⟩, fun hquiet => ?_, fun parents hp => ?_⟩
    · simp only [Quiet] at hquiet
      omega
    · rw [← Option.some.inj hp]
      refine ⟨?_, l ++ [certificate], hq.trans hstake', fun x hx => ⟨?_, ?_, fun _ => ?_⟩⟩
      · simp only [Quiet]
        omega
      · rw [hdigests]
        exact List.mem_map_of_mem hx
      · exact (congrArg Nat.succ (hround' x hx).1).ge
      · exact congrArg Nat.succ (hround' x hx).1
  · refine ⟨⟨?_, _, hdigests, hstake', hround'⟩, fun hquiet => ⟨?_, rfl⟩, by simp⟩
    · simp only []
      omega
    · simp only [Quiet] at hquiet ⊢
      omega

/-- What the aggregators have counted, and that what was signalled is backed. -/
structure Tallied (c : CoreConfig) (s : Core) : Prop where
  pending : s.pendingQcSignals = ∅
  counts : ∀ r a, s.certificatesAggregators.lookup r = some a → Counts c r a
  backed : ∀ σ ∈ s.toProposer, c.Backed σ.round σ.parents1

/-- A certificate is counted; with a quorum, which was not counted before, the round is signalled. -/
inductive Appends (c : CoreConfig) (certificate : Certificate) (s : Core)
    (a : CertificatesAggregator) : Core → Prop
  | counts : Appends c certificate s a
      { s with certificatesAggregators := s.certificatesAggregators.insert certificate.round a }
  | signals {parents1} (hq : Quiet c a) (hb : c.Backed (certificate.round + 1) parents1)
      (hnew : ∀ a', s.certificatesAggregators.lookup certificate.round = some a' → ¬ Quiet c a') :
      Appends c certificate s a
        (({ s with certificatesAggregators :=
          s.certificatesAggregators.insert certificate.round a } : Core).sendProposer
            { round := certificate.round + 1, parents1 })

theorem appendNarwhal_cases (v : Tallied c s) (certificate : Certificate) :
    ∃ a, Counts c certificate.round a ∧
      (∀ a', s.certificatesAggregators.lookup certificate.round = some a' → Quiet c a' → Quiet c a) ∧
      Appends c certificate s a (c.appendNarwhal certificate s) := by
  have hcounts : Counts c certificate.round
      ((s.certificatesAggregators.lookup certificate.round).getD {}) := by
    rcases hl : s.certificatesAggregators.lookup certificate.round with _ | a
    · exact counts_empty _
    · exact v.counts _ _ hl
  obtain ⟨hcounts', hkeeps, hfires⟩ := hcounts.append
  have hget : ∀ a', s.certificatesAggregators.lookup certificate.round = some a' →
      (s.certificatesAggregators.lookup certificate.round).getD {} = a' := fun a' hl => by rw [hl]; rfl
  unfold CoreConfig.appendNarwhal
  generalize (((s.certificatesAggregators.lookup certificate.round).getD {}).append
    c.committee certificate) = p at hcounts' hkeeps hfires
  refine ⟨p.2, hcounts', fun a' hl hq => (hkeeps (hget a' hl ▸ hq)).1, ?_⟩
  obtain ⟨parents | parents, aggregator⟩ := p
  · exact .counts
  · obtain ⟨hq, hb⟩ := hfires _ rfl
    exact .signals hq hb fun a' hl hq' => absurd (hkeeps (hget a' hl ▸ hq')).2 (by simp)

theorem Tallied.appendNarwhal (v : Tallied c s) (certificate : Certificate) :
    Tallied c (c.appendNarwhal certificate s) := by
  obtain ⟨a, ha, -, h⟩ := appendNarwhal_cases v certificate
  have hcounts : ∀ r a', (s.certificatesAggregators.insert certificate.round a).lookup r = some a' →
      Counts c r a' := fun r a' hl => by
    rw [FinMap.lookup_insert_ite] at hl
    split at hl
    · next hr => exact hr ▸ Option.some.inj hl ▸ ha
    · exact v.counts r a' hl
  generalize c.appendNarwhal certificate s = t at h ⊢
  cases h with
  | counts => exact { v with counts := hcounts }
  | signals _ hb =>
    refine { v with counts := hcounts, backed := fun σ hσ => ?_ }
    rcases List.mem_append.1 hσ with hσ | hσ
    · exact v.backed σ hσ
    · rw [List.mem_singleton.1 hσ]
      exact hb

theorem Prim.tallied (hp : c.dagProtocol = .narwhal) (h : c.Prim g x y) (v : Tallied c x.core) :
    Tallied c y.core := by
  cases h with
  | frame h =>
    obtain ⟨_, _, _, _, _, rfl⟩ := h.eq
    exact { v with }
  | embeddedQc | certificateQc =>
    obtain ⟨_, he, _⟩ := recordShortfinQc_eq x.core _ _
    rw [he]
    exact { v with }
  | record | recordBlock =>
    rw [recordCertificate_eq]
    exact { v with }
  | @deliver certificate =>
    have hs : Tallied c (x.core.storeCertificate certificate) := { v with }
    have he : c.appendBlock certificate = c.appendNarwhal certificate := funext fun _ => if_pos hp
    have hs' := hs.appendNarwhal certificate
    rw [he]
    exact { hs' with }
  | @weakRef certificate =>
    obtain ⟨_, he⟩ := recordMahiWeakRef_eq x.core certificate
    rw [he]
    exact { v with }
  | signal hs =>
    have hu := hs.uncertified
    rw [hp] at hu
    cases hu
  | qcSignal =>
    rw [sendQcSignal, v.pending, if_neg (Finset.notMem_empty _)]
    exact { v with }
  | _ => exact { v with }

theorem Steps.tallied (hp : c.dagProtocol = .narwhal) (h : c.Steps g x y) (v : Tallied c x.core) :
    Tallied c y.core := by
  induction h with
  | refl => exact v
  | tail _ hprim ih => exact hprim.tallied hp ih

theorem Tallied.receive (v : Tallied c s) (i : Input) : Tallied c (c.receive s i) := by
  cases i with
  | _ => exact { v with }

theorem Tallied.cleanupStep (v : Tallied c s) : Tallied c (c.cleanupStep s) := by
  unfold CoreConfig.cleanupStep
  split_ifs
  · exact { v with counts := fun r a hl => v.counts r a (FinMap.lookup_retain_eq_some.1 hl).1 }
  · exact v

/-- In Narwhal the parents in every signal are of a quorum, whatever the core is given. -/
theorem tallied_run (hp : c.dagProtocol = .narwhal) (inputs : List Input) :
    Tallied c (c.run inputs).2 := by
  have hall : c.Throughout (fun _ _ => True) inputs := fun _ _ _ _ _ _ => trivial
  exact Kept.run ⟨fun _ _ _ _ _ hs v => Steps.tallied hp hs v, fun _ v => { v with },
    fun _ _ v => { v with }, fun _ v => v.receive _, fun v => v.cleanupStep, fun _ v => { v with }⟩
    ⟨rfl, by simp [init], by simp [init]⟩ hall

/-- No round is signalled twice: its aggregator has counted a quorum, or it is below the round
cleaned up to. -/
structure Signalled (c : CoreConfig) (s : Core) : Prop extends Tallied c s where
  own : ∀ id h, s.ownHeaders.lookup id = some h → s.gcRound ≤ h.round ∧ 1 ≤ h.round
  clock : s.gcRound ≤ s.consensusRound - c.gcDepth
  nodup : (s.toProposer.map ProposerSignal.round).Nodup
  quiet : ∀ σ ∈ s.toProposer, ∃ r, σ.round = r + 1 ∧ 1 ≤ r ∧
    (r < s.gcRound ∨ ∃ a, s.certificatesAggregators.lookup r = some a ∧ Quiet c a)

structure SignalledAt (c : CoreConfig) (x : Moment) : Prop extends Signalled c x.core where
  assembled : ∀ a ∈ x.assembled, x.core.gcRound ≤ a.round ∧ 1 ≤ a.round

theorem Signalled.appendNarwhal {certificate : Certificate}
    (hround : s.gcRound ≤ certificate.round ∧ 1 ≤ certificate.round) (v : Signalled c s) :
    Signalled c (c.appendNarwhal certificate s) := by
  obtain ⟨a, -, hkeeps, h⟩ := appendNarwhal_cases v.toTallied certificate
  have htallied := v.toTallied.appendNarwhal certificate
  -- What was signalled stays quiet.
  have hquiet : ∀ σ ∈ s.toProposer, ∃ r, σ.round = r + 1 ∧ 1 ≤ r ∧ (r < s.gcRound ∨
      ∃ a', (s.certificatesAggregators.insert certificate.round a).lookup r = some a' ∧
        Quiet c a') := fun σ hσ => by
    obtain ⟨r, hr, hpos, h⟩ := v.quiet σ hσ
    refine ⟨r, hr, hpos, h.imp_right fun ⟨a', hl, hq⟩ => ?_⟩
    rw [FinMap.lookup_insert_ite]
    split
    · next he =>
      subst he
      exact ⟨a, rfl, hkeeps a' hl hq⟩
    · exact ⟨a', hl, hq⟩
  generalize c.appendNarwhal certificate s = t at h htallied ⊢
  cases h with
  | counts => exact { htallied, v with quiet := hquiet }
  | signals hq _ hnew =>
    refine { htallied, v with nodup := ?_, quiet := ?_ }
    · change ((s.toProposer ++ [_]).map ProposerSignal.round).Nodup
      rw [List.map_append]
      refine List.nodup_append.2 ⟨v.nodup, List.nodup_singleton _, fun r hr r' hr' => ?_⟩
      obtain ⟨σ, hσ, rfl⟩ := List.mem_map.1 hr
      obtain ⟨r, hr, -, h⟩ := v.quiet σ hσ
      rw [List.map_singleton, List.mem_singleton] at hr'
      rw [hr, hr']
      intro he
      obtain rfl : r = certificate.round := Nat.succ.inj he
      rcases h with hlt | ⟨a', hl, hq'⟩
      · omega
      · exact hnew a' hl hq'
    · intro σ hσ
      rcases List.mem_append.1 hσ with hσ | hσ
      · exact hquiet σ hσ
      · rw [List.mem_singleton.1 hσ]
        exact ⟨certificate.round, rfl, hround.2, .inr ⟨a, AList.lookup_insert _, hq⟩⟩

theorem Prim.signalled (hp : c.dagProtocol = .narwhal)
    (hgiven : ∀ certificate, g.call = .certificate certificate →
      x.core.gcRound ≤ certificate.round ∧ 1 ≤ certificate.round)
    (h : c.Prim g x y) (v : SignalledAt c x) : SignalledAt c y := by
  have certified : ∀ {certificate : Certificate}, g.Certifies x certificate →
      x.core.gcRound ≤ certificate.round ∧ 1 ≤ certificate.round := fun hc =>
    hc.elim (hgiven _) (v.assembled _)
  have hgc := h.grows.gcRound
  cases h with
  | frame h =>
    obtain ⟨_, _, _, _, _, rfl⟩ := h.eq
    exact { v with }
  | embeddedQc | certificateQc =>
    obtain ⟨_, he, _⟩ := recordShortfinQc_eq x.core _ _
    rw [he]
    exact { v with }
  | record | recordBlock =>
    rw [recordCertificate_eq]
    exact { v with }
  | appendVote ho =>
    refine { v with assembled := fun a ha => ?_ }
    rcases List.mem_append.1 ha with ha | ha
    · rw [Certificate.round, header_append (Option.mem_toList.1 ha)]
      exact v.own _ _ ho
    · exact v.assembled a ha
  | @deliver certificate _ hc =>
    have hs : Signalled c (x.core.storeCertificate certificate) := { v.toSignalled with }
    have he : c.appendBlock certificate = c.appendNarwhal certificate := funext fun _ => if_pos hp
    have hs' : Signalled c (c.appendNarwhal certificate (x.core.storeCertificate certificate)) :=
      Signalled.appendNarwhal (certified hc) hs
    rw [he] at hgc ⊢
    exact { hs' with
      assembled := fun a ha => ⟨hgc.le.trans (v.assembled a ha).1, (v.assembled a ha).2⟩ }
  | @weakRef certificate =>
    obtain ⟨_, he⟩ := recordMahiWeakRef_eq x.core certificate
    rw [he]
    exact { v with }
  | signal hs =>
    have hu := hs.uncertified
    rw [hp] at hu
    cases hu
  | qcSignal =>
    rw [sendQcSignal, v.pending, if_neg (Finset.notMem_empty _)]
    exact { v with }
  | _ => exact { v with }

theorem Steps.signalled (hp : c.dagProtocol = .narwhal)
    (hgiven : ∀ certificate, g.call = .certificate certificate →
      x.core.gcRound ≤ certificate.round ∧ 1 ≤ certificate.round)
    (h : c.Steps g x y) (v : SignalledAt c x) : SignalledAt c y := by
  induction h with
  | refl => exact v
  | @tail w _ hs hprim ih =>
    have hs : c.Steps g x w := hs
    refine hprim.signalled hp (fun certificate hc => ?_) ih
    rw [hs.grows.gcRound]
    exact hgiven certificate hc

/-- An input comes in time and brings nothing of round zero. -/
def Later (s : Core) (i : Input) : Prop := Timely s i ∧ ∀ h, i.Brings h → 1 ≤ h.round

theorem Signalled.steps {s₀ : Core} {k : CoreCall} (hp : c.dagProtocol = .narwhal)
    (hi : Later s₀ i) (ha : c.Acts s₀ i (c.receive s₀ i) s) (hk : i.Calls k)
    (hpass : c.Passes s₀ i) (h : c.Steps ⟨s, k⟩ { core := s } y) (v : Signalled c s) :
    Signalled c y.core := by
  have hround : s.gcRound = s₀.gcRound := ha.rounds.1.trans (receive_rounds s₀ i).1
  refine (Steps.signalled hp (fun certificate hc => ?_) h { v with assembled := by simp }).toSignalled
  have hb : i.Brings certificate.header := Input.brings_of_calls hk (by
    rw [show k = .certificate certificate from hc]
    rfl)
  exact ⟨hround.le.trans (le_of_passes hpass hi.1 hb), hi.2 _ hb⟩

theorem Signalled.receive (hi : Later s i) (v : Signalled c s) : Signalled c (c.receive s i) := by
  cases i with
  | proposer h => exact { v with own := forall_insert v.own ⟨hi.1, hi.2 h rfl⟩ }
  | _ => exact v

theorem Signalled.cleanupStep (v : Signalled c s) : Signalled c (c.cleanupStep s) := by
  unfold CoreConfig.cleanupStep
  split_ifs
  · refine { v with
      own := fun id h hl => ?_
      clock := le_rfl
      counts := fun r a hl => v.counts r a (FinMap.lookup_retain_eq_some.1 hl).1
      quiet := fun σ hσ => ?_ }
    · obtain ⟨hl, hle⟩ := FinMap.lookup_retain_eq_some.1 hl
      exact ⟨of_decide_eq_true hle, (v.own id h hl).2⟩
    · obtain ⟨r, hr, hpos, h⟩ := v.quiet σ hσ
      refine ⟨r, hr, hpos, ?_⟩
      rcases h with hlt | ⟨a, hl, hq⟩
      · exact .inl (hlt.trans_le v.clock)
      · refine (Nat.lt_or_ge r (s.consensusRound - c.gcDepth)).imp_right fun hle => ⟨a, ?_, hq⟩
        exact FinMap.lookup_retain_eq_some.2 ⟨hl, decide_eq_true hle⟩
  · exact v

/-- In Narwhal the core signals no round twice, each with parents of a quorum, as long as nothing
comes of round zero or below the round cleaned up to. -/
theorem signalled_run (hp : c.dagProtocol = .narwhal) {inputs : List Input}
    (hi : c.Throughout Later inputs) : Signalled c (c.run inputs).2 := by
  refine Kept.run ⟨fun hi ha _ hk hpass hs v => v.steps hp hi ha hk hpass hs,
    fun _ v => { v with }, fun _ _ v => { v with }, fun hi v => v.receive hi,
    fun v => v.cleanupStep,
    fun hi v => { v with clock := v.clock.trans (Nat.sub_le_sub_right hi.1 _) }⟩ ?_ hi
  exact ⟨⟨rfl, by simp [init], by simp [init]⟩, by simp [init], Nat.zero_le _, List.nodup_nil,
    by simp [init]⟩

end Narwhal

/-! ## Bullshark -/

section Bullshark

/-- The certificates are of one round, by authors with the stake of a quorum. -/
def Gathers (c : CoreConfig) (round : ℕ) (certificates : List Certificate) : Prop :=
  c.committee.quorumThreshold ≤ c.committee.stakeOf (certificates.map Certificate.origin) ∧
    ∀ x ∈ certificates, x.round = round

/-- What an aggregator of full certificates holds: until there is a quorum, all it has counted. -/
structure Sums (c : CoreConfig) (round : ℕ) (a : CertificatesVecAggregator) : Prop where
  rounds : ∀ x ∈ a.certificates, x.round = round ∧ x.origin ∈ a.used
  weight : a.weight < c.committee.quorumThreshold →
    a.weight ≤ c.committee.stakeOf (a.certificates.map Certificate.origin)

omit [Crypto] in
/-- A certificate is counted once. What goes out is of the round, and of a quorum the first time. -/
theorem Sums.append {a : CertificatesVecAggregator} {certificate : Certificate}
    (h : Sums c certificate.round a) :
    Sums c certificate.round (a.append c.committee certificate).2 ∧
      ((a.append c.committee certificate).1 = none →
        c.committee.quorumThreshold ≤ (a.append c.committee certificate).2.weight →
          c.committee.quorumThreshold ≤ a.weight) ∧
      ∀ parents, (a.append c.committee certificate).1 = some parents →
        (∀ x ∈ parents, x.round = certificate.round) ∧
          (a.weight < c.committee.quorumThreshold → Gathers c certificate.round parents) := by
  unfold CertificatesVecAggregator.append
  split_ifs with hu
  · exact ⟨h, fun _ hq => hq, by simp⟩
  have horigin : certificate.origin ∉ a.certificates.map Certificate.origin := fun hm => by
    obtain ⟨x, hx, he⟩ := List.mem_map.1 hm
    exact hu (he ▸ (h.rounds x hx).2)
  have hround : ∀ x ∈ a.certificates ++ [certificate], x.round = certificate.round ∧
      x.origin ∈ insert certificate.origin a.used := fun x hx => by
    rcases List.mem_append.1 hx with hx | hx
    · exact ⟨(h.rounds x hx).1, Finset.mem_insert_of_mem (h.rounds x hx).2⟩
    · rw [List.mem_singleton.1 hx]
      exact ⟨rfl, Finset.mem_insert_self _ _⟩
  have hweight : a.weight < c.committee.quorumThreshold →
      a.weight + c.committee.stake certificate.origin ≤
        c.committee.stakeOf ((a.certificates ++ [certificate]).map Certificate.origin) := fun hlt => by
    rw [List.map_append, List.map_singleton, stakeOf_concat, if_neg horigin]
    exact Nat.add_le_add_right (h.weight hlt) _
  simp only []
  split_ifs with hq
  · refine ⟨⟨by simp, fun hlt => absurd hq (not_le.2 hlt)⟩, by simp, fun parents hp => ?_⟩
    rw [← Option.some.inj hp]
    exact ⟨fun x hx => (hround x hx).1, fun hlt => ⟨hq.trans (hweight hlt), fun x hx =>
      (hround x hx).1⟩⟩
  · exact ⟨⟨hround, fun _ => hweight (by omega)⟩, fun _ hq' => absurd hq' hq, by simp⟩

/-- What the aggregators hold, and that the first signal of a round is of a quorum. -/
structure Opening (c : CoreConfig) (s : Core) : Prop where
  pending : s.pendingQcSignals = ∅
  sums : ∀ r a, s.certificatesVecAggregators.lookup r = some a → Sums c r a ∧
    (c.committee.quorumThreshold ≤ a.weight → ∃ σ ∈ s.toProposer, σ.round = r)
  opens : Opens (Gathers c) s.toProposer

theorem Opening.appendBullshark (v : Opening c s) (certificate : Certificate) :
    Opening c (c.appendBullshark certificate s) := by
  have hsums : Sums c certificate.round
      ((s.certificatesVecAggregators.lookup certificate.round).getD {}) := by
    rcases hl : s.certificatesVecAggregators.lookup certificate.round with _ | a
    · exact ⟨by simp, fun _ => Nat.zero_le _⟩
    · exact (v.sums _ _ hl).1
  have hfired : c.committee.quorumThreshold ≤
      ((s.certificatesVecAggregators.lookup certificate.round).getD {}).weight →
      ∃ σ ∈ s.toProposer, σ.round = certificate.round := fun hq => by
    rcases hl : s.certificatesVecAggregators.lookup certificate.round with _ | a
    · rw [hl] at hq
      exact absurd hq (not_le.2 c.committee.quorumThreshold_pos)
    · rw [hl] at hq
      exact (v.sums _ _ hl).2 hq
  obtain ⟨hsums', hnone, hsome⟩ := hsums.append
  unfold CoreConfig.appendBullshark
  generalize ((s.certificatesVecAggregators.lookup certificate.round).getD {}) = a at *
  generalize a.append c.committee certificate = p at hsums' hnone hsome ⊢
  -- The aggregators of the other rounds stay as they are.
  have hinsert : ∀ {signals : List ProposerSignal}, s.toProposer ⊆ signals →
      (c.committee.quorumThreshold ≤ p.2.weight → ∃ σ ∈ signals, σ.round = certificate.round) →
      ∀ r b, (s.certificatesVecAggregators.insert certificate.round p.2).lookup r = some b →
        Sums c r b ∧ (c.committee.quorumThreshold ≤ b.weight → ∃ σ ∈ signals, σ.round = r) := by
    intro signals hsub hq r b hl
    rw [FinMap.lookup_insert_ite] at hl
    split at hl
    · next hr =>
      obtain rfl := Option.some.inj hl
      rw [hr]
      exact ⟨hsums', hq⟩
    · obtain ⟨hb, hb'⟩ := v.sums r b hl
      exact ⟨hb, fun hq => (hb' hq).imp fun σ hσ => ⟨hsub hσ.1, hσ.2⟩⟩
  obtain ⟨parents | parents, aggregator⟩ := p
  · exact { v with sums := hinsert (List.Subset.refl _) fun hq => hfired (hnone rfl hq) }
  · obtain ⟨hrounds, hgathers⟩ := hsome _ rfl
    refine { v with
      sums := hinsert (List.subset_append_left _ _) fun _ =>
        ⟨_, List.mem_append_right _ List.mem_cons_self, rfl⟩
      opens := v.opens.concat hrounds fun hnew => hgathers ?_ }
    by_contra hq
    obtain ⟨σ, hσ, he⟩ := hfired (not_lt.1 hq)
    exact hnew σ hσ he

theorem Prim.opening (hp : c.dagProtocol = .bullshark) (h : c.Prim g x y) (v : Opening c x.core) :
    Opening c y.core := by
  cases h with
  | frame h =>
    obtain ⟨_, _, _, _, _, rfl⟩ := h.eq
    exact { v with }
  | embeddedQc | certificateQc =>
    obtain ⟨_, he, _⟩ := recordShortfinQc_eq x.core _ _
    rw [he]
    exact { v with }
  | record | recordBlock =>
    rw [recordCertificate_eq]
    exact { v with }
  | @deliver certificate =>
    have hs : Opening c (x.core.storeCertificate certificate) := { v with }
    have he : c.appendBlock certificate = c.appendBullshark certificate := funext fun _ =>
      if_neg (by simp [hp])
    have hs' := hs.appendBullshark certificate
    rw [he]
    exact { hs' with }
  | @weakRef certificate =>
    obtain ⟨_, he⟩ := recordMahiWeakRef_eq x.core certificate
    rw [he]
    exact { v with }
  | signal hs =>
    have hu := hs.uncertified
    rw [hp] at hu
    cases hu
  | qcSignal =>
    rw [sendQcSignal, v.pending, if_neg (Finset.notMem_empty _)]
    exact { v with }
  | _ => exact { v with }

theorem Steps.opening (hp : c.dagProtocol = .bullshark) (h : c.Steps g x y)
    (v : Opening c x.core) : Opening c y.core := by
  induction h with
  | refl => exact v
  | tail _ hprim ih => exact hprim.opening hp ih

omit [Crypto] in
theorem Opening.receive (v : Opening c s) (i : Input) : Opening c (c.receive s i) := by
  cases i with
  | _ => exact { v with }

theorem Opening.cleanupStep (v : Opening c s) : Opening c (c.cleanupStep s) := by
  unfold CoreConfig.cleanupStep
  split_ifs
  · exact { v with sums := fun r a hl => v.sums r a (FinMap.lookup_retain_eq_some.1 hl).1 }
  · exact v

/-- In Bullshark the first signal of a round has the certificates of a quorum, and the later ones more
of the round, whatever the core is given. -/
theorem opening_run (hp : c.dagProtocol = .bullshark) (inputs : List Input) :
    Opening c (c.run inputs).2 := by
  have hall : c.Throughout (fun _ _ => True) inputs := fun _ _ _ _ _ _ => trivial
  exact Kept.run ⟨fun _ _ _ _ _ hs v => Steps.opening hp hs v, fun _ v => { v with },
    fun _ _ v => { v with }, fun _ v => v.receive _, fun v => v.cleanupStep, fun _ v => { v with }⟩
    ⟨rfl, by simp [init], by simp [init], by simp [init]⟩ hall

end Bullshark

end CoreConfig

end NovelDag
