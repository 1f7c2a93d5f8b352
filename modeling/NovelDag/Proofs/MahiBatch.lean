import NovelDag.Proofs.MahiMahi
import NovelDag.ThresholdCoin

/-!
# Incremental and batch decisions in Mahi-Mahi

What `try_decide` decides of a slot is settled by the blocks the DAG has and by how many slots have
a known leader, whatever the node has decided and cached before: evidence only grows with the DAG,
so a decision kept from a smaller DAG is the one a fresh node takes. A node that decides after each
block and one that gets all the blocks first stop at one slot and output one sequence.
-/

namespace NovelDag

namespace MahiMahi

open Fallible MahiDag AnchorDecision PrefixLog

/-! ## What a DAG decides -/

section Decided

variable (committee : Committee) (U : Digest → Option Header) (waveLength : ℕ)
  (schedule : ℕ → ℕ → PublicKey)

/-- The verdicts that the blocks of a DAG support on the first `n` slots. -/
abbrev DecidedIn (D : MahiDag) (n : ℕ) : ℕ → Verdict Digest → Prop :=
  Decided (fun s d => s < n ∧ commitsIn committee U waveLength schedule D s d)
    (fun s => s < n ∧ skipsIn committee U waveLength schedule D s)
    (past waveLength fun s => (slotAt s).round)
    (certifies committee U waveLength (fun s => (slotAt s).round) (leaderAt schedule))

/-- The decision is the verdict the blocks support, and there is none where it says nothing. -/
def Judged (D : MahiDag) (n s : ℕ) : LeaderDecision → Prop
  | .commit d => DecidedIn committee U waveLength schedule D n s (.commit d) ∧ D.Has d
  | .skip => DecidedIn committee U waveLength schedule D n s .skip
  | .undecided => ∀ v, ¬ DecidedIn committee U waveLength schedule D n s v

variable {committee U waveLength schedule} {D D' : MahiDag} {n n' s : ℕ}

theorem past_lt (hw : 1 ≤ waveLength) {t : ℕ} (h : past waveLength (fun s => (slotAt s).round) s t) :
    s < t := by
  have h' : (slotAt s).round + waveLength - 1 < (slotAt t).round := h
  simp only [slotAt, leaderCount] at h'
  omega

theorem DecidedIn.supported {v : Verdict Digest}
    (h : DecidedIn committee U waveLength schedule D n s v) :
    Supported committee U waveLength schedule s v :=
  h.mono (fun _ _ hc => hc.2.commits) fun _ hs => hs.2.skips

/-- More blocks and more slots keep what has been decided. -/
theorem DecidedIn.mono {v : Verdict Digest} (h : DecidedIn committee U waveLength schedule D n s v)
    (hn : n ≤ n') (hD : ∀ d, D.Has d → D'.Has d) :
    DecidedIn committee U waveLength schedule D' n' s v :=
  Decided.mono (fun _ _ hc => ⟨hc.1.trans_le hn, hc.2.1, hc.2.2.mono fun d hd => ⟨hD d hd.1, hd.2⟩⟩)
    (fun _ hs => ⟨hs.1.trans_le hn, hs.2.mono fun d hd => ⟨hD d hd.1, hd.2⟩⟩) h

theorem DecidedIn.lt (hw : 1 ≤ waveLength) {v : Verdict Digest}
    (h : DecidedIn committee U waveLength schedule D n s v) : s < n := by
  obtain ⟨t, hst, ⟨d, hd⟩ | ht⟩ := h.exists_direct fun _ _ => past_lt hw
  · exact hst.trans_lt hd.1
  · exact hst.trans_lt ht.1

theorem Judged.sound {decision : LeaderDecision}
    (h : Judged committee U waveLength schedule D n s decision) :
    Sound committee U waveLength schedule D s decision := by
  cases decision with
  | commit d => exact ⟨h.1.supported, h.2⟩
  | skip => exact DecidedIn.supported h
  | undecided => trivial

theorem Judged.mono {decision : LeaderDecision} (hdec : decision.isDecided = true)
    (h : Judged committee U waveLength schedule D n s decision) (hn : n ≤ n')
    (hD : ∀ d, D.Has d → D'.Has d) : Judged committee U waveLength schedule D' n' s decision := by
  cases decision with
  | commit d => exact ⟨h.1.mono hn hD, hD d h.2⟩
  | skip => exact DecidedIn.mono h hn hD
  | undecided => cases hdec

theorem Judged.exists_decided {decision : LeaderDecision} (hdec : decision.isDecided = true)
    (h : Judged committee U waveLength schedule D n s decision) :
    ∃ v, DecidedIn committee U waveLength schedule D n s v := by
  cases decision with
  | commit d => exact ⟨_, h.1⟩
  | skip => exact ⟨_, h⟩
  | undecided => cases hdec

theorem Kept.mono {decisions : FinMap SlotId LeaderDecision}
    (h : Kept (Judged committee U waveLength schedule D n) decisions) (hn : n ≤ n')
    (hD : ∀ d, D.Has d → D'.Has d) :
    Kept (Judged committee U waveLength schedule D' n') decisions := fun id decision hl => by
  obtain ⟨s, hs, hdec, hj⟩ := h id decision hl
  exact ⟨s, hs, hdec, hj.mono hdec hn hD⟩

/-- The slots of the records passed are decided. -/
theorem decidedIn_of_passed : ∀ {s : ℕ} {records : List DecisionRecord},
    Each schedule (Judged committee U waveLength schedule D n) s records → ∀ u, s ≤ u →
      u < s + passed records → ∃ v, DecidedIn committee U waveLength schedule D n u v
  | s, [], _, u, hsu, hu => by
    rw [passed] at hu
    omega
  | s, record :: records, ⟨_, hj, hrest⟩, u, hsu, hu => by
    rw [passed] at hu
    split_ifs at hu with hdec
    · rcases hsu.eq_or_lt with rfl | hlt
      · exact hj.exists_decided hdec
      · exact decidedIn_of_passed hrest u hlt (by omega)
    · omega

/-- The slot after the records passed is not decided. -/
theorem not_decidedIn_passed (hw : 1 ≤ waveLength) : ∀ {s : ℕ} {records : List DecisionRecord},
    Each schedule (Judged committee U waveLength schedule D n) s records →
      s + records.length = n →
      ∀ v, ¬ DecidedIn committee U waveLength schedule D n (s + passed records) v
  | s, [], _, hn, v, h => by
    have hlt := h.lt hw
    rw [passed] at hlt
    rw [List.length_nil] at hn
    omega
  | s, record :: records, ⟨_, hj, hrest⟩, hn, v, h => by
    rw [passed] at h
    split_ifs at h with hdec
    · rw [show s + (passed records + 1) = s + 1 + passed records by omega] at h
      exact not_decidedIn_passed hw hrest (by rw [List.length_cons] at hn; omega) v h
    · rcases hrec : record.decision with d | _ | _
      · exact hdec (by rw [hrec]; rfl)
      · exact hdec (by rw [hrec]; rfl)
      · rw [hrec] at hj
        exact hj v h

end Decided

/-! ## Deciding is exact -/

section Exact

variable [Crypto] {committee : Committee} {U : Digest → Option Header} {waveLength : ℕ}
  {schedule : ℕ → ℕ → PublicKey} {B : Finset PublicKey} {D D₀ : MahiDag} {n : ℕ}

theorem DecidedIn.unique (hU : MahiUniverse committee B U) {s : ℕ} {v v' : Verdict Digest}
    (h : DecidedIn committee U waveLength schedule D n s v)
    (h' : DecidedIn committee U waveLength schedule D n s v') : v = v' :=
  h.supported.unique (consistent hU) h'.supported

/-- The records settle a slot that has no direct evidence as the blocks do: where the walk stops
without an anchor, there is none. -/
theorem computes_indirectDecision_exact (hU : MahiUniverse committee B U) (hw : 1 ≤ waveLength)
    (hD₀ : Indexed U D₀) (s : ℕ) : ∀ {t : ℕ} {records : List DecisionRecord},
      Each schedule (Judged committee U waveLength schedule D₀ n) t records →
      t + records.length = n →
      (∀ u, past waveLength (fun s => (slotAt s).round) s u → u < t →
        DecidedIn committee U waveLength schedule D₀ n u .skip) →
      ∃ decision, Computes (Holds committee U D₀)
        (indirectDecision committee waveLength (slotOf schedule s) records) decision ∧
        (decision.isDecided = true → Judged committee U waveLength schedule D₀ n s decision) ∧
        (decision.isDecided = false → ∀ x a, past waveLength (fun s => (slotAt s).round) s x →
          DecidedIn committee U waveLength schedule D₀ n x (.commit a) →
          ¬ ∀ u, past waveLength (fun s => (slotAt s).round) s u → u < x →
            DecidedIn committee U waveLength schedule D₀ n u .skip)
  | t, [], _, hn, hskip => by
    refine ⟨.undecided, .pure _, nofun, fun _ x a hx ha _ => ?_⟩
    have hlt : x < t := by
      rw [← hn, List.length_nil] at ha
      exact ha.lt hw
    cases ha.unique hU (hskip x hx hlt)
  | t, record :: records, ⟨hslot, hj, hrest⟩, hn, hskip => by
    have hround : record.slot.id.round = (slotAt t).round := by rw [hslot]; rfl
    have hn' : t + 1 + records.length = n := by rw [List.length_cons] at hn; omega
    rw [indirectDecision, hround]
    by_cases hpast : (slotAt t).round ≤ (slotAt s).round + waveLength - 1
    · rw [slotOf, if_pos hpast]
      refine computes_indirectDecision_exact hU hw hD₀ s hrest hn' fun u hu hlt => ?_
      rcases Nat.lt_succ_iff_lt_or_eq.1 hlt with hlt | rfl
      · exact hskip u hu hlt
      · exact absurd hpast (not_le.2 hu)
    · rw [slotOf, if_neg hpast]
      rcases hdec : record.decision with anchor | _ | _
      · rw [hdec] at hj
        obtain ⟨ht, a, ha⟩ := hj
        obtain ⟨decision, hrun, h⟩ := computes_decideFromAnchor waveLength schedule
          hU hD₀ s ha
        refine ⟨decision, hrun, fun _ => ?_, fun hno => ?_⟩
        · rcases h with ⟨d, rfl, hd, hcert⟩ | ⟨rfl, hno⟩
          · exact ⟨.anchorCommit (not_le.1 hpast) ht hskip hcert, hd⟩
          · exact .anchorSkip (not_le.1 hpast) ht hskip hno
        · rcases h with ⟨d, rfl, -⟩ | ⟨rfl, -⟩ <;> cases hno
      · rw [hdec] at hj
        refine computes_indirectDecision_exact hU hw hD₀ s hrest hn' fun u hu hlt => ?_
        rcases Nat.lt_succ_iff_lt_or_eq.1 hlt with hlt | rfl
        · exact hskip u hu hlt
        · exact hj
      · rw [hdec] at hj
        refine ⟨.undecided, .pure _, nofun, fun _ x a hx ha hbetween => ?_⟩
        rcases lt_trichotomy x t with hlt | rfl | hlt
        · cases ha.unique hU (hskip x hx hlt)
        · exact hj _ ha
        · exact hj _ (hbetween t (not_le.1 hpast) hlt)

/-- The decisions of `try_decide` are the verdicts the blocks support, whatever it kept. -/
theorem computes_decideSlots_exact (hU : MahiUniverse committee B U) (hw : 1 ≤ waveLength)
    (hD₀ : Indexed U D₀) {m s : ℕ} (hn : s + m = n) {decisions : FinMap SlotId LeaderDecision}
    (h : Kept (Judged committee U waveLength schedule D₀ n) decisions) :
    ∃ records decisions', Computes (Holds committee U D₀)
      (decideSlots committee waveLength ((List.range' s m).map (slotOf schedule)) decisions)
      (records, decisions') ∧
      Each schedule (Judged committee U waveLength schedule D₀ n) s records ∧
      records.length = m ∧ Kept (Judged committee U waveLength schedule D₀ n) decisions' := by
  refine computes_decideSlots_of (fun s later hlength hlater => ?_) m s hn h
  obtain ⟨direct, hdirect, hd⟩ := computes_directDecision hU hD₀ s
  refine ⟨direct, hdirect, fun hdec => ?_, fun hundec => ?_⟩
  · rcases direct with d | _ | _
    · exact ⟨.directCommit ⟨by omega, hd.1⟩, hd.2⟩
    · exact .directSkip ⟨by omega, hd⟩
    · cases hdec
  · obtain ⟨decision, hrun, hyes, hno⟩ := computes_indirectDecision_exact hU hw hD₀ s hlater
      hlength fun u hu hlt => absurd (past_lt hw hu) (by omega)
    refine ⟨decision, hrun, ?_⟩
    rcases hdec : decision.isDecided with _ | _
    · rcases decision with d | _ | _
      · cases hdec
      · cases hdec
      · rcases direct with d | _ | _
        · cases hundec
        · cases hundec
        · -- neither direct evidence nor an anchor
          intro v hv
          cases hv with
          | directCommit h => exact hd.1 _ h.2
          | directSkip h => exact hd.2 h.2
          | anchorCommit hst ht hu _ => exact hno rfl _ _ hst ht hu
          | anchorSkip hst ht hu _ => exact hno rfl _ _ hst ht hu
    · exact hyes hdec

end Exact

/-! ## Leaders stay known -/

section Known

variable [Crypto] {consensus : Consensus} {waveLength : ℕ} {U : Digest → Option Header}
  {D D' : MahiDag}

/-- Shares that recover the coin of a round do so with any others beside them. -/
def Recovers (consensus : Consensus) : Prop :=
  ∀ recover ∈ consensus.thresholdCoin, ∀ round shares shares', shares ⊆ shares' →
    (recover round shares).isSome = true → (recover round shares').isSome = true

omit [Crypto] in
/-- The shared threshold coin recovers, where shares that verify combine. -/
theorem recovers_thresholdCoin {Share : Type} {coin : ThresholdCoin Share}
    (hcombine : ∀ round unique, coin.threshold + 1 ≤ unique.keys.length →
      (∀ index share, unique.lookup index = some share →
        ∃ bytes, coin.verifyShare round index bytes = some share) →
      (coin.combine round unique).isSome = true)
    (h : consensus.thresholdCoin = some coin.recover) : Recovers consensus := by
  intro recover hrecover round shares shares' hsub hsome
  rw [h, Option.mem_some_iff] at hrecover
  subst hrecover
  exact ThresholdCoin.recover_mono hcombine hsub hsome

omit [Crypto] in
theorem thresholdCoin_mono (hcoin : Recovers consensus) {round : ℕ}
    {certificates certificates' : List Certificate}
    (h : certificates.map Certificate.header ⊆ certificates'.map Certificate.header)
    (hsome : (consensus.thresholdCoinFromCertificates round certificates).isSome = true) :
    (consensus.thresholdCoinFromCertificates round certificates').isSome = true := by
  have horigins : certificates.map Certificate.origin ⊆ certificates'.map Certificate.origin := by
    have := List.map_subset Header.author h
    rwa [List.map_map, List.map_map] at this
  have hstake : ∀ l : List Certificate, consensus.distinctStake l =
      Weighted.weight consensus.committee.stake (l.map Certificate.origin).toFinset := fun l => by
    rw [Consensus.distinctStake, Weighted.sum_map_eq_weight _ (List.nodup_dedup _)]
    exact congrArg _ (by ext; simp)
  have hshares : ∀ l : List Certificate, (l.filterMap fun x =>
      if x.header.coinShare.isEmpty then none else some (x.origin, x.header.coinShare)) =
        (l.map Certificate.header).filterMap fun x =>
          if x.coinShare.isEmpty then none else some (x.author, x.coinShare) := fun l => by
    rw [List.filterMap_map]
    rfl
  rw [Consensus.thresholdCoinFromCertificates] at hsome ⊢
  split_ifs at hsome with hlt
  · cases hsome
  · have hle : consensus.distinctStake certificates ≤ consensus.distinctStake certificates' := by
      rw [hstake, hstake]
      exact Weighted.weight_mono _ fun a ha => List.mem_toFinset.2
        (horigins (List.mem_toFinset.1 ha))
    rw [if_neg (by omega)]
    rcases hc : consensus.thresholdCoin with _ | recover
    · rw [hc] at hsome
      cases hsome
    · rw [hc] at hsome
      refine hcoin recover hc round _ _ ?_ hsome
      rw [hshares, hshares]
      intro x hx
      obtain ⟨y, hy, hyx⟩ := List.mem_filterMap.1 hx
      exact List.mem_filterMap.2 ⟨y, h hy, hyx⟩

theorem leaderAuthority_mono (hcoin : Recovers consensus) {round coinRound index : ℕ}
    {certificates certificates' : List Certificate}
    (h : certificates.map Certificate.header ⊆ certificates'.map Certificate.header)
    {authority : PublicKey} (hknown : consensus.leaderAuthorityFromCertificates round coinRound
      index certificates = .ok (some authority)) :
    ∃ authority', consensus.leaderAuthorityFromCertificates round coinRound index certificates' =
      .ok (some authority') := by
  rw [Consensus.leaderAuthorityFromCertificates] at hknown ⊢
  rcases hp : consensus.consensusProtocol
  all_goals rw [hp] at hknown
  · exact ⟨authority, hknown⟩
  · exact ⟨authority, hknown⟩
  · rcases hv : consensus.thresholdCoinFromCertificates coinRound certificates with _ | value
    · rw [hv] at hknown
      cases hknown
    · obtain ⟨value', hv'⟩ := Option.isSome_iff_exists.1
        (thresholdCoin_mono hcoin h (by rw [hv]; rfl))
      rw [hv']
      exact ⟨_, rfl⟩

/-- Every round of the index has a block. -/
def Filled (D : MahiDag) : Prop :=
  ∀ r byAuthor, D.byRound.lookup r = some byAuthor → ∃ d c, D.block d = some c ∧ c.round = r

theorem Filled.insert {x : Certificate} (h : Filled D) : Filled (D.insert x).1 := by
  by_cases hx : (D.block x.digest).isSome = true
  · rwa [insert_of_isSome hx]
  · intro r byAuthor hl
    by_cases hr : r = x.round
    · exact ⟨x.digest, x, by rw [block_insert hx, if_pos rfl], hr.symm⟩
    · rw [MahiDag.insert, if_neg hx] at hl
      obtain ⟨d, c, hd, hc⟩ := h r byAuthor (by simpa [SortedMap.lookup_alter, hr] using hl)
      exact ⟨d, c, block_insert_of_block hd, hc⟩

omit [Crypto] in
theorem highestRound_mono (hD : Indexed U D) (hD' : Indexed U D') (hfilled : Filled D)
    (hsub : ∀ d, D.Has d → D'.Has d) : D.highestRound ≤ D'.highestRound := by
  rcases hl : D.byRound.keys.getLast? with _ | r
  · rw [highestRound, hl]
    exact Nat.zero_le _
  · obtain ⟨byAuthor, hr⟩ := SortedMap.mem_keys.1 (List.mem_of_getLast? hl)
    obtain ⟨d, c, hd, hc⟩ := hfilled r byAuthor hr
    obtain ⟨c', hd'⟩ := hsub d ⟨c, hd⟩
    have hround : c'.round = c.round := by
      have := hD'.sub hd'
      rw [hD.sub hd] at this
      exact (congrArg Header.round (Option.some.inj this)).symm
    rw [highestRound, hl, Option.getD_some, ← hc, ← hround]
    exact hD'.highest hd'

omit [Crypto] in
theorem mem_roundCertificates (hD : Indexed U D) {r : ℕ} {x : Certificate} :
    x ∈ D.roundCertificates r ↔ ∃ d, D.block d = some x ∧ x.round = r := by
  rw [MahiDag.roundCertificates, List.mem_filterMap]
  constructor
  · rintro ⟨d, hd, hx⟩
    obtain ⟨c, hc, hr⟩ := hD.round.1 hd
    rw [hx] at hc
    cases hc
    exact ⟨d, hx, hr⟩
  · rintro ⟨d, hx, hr⟩
    exact ⟨d, hD.round.2 ⟨x, hx, hr⟩, hx⟩

theorem Eligible.mono (hcoin : Recovers consensus) (hD : Indexed U D) (hD' : Indexed U D')
    (hfilled : Filled D) (hsub : ∀ d, D.Has d → D'.Has d) {s : ℕ}
    (h : Eligible consensus waveLength D s) : Eligible consensus waveLength D' s := by
  obtain ⟨hlt, authority, hknown⟩ := h
  refine ⟨hlt.trans_le ?_, leaderAuthority_mono hcoin ?_ hknown⟩
  · have := highestRound_mono hD hD' hfilled hsub
    omega
  · intro header hh
    obtain ⟨x, hx, rfl⟩ := List.mem_map.1 hh
    obtain ⟨d, hd, hr⟩ := (mem_roundCertificates hD).1 hx
    obtain ⟨x', hd'⟩ := hsub d ⟨x, hd⟩
    have hheader : x'.header = x.header := by
      have := hD'.sub hd'
      rw [hD.sub hd] at this
      exact (Option.some.inj this).symm
    refine List.mem_map.2 ⟨x', (mem_roundCertificates hD').2 ⟨d, hd', ?_⟩, hheader⟩
    rw [← hr, Certificate.round, hheader, Certificate.round]

end Known

/-! ## Inserting blocks in any order -/

section InsertAll

variable [Crypto]

variable {committee : Committee} {U : Digest → Option Header} {D : MahiDag}

theorem has_insertAll : ∀ (xs : List Certificate) {D : MahiDag}, ∀ x ∈ xs,
    (D.insertAll xs).Has x.digest
  | [], _, _, hy => absurd hy List.not_mem_nil
  | x :: xs, D, y, hy => by
    rcases List.mem_cons.1 hy with rfl | hy
    · obtain ⟨q, hq⟩ := exists_block_insert (D := D) (x := y)
      exact ⟨q, block_insertAll_of_block xs hq⟩
    · exact has_insertAll xs y hy

theorem block_insertAll_eq_some : ∀ (xs : List Certificate) {D : MahiDag} {d : Digest}
    {c : Certificate}, (D.insertAll xs).block d = some c →
      D.block d = some c ∨ c.digest = d ∧ c ∈ xs
  | [], _, _, _, h => .inl h
  | x :: xs, D, d, c, h => by
    rcases block_insertAll_eq_some xs h with h | ⟨hd, hc⟩
    · rcases block_insert_eq_some h with h | ⟨hd, rfl⟩
      · exact .inl h
      · exact .inr ⟨hd, List.mem_cons_self⟩
    · exact .inr ⟨hd, List.mem_cons_of_mem _ hc⟩

theorem Filled.insertAll : ∀ (xs : List Certificate) {D : MahiDag}, Filled D →
    Filled (D.insertAll xs)
  | [], _, h => h
  | _ :: xs, _, h => Filled.insertAll xs h.insert

theorem Caches.insertAll : ∀ (xs : List Certificate) {D : MahiDag}, Caches committee U D →
    Caches committee U (D.insertAll xs)
  | [], _, h => h
  | _ :: xs, _, h => Caches.insertAll xs h.insert

theorem slot_insertAll : ∀ (xs : List Certificate) {D : MahiDag}, (∀ {a r d},
    d ∈ D.slotDigests a r ↔ ∃ c, D.block d = some c ∧ c.round = r ∧ c.origin = a) →
    ∀ {a r d}, d ∈ (D.insertAll xs).slotDigests a r ↔
      ∃ c, (D.insertAll xs).block d = some c ∧ c.round = r ∧ c.origin = a
  | [], _, h, _, _, _ => h
  | _ :: xs, _, h, _, _, _ => slot_insertAll xs (slot_insert h)

/-- A causally closed set of blocks of the universe can be put in in any order. -/
theorem Indexed.insertAll (hD : Indexed U D) {xs : List Certificate}
    (hx : ∀ x ∈ xs, U x.digest = some x.header)
    (hp : ∀ x ∈ xs, ∀ p ∈ x.header.parents, D.Has p ∨ ∃ y ∈ xs, y.digest = p) :
    Indexed U (D.insertAll xs) := by
  have hsub : ∀ {d c}, (D.insertAll xs).block d = some c → U d = some c.header := fun h => by
    rcases block_insertAll_eq_some xs h with h | ⟨rfl, hc⟩
    · exact hD.sub h
    · exact hx _ hc
  refine ⟨hsub, fun {d c} h p hmem => ?_, slot_insertAll xs hD.slot⟩
  have hparent : D.Has p ∨ ∃ y ∈ xs, y.digest = p := by
    rcases block_insertAll_eq_some xs h with h | ⟨-, hc⟩
    · exact .inl (hD.closed h p hmem)
    · exact hp c hc p hmem
  rcases hparent with ⟨q, hq⟩ | ⟨y, hy, rfl⟩
  · exact ⟨q, block_insertAll_of_block xs hq⟩
  · exact has_insertAll xs y hy

theorem filled_new {genesis : List Certificate} : Filled (MahiDag.new genesis) :=
  Filled.insertAll genesis fun r byAuthor h => by simp at h

theorem block_new_eq_some {genesis : List Certificate} {d : Digest} {c : Certificate}
    (h : (MahiDag.new genesis).block d = some c) : c.digest = d ∧ c ∈ genesis := by
  rcases block_insertAll_eq_some genesis h with h | h
  · simp [MahiDag.block] at h
  · exact h

end InsertAll

/-! ## Where a node stops -/

section Settled

variable [Crypto] (committee : Committee) (U : Digest → Option Header) (waveLength : ℕ)
  (schedule : ℕ → ℕ → PublicKey) (consensus : Consensus)

/-- The slots with a known leader, and the first of them that the DAG does not decide. -/
structure Stops (D : MahiDag) (n t : ℕ) : Prop where
  eligible : ∀ u < n, Eligible consensus waveLength D u
  last : ¬ Eligible consensus waveLength D n
  decided : ∀ u < t, ∃ v, DecidedIn committee U waveLength schedule D n u v
  stuck : ∀ v, ¬ DecidedIn committee U waveLength schedule D n t v

/-- A committer that has passed the slots that the DAG `D₀`, a part of its own, decides. -/
structure Settled (D₀ : MahiDag) (ys : List Certificate) (c : MahiCommitter)
    (out : List Certificate) : Prop where
  reached : Reached committee U waveLength schedule ys c out
  filled : Filled c.dag
  blocks : ∀ d q, c.dag.block d = some q →
    q.digest = d ∧ q ∈ Certificate.genesis committee ++ ys
  out_mem : ∀ q ∈ out, q ∈ Certificate.genesis committee ++ ys
  indexed₀ : Indexed U D₀
  filled₀ : Filled D₀
  sub : ∀ d, D₀.Has d → c.dag.Has d
  stops : ∃ n t, Stops committee U waveLength schedule consensus D₀ n t ∧
    c.firstPending = slotAt t ∧ Kept (Judged committee U waveLength schedule D₀ n) c.decisions

variable {committee U waveLength schedule consensus} {B : Finset PublicKey} {D D' : MahiDag}
  {n n' t t' : ℕ}

theorem Stops.slots_le (hcoin : Recovers consensus) (hD : Indexed U D) (hD' : Indexed U D')
    (hfilled : Filled D) (hsub : ∀ d, D.Has d → D'.Has d)
    (h : Stops committee U waveLength schedule consensus D n t)
    (h' : Stops committee U waveLength schedule consensus D' n' t') : n ≤ n' := by
  by_contra hlt
  exact h'.last ((h.eligible n' (not_le.1 hlt)).mono hcoin hD hD' hfilled hsub)

/-- A node with more blocks stops no earlier. -/
theorem Stops.le (hcoin : Recovers consensus) (hD : Indexed U D) (hD' : Indexed U D')
    (hfilled : Filled D) (hsub : ∀ d, D.Has d → D'.Has d)
    (h : Stops committee U waveLength schedule consensus D n t)
    (h' : Stops committee U waveLength schedule consensus D' n' t') : t ≤ t' := by
  by_contra hlt
  obtain ⟨v, hv⟩ := h.decided t' (not_le.1 hlt)
  exact h'.stuck v (hv.mono (h.slots_le hcoin hD hD' hfilled hsub h') hsub)

/-- Two nodes with the same blocks have output the same. -/
theorem Settled.out_eq (hU : MahiUniverse committee B U) (hcoin : Recovers consensus)
    {ys ys' : List Certificate} {c c' : MahiCommitter} {out out' : List Certificate}
    (h : Settled committee U waveLength schedule consensus D ys c out)
    (h' : Settled committee U waveLength schedule consensus D' ys' c' out')
    (hsame : ∀ d, D.Has d ↔ D'.Has d) :
    out.map Certificate.header = out'.map Certificate.header := by
  obtain ⟨n, t, hstops, ht, -⟩ := h.stops
  obtain ⟨n', t', hstops', ht', -⟩ := h'.stops
  have hle := hstops.le hcoin h.indexed₀ h'.indexed₀ h.filled₀ (fun d => (hsame d).1) hstops'
  have hge := hstops'.le hcoin h'.indexed₀ h.indexed₀ h'.filled₀ (fun d => (hsame d).2) hstops
  obtain rfl := le_antisymm hle hge
  obtain ⟨s, hs, he⟩ := h.reached.emits
  obtain ⟨s', hs', he'⟩ := h'.reached.emits
  obtain rfl := slotAt_injective (hs.symm.trans ht)
  obtain rfl := slotAt_injective (hs'.symm.trans ht')
  exact (he.unique hU he').2

theorem Settled.tryDecide (hU : MahiUniverse committee B U) (hw : 1 ≤ waveLength)
    (hc : Schedule committee waveLength schedule consensus) (hcoin : Recovers consensus)
    {D₀ : MahiDag} {ys : List Certificate} {c : MahiCommitter} {out : List Certificate}
    (h : Settled committee U waveLength schedule consensus D₀ ys c out) :
    ∃ c' sequence, c.tryDecide consensus = .ok (c', sequence) ∧
      Settled committee U waveLength schedule consensus c.dag ys c' (out ++ sequence) ∧
      ∀ d, c'.dag.Has d → c.dag.Has d := by
  obtain ⟨n, t, hstops, ht, hkept⟩ := h.stops
  have hD := h.reached.indexed
  obtain ⟨s, hs, he⟩ := h.reached.emits
  obtain rfl := slotAt_injective (hs.symm.trans ht)
  obtain ⟨m, hslots, heligible, hlast⟩ := pendingSlots_eq hc h.reached.waveLength_eq ht
  -- the slots passed have a known leader, and so have those found now
  have hknown : ∀ u < s + m, Eligible consensus waveLength c.dag u := fun u hu => by
    rcases lt_or_ge u s with hus | hsu
    · obtain ⟨v, hv⟩ := hstops.decided u hus
      exact (hstops.eligible u (hv.lt hw)).mono hcoin h.indexed₀ hD h.filled₀ h.sub
    · exact heligible u hsu hu
  have hn : n ≤ s + m := by
    by_contra hlt
    exact hlast ((hstops.eligible _ (not_le.1 hlt)).mono hcoin h.indexed₀ hD h.filled₀ h.sub)
  obtain ⟨records, decisions, hdecide, hrecords, hlength, hdecisions⟩ :=
    computes_decideSlots_exact hU hw hD rfl (hkept.mono hn h.sub)
  obtain ⟨D, hrun, hheld⟩ := hdecide c.dag ⟨rfl, rfl, h.reached.caches⟩
  have hsound : ∀ {u : ℕ} {rs : List DecisionRecord},
      Each schedule (Judged committee U waveLength schedule c.dag (s + m)) u rs →
      Records committee U waveLength schedule c.dag u rs := fun {u rs} h => by
    induction rs generalizing u with
    | nil => trivial
    | cons r rs ih => exact ⟨h.1, h.2.1.sound, ih h.2.2⟩
  obtain ⟨c', sequence, htry, h₁, h₂, h₃, h₄, h₅, h₆⟩ := tryDecide_eq hc.committee hD hslots
    (by rw [h.reached.waveLength_eq]; exact hrun) hheld (hsound hrecords) ht he
  have hblock : c'.dag.block = c.dag.block := h₂.block
  have hhas : ∀ d, c'.dag.Has d ↔ c.dag.Has d := fun d => by rw [MahiDag.Has, hblock]
  refine ⟨c', sequence, htry, ⟨⟨h₁.trans h.reached.waveLength_eq, h₂.indexed hD, h₂.caches, ?_,
    fun y hy => (hhas _).2 (h.reached.held y hy), _, h₄, by rwa [List.map_append]⟩, ?_, ?_,
    fun q hq => ?_, hD, h.filled, fun d => (hhas d).2, s + m, s + passed records,
    ⟨hknown, hlast, fun u hu => ?_, not_decidedIn_passed hw hrecords (by rw [hlength])⟩, h₄,
    h₃ ▸ hdecisions⟩, fun d => (hhas d).1⟩
  · rw [h₃]
    intro id decision hl
    obtain ⟨u, hu, hdec, hj⟩ := hdecisions id decision hl
    exact ⟨u, hu, hdec, hj.sound.mono fun d q hd => hblock ▸ hd⟩
  · intro r byAuthor hl
    rw [h₂.byRound] at hl
    rw [hblock]
    exact h.filled r byAuthor hl
  · rw [hblock]
    exact h.blocks
  · rcases List.mem_append.1 hq with hq | hq
    · exact h.out_mem q hq
    · obtain ⟨d, hd⟩ := h₆ q hq
      exact (h.blocks d q hd).2
  · rcases lt_or_ge u s with hus | hsu
    · obtain ⟨v, hv⟩ := hstops.decided u hus
      exact ⟨v, hv.mono hn h.sub⟩
    · exact decidedIn_of_passed hrecords u hsu hu

theorem highestRound_new : (MahiDag.new (Certificate.genesis committee)).highestRound = 0 := by
  rcases hl : (MahiDag.new (Certificate.genesis committee)).byRound.keys.getLast? with _ | r
  · rw [highestRound, hl]
    rfl
  · obtain ⟨byAuthor, hr⟩ := SortedMap.mem_keys.1 (List.mem_of_getLast? hl)
    obtain ⟨d, c, hd, hc⟩ := filled_new r byAuthor hr
    rw [highestRound, hl, Option.getD_some, ← hc]
    exact (Certificate.genesis_parents (block_new_eq_some hd).2).2

/-- A fresh committer with blocks put in has passed what the genesis decides: nothing. -/
theorem Settled.new (hU : MahiUniverse committee B U) (hw : 1 ≤ waveLength)
    {ys : List Certificate} (hx : ∀ y ∈ ys, U y.digest = some y.header)
    (hp : ∀ y ∈ ys, ∀ p ∈ y.header.parents, ∃ z ∈ Certificate.genesis committee ++ ys,
      z.digest = p) :
    Settled committee U waveLength schedule consensus (MahiDag.new (Certificate.genesis committee))
      ys { MahiCommitter.new (Certificate.genesis committee) waveLength with
        dag := (MahiDag.new (Certificate.genesis committee)).insertAll ys } [] := by
  obtain ⟨h₁, h₂, h₃⟩ := indexed_new hU
  have hsub : ∀ d, (MahiDag.new (Certificate.genesis committee)).Has d →
      ((MahiDag.new (Certificate.genesis committee)).insertAll ys).Has d := by
    rintro d ⟨q, hq⟩
    exact ⟨q, block_insertAll_of_block ys hq⟩
  have hindexed : Indexed U ((MahiDag.new (Certificate.genesis committee)).insertAll ys) := by
    refine h₁.insertAll hx fun y hy p hmem => ?_
    obtain ⟨z, hz, rfl⟩ := hp y hy p hmem
    rcases List.mem_append.1 hz with hz | hz
    · exact .inl (h₃ z hz)
    · exact .inr ⟨z, hz, rfl⟩
  refine ⟨⟨rfl, hindexed, Caches.insertAll ys h₂, fun id decision h => by
      simp [MahiCommitter.new] at h, fun y hy => ?_, 0, rfl, .start⟩,
    Filled.insertAll ys filled_new, fun d q hq => ?_, by simp, h₁, filled_new, hsub, 0, 0,
    ⟨by simp, fun h => ?_, by simp, fun v h => absurd (h.lt hw) (lt_irrefl _)⟩, rfl,
    fun id decision h => by simp [MahiCommitter.new] at h⟩
  · rcases List.mem_append.1 hy with hy | hy
    · exact hsub _ (h₃ y hy)
    · exact has_insertAll ys y hy
  · rcases block_insertAll_eq_some ys hq with hq | ⟨hd, hq⟩
    · obtain ⟨hd, hq⟩ := block_new_eq_some hq
      exact ⟨hd, List.mem_append_left _ hq⟩
    · exact ⟨hd, List.mem_append_right _ hq⟩
  · have hlt := h.1
    rw [highestRound_new] at hlt
    omega

theorem Settled.insert {D₀ : MahiDag} {ys : List Certificate} {x : Certificate}
    {c : MahiCommitter} {out : List Certificate}
    (h : Settled committee U waveLength schedule consensus D₀ ys c out)
    (hx : U x.digest = some x.header)
    (hp : ∀ p ∈ x.header.parents, ∃ y ∈ Certificate.genesis committee ++ ys, y.digest = p) :
    Settled committee U waveLength schedule consensus D₀ (ys ++ [x])
      { c with dag := (c.dag.insert x).1 } out := by
  have hsub : ∀ d, c.dag.Has d → (c.dag.insert x).1.Has d := by
    rintro d ⟨q, hq⟩
    exact ⟨q, block_insert_of_block hq⟩
  have hmem : ∀ q ∈ Certificate.genesis committee ++ ys,
      q ∈ Certificate.genesis committee ++ (ys ++ [x]) := fun q hq => by
    rw [← List.append_assoc]
    exact List.mem_append_left _ hq
  refine ⟨⟨h.reached.waveLength_eq, h.reached.indexed.insert hx fun p hmem => ?_,
    h.reached.caches.insert, h.reached.decisions.mono fun d q => block_insert_of_block,
    fun y hy => ?_, h.reached.emits⟩, h.filled.insert, fun d q hq => ?_,
    fun q hq => hmem q (h.out_mem q hq), h.indexed₀, h.filled₀,
    fun d hd => hsub d (h.sub d hd), h.stops⟩
  · obtain ⟨y, hy, rfl⟩ := hp p hmem
    exact h.reached.held y hy
  · rw [← List.append_assoc, List.mem_append, List.mem_singleton] at hy
    rcases hy with hy | rfl
    · exact hsub _ (h.reached.held y hy)
    · exact exists_block_insert
  · rcases block_insert_eq_some hq with hq | ⟨hd, rfl⟩
    · exact ⟨(h.blocks d q hq).1, hmem q (h.blocks d q hq).2⟩
    · exact ⟨hd, by simp⟩

/-- After each block a node has passed what its DAG decides. -/
theorem settled_run (hU : MahiUniverse committee B U) (hw : 1 ≤ waveLength)
    (hc : Schedule committee waveLength schedule consensus) (hcoin : Recovers consensus)
    {xs : List Certificate} (hd : Delivery committee U xs) :
    ∃ c, (run consensus waveLength xs).1 = some c ∧ ∃ D₀, Settled committee U waveLength schedule
      consensus D₀ xs c (run consensus waveLength xs).2 ∧ ∀ d, c.dag.Has d → D₀.Has d := by
  rw [run]
  refine run_total _ (P := fun ys c out => ∃ D₀, Settled committee U waveLength schedule
    consensus D₀ ys c out ∧ ∀ d, c.dag.Has d → D₀.Has d) ?_ xs fun ys x c out hpre h => ?_
  · rw [Consensus.genesis, hc.committee]
    exact ⟨_, Settled.new hU hw (by simp) (by simp), fun d hd => hd⟩
  · obtain ⟨hx, hp⟩ := hd ys x hpre
    obtain ⟨D₀, h, hall⟩ := h
    by_cases hnew : (c.dag.insert x).2 = true
    · obtain ⟨c', sequence, htry, h', hsame⟩ := (h.insert hx hp).tryDecide hU hw hc hcoin
      refine ⟨c', sequence, ?_, _, h', hsame⟩
      rw [MahiMahi.step]
      simp only [hnew, if_true]
      rw [htry]
      rfl
    · -- a block it has already changes nothing
      have hsome : (c.dag.block x.digest).isSome = true := by
        by_contra hno
        rw [MahiDag.insert, if_neg hno] at hnew
        exact hnew rfl
      refine ⟨{ c with dag := (c.dag.insert x).1 }, [], ?_, D₀, ?_, fun d hd => hall d ?_⟩
      · rw [MahiMahi.step]
        simp only [hnew]
        rfl
      · simpa using h.insert hx hp
      · rwa [insert_of_isSome hsome] at hd

/-- The blocks of a causal order are causally closed. -/
theorem Delivery.closed {xs : List Certificate} (hd : Delivery committee U xs) :
    ∀ x ∈ xs, U x.digest = some x.header ∧
      ∀ p ∈ x.header.parents, ∃ y ∈ Certificate.genesis committee ++ xs, y.digest = p := by
  intro x hx
  obtain ⟨zs, ws, rfl⟩ := List.append_of_mem hx
  obtain ⟨hxU, hp⟩ := hd zs x ⟨ws, by simp⟩
  refine ⟨hxU, fun p hmem => ?_⟩
  obtain ⟨y, hy, rfl⟩ := hp p hmem
  refine ⟨y, ?_, rfl⟩
  rw [← List.append_assoc]
  exact List.mem_append_left _ hy

omit [Crypto] in
/-- Blocks without votes are their headers. -/
theorem eq_of_votes {l l' : List Certificate} (hl : ∀ q ∈ l, q.votes = [])
    (hl' : ∀ q ∈ l', q.votes = []) (h : l.map Certificate.header = l'.map Certificate.header) :
    l = l' := by
  have hmap : ∀ k : List Certificate, (∀ q ∈ k, q.votes = []) →
      (k.map Certificate.header).map (fun header => (⟨header, []⟩ : Certificate)) = k :=
    fun k hk => by
      rw [List.map_map]
      refine (List.map_congr_left fun q hq => ?_).trans (List.map_id k)
      rw [Function.comp_apply, ← hk q hq, id]
  rw [← hmap l hl, h, hmap l' hl']

variable (consensus waveLength) in
/-- A single `try_decide` of a fresh committer that has been given blocks. -/
def batch (xs : List Certificate) : Except String (MahiCommitter × List Certificate) :=
  let c := MahiCommitter.new consensus.genesis waveLength
  { c with dag := c.dag.insertAll xs }.tryDecide consensus

/-- Deciding after each block outputs what one decision on all the blocks outputs, in whatever
order they come. -/
theorem run_eq_batch (hU : MahiUniverse committee B U) (hw : 1 ≤ waveLength)
    (hc : Schedule committee waveLength schedule consensus) (hcoin : Recovers consensus)
    {xs ys : List Certificate} (hd : Delivery committee U xs) (hset : ∀ x, x ∈ ys ↔ x ∈ xs) :
    ∃ c c' sequence, (run consensus waveLength xs).1 = some c ∧
      batch waveLength consensus ys = .ok (c', sequence) ∧
      (run consensus waveLength xs).2.map Certificate.header = sequence.map Certificate.header ∧
      ((∀ x ∈ xs, x.votes = []) → (run consensus waveLength xs).2 = sequence) := by
  have hdelivered := hd.closed
  obtain ⟨c, hrun, D₀, h, hall⟩ := settled_run hU hw hc hcoin hd
  have hfresh : Settled committee U waveLength schedule consensus _ ys _ [] :=
    Settled.new hU hw (fun y hy => (hdelivered y ((hset y).1 hy)).1) fun y hy p hmem => by
      obtain ⟨z, hz, rfl⟩ := (hdelivered y ((hset y).1 hy)).2 p hmem
      refine ⟨z, ?_, rfl⟩
      rw [List.mem_append] at hz ⊢
      exact hz.imp_right (hset z).2
  obtain ⟨c', sequence, htry, h', -⟩ := hfresh.tryDecide hU hw hc hcoin
  have hsame : ∀ d, D₀.Has d ↔
      ((MahiDag.new (Certificate.genesis committee)).insertAll ys).Has d := fun d => by
    constructor
    · intro hD
      obtain ⟨q, hq⟩ := h.sub d hD
      obtain ⟨rfl, hmem⟩ := h.blocks d q hq
      refine hfresh.reached.held q ?_
      rw [List.mem_append] at hmem ⊢
      exact hmem.imp_right (hset q).2
    · rintro ⟨q, hq⟩
      obtain ⟨rfl, hmem⟩ := hfresh.blocks d q hq
      refine hall _ (h.reached.held q ?_)
      rw [List.mem_append] at hmem ⊢
      exact hmem.imp_right (hset q).1
  have hout := h.out_eq hU hcoin h' hsame
  refine ⟨c, c', sequence, hrun, ?_, hout, fun hvotes => ?_⟩
  · rw [batch, Consensus.genesis, hc.committee]
    exact htry
  · have hmem : ∀ q ∈ Certificate.genesis committee ++ xs, q.votes = [] := fun q hq =>
      (List.mem_append.1 hq).elim Certificate.genesis_votes (hvotes q)
    refine eq_of_votes (fun q hq => hmem q (h.out_mem q hq)) (fun q hq => hmem q ?_) hout
    have hq' := h'.out_mem q hq
    rw [List.mem_append] at hq' ⊢
    exact hq'.imp_right (hset q).1

end Settled

/-- Five rounds one by one and all at once, last block first: six blocks are out. -/
theorem run_eq_batch_fullDag :
    letI := toyCrypto
    (run fourNodes 4 (fullDag.drop 4)).2.length = 6 ∧
      ∃ c c' sequence, (run fourNodes 4 (fullDag.drop 4)).1 = some c ∧
        batch 4 fourNodes (fullDag.drop 4).reverse = .ok (c', sequence) ∧
        (run fourNodes 4 (fullDag.drop 4)).2.map Certificate.header =
          sequence.map Certificate.header ∧
        ((∀ x ∈ fullDag.drop 4, x.votes = []) →
          (run fourNodes 4 (fullDag.drop 4)).2 = sequence) := by
  let _ := toyCrypto
  have h : (run fourNodes 4 (fullDag.drop 4)).2.length = 6 ∧
      InOrder fourNodes.committee fullDag (fullDag.drop 4) := by decide +kernel
  exact ⟨h.1, run_eq_batch fullDag_universe (by decide) fourNodes_schedule
    (fun recover h => by cases h) (.of_list h.2) fun _ => List.mem_reverse⟩

end MahiMahi

end NovelDag
