import NovelDag.Proofs.MahiQueries

/-!
# The decisions of Mahi-Mahi

Slots are numbered in the order they are decided. A decision taken on a DAG that holds the parents
of its blocks is one the evidence of the universe supports, so the assertions on the number of
certified leaders hold and no two nodes decide a slot in two ways.
-/

namespace NovelDag

namespace MahiMahi

open Fallible MahiDag AnchorDecision

variable {committee : Committee} {U : Digest → Option Header} {D₀ : MahiDag}

/-! ## Quorums of blocks -/

section Quorum

open Classical in
/-- The authors of the blocks with a property. -/
noncomputable def authorsOf (block : Digest → Option Certificate) (P : Digest → Prop)
    (ds : List Digest) : List PublicKey :=
  ds.filterMap fun d => (block d).bind fun c => if P d then some c.origin else none

open Classical in
theorem computes_quorumOf {test : Digest → DagM Bool} {missing : String} {P : Digest → Prop} :
    ∀ {ds : List Digest} {met : List PublicKey} {stake : ℕ}, (∀ d ∈ ds, ∃ c,
      D₀.block d = some c ∧ Computes (Holds committee U D₀) (test d) (decide (P d))) →
      stake = Weighted.weight committee.stake met.toFinset → stake < committee.quorumThreshold →
      Computes (Holds committee U D₀) (quorumOf committee test missing ds met stake)
        (decide (committee.quorumThreshold ≤ Weighted.weight committee.stake
          (met.toFinset ∪ (authorsOf D₀.block P ds).toFinset)))
  | [], met, stake, _, hstake, hlt => by
    rw [quorumOf, authorsOf, List.filterMap_nil, List.toFinset_nil, Finset.union_empty,
      decide_eq_false (by omega)]
    exact .pure _
  | d :: ds, met, stake, hds, hstake, hlt => by
    obtain ⟨c, hc, htest⟩ := hds d List.mem_cons_self
    have hds' := fun d hd => hds d (List.mem_cons_of_mem _ hd)
    have hauthors : authorsOf D₀.block P (d :: ds) =
        if P d then c.origin :: authorsOf D₀.block P ds else authorsOf D₀.block P ds := by
      rw [authorsOf, List.filterMap_cons, hc, Option.bind_some]
      split_ifs <;> rfl
    rw [quorumOf, hauthors]
    refine .bind htest ?_
    by_cases hP : P d
    · rw [decide_eq_true hP, if_pos rfl, if_pos hP, List.toFinset_cons]
      refine .get_bind fun D hD => ?_
      simp only [hD.block, hc]
      split_ifs with hmet hle
      · rw [Finset.union_insert,
          Finset.insert_eq_of_mem (Finset.mem_union_left _ (List.mem_toFinset.2 hmet))]
        exact computes_quorumOf hds' hstake hlt
      all_goals
        have hstake' : stake + committee.stake c.origin =
            Weighted.weight committee.stake (insert c.origin met.toFinset) := by
          rw [Weighted.weight_insert_of_notMem _ fun h => hmet (List.mem_toFinset.1 h), hstake,
            add_comm]
        rw [Finset.union_insert, ← Finset.insert_union]
      · rw [decide_eq_true ((hstake' ▸ hle).trans
          (Weighted.weight_mono _ Finset.subset_union_left))]
        exact .pure _
      · rw [← List.toFinset_cons] at hstake' ⊢
        exact computes_quorumOf hds' hstake' (not_le.1 hle)
    · rw [decide_eq_false hP, if_neg Bool.false_ne_true, if_neg hP]
      exact computes_quorumOf hds' hstake hlt

/-- The authors counted are those of the blocks of the round the DAG has. -/
theorem quorumAt_authorsOf (hD₀ : Indexed U D₀) {r : ℕ} {P : Digest → Prop} :
    committee.quorumThreshold ≤ Weighted.weight committee.stake
      (authorsOf D₀.block P (D₀.roundDigests r)).toFinset ↔
        QuorumAt committee U r fun d => D₀.Has d ∧ P d := by
  constructor
  · intro h
    refine ⟨_, h, fun a ha => ?_⟩
    rw [List.mem_toFinset, authorsOf, List.mem_filterMap] at ha
    obtain ⟨d, hd, hda⟩ := ha
    obtain ⟨c, hc, hr⟩ := hD₀.round.1 hd
    rw [hc, Option.bind_some] at hda
    split_ifs at hda with hP
    · exact ⟨d, ⟨c.header, hD₀.sub hc, hr, Option.some.inj hda⟩, ⟨c, hc⟩, hP⟩
  · rintro ⟨S, hS, hP⟩
    refine hS.trans (Weighted.weight_mono _ fun a ha => ?_)
    obtain ⟨d, ⟨q, hq, hr, hqa⟩, ⟨c, hc⟩, hPd⟩ := hP a ha
    rw [hD₀.sub hc] at hq
    cases hq
    rw [List.mem_toFinset, authorsOf, List.mem_filterMap]
    refine ⟨d, hD₀.round.2 ⟨c, hc, hr⟩, ?_⟩
    rw [hc, Option.bind_some, if_pos hPd]
    exact congrArg some hqa

/-- A quorum is counted over the blocks of a round the DAG has. -/
theorem computes_roundQuorum (hD₀ : Indexed U D₀) {r : ℕ} {test : Digest → DagM Bool}
    {missing : String} {P : Digest → Prop} (htest : ∀ d c, D₀.block d = some c →
      ∃ b, Computes (Holds committee U D₀) (test d) b ∧ (b = true ↔ P d)) :
    ∃ b, Computes (Holds committee U D₀)
      (quorumOf committee test missing (D₀.roundDigests r) [] 0) b ∧
        (b = true ↔ QuorumAt committee U r fun d => D₀.Has d ∧ P d) := by
  classical
  refine ⟨_, computes_quorumOf (P := P) (fun d hd => ?_) rfl committee.quorumThreshold_pos, ?_⟩
  · obtain ⟨c, hc, -⟩ := hD₀.round.1 hd
    obtain ⟨b, hb, hP⟩ := htest d c hc
    rw [show b = decide (P d) from Bool.eq_iff_iff.2 (by simpa using hP)] at hb
    exact ⟨c, hc, hb⟩
  · rw [decide_eq_true_iff, List.toFinset_nil, Finset.empty_union]
    exact quorumAt_authorsOf hD₀

end Quorum

/-! ## Slots in order -/

def slotAt (s : ℕ) : SlotId := ⟨1 + s / leaderCount, s % leaderCount⟩

section Decisions

variable (committee U) (waveLength : ℕ) (schedule : ℕ → ℕ → PublicKey)

def leaderAt (s : ℕ) : PublicKey := schedule (slotAt s).round (slotAt s).index

def slotOf (s : ℕ) : LeaderSlot := ⟨slotAt s, leaderAt schedule s⟩

/-- The verdicts the evidence in the universe supports. -/
abbrev Supported : ℕ → Verdict Digest → Prop :=
  Decided (commits committee U waveLength (fun s => (slotAt s).round) (leaderAt schedule))
    (skips committee U waveLength (fun s => (slotAt s).round) (leaderAt schedule))
    (past waveLength fun s => (slotAt s).round)
    (certifies committee U waveLength (fun s => (slotAt s).round) (leaderAt schedule))

/-- A decision that says nothing or what the evidence supports, and commits a block of the DAG. -/
def Sound (D : MahiDag) (s : ℕ) : LeaderDecision → Prop
  | .commit d => Supported committee U waveLength schedule s (.commit d) ∧
      ∃ c, D.block d = some c
  | .skip => Supported committee U waveLength schedule s .skip
  | .undecided => True

/-- Records of consecutive slots with sound decisions. -/
def Records (D : MahiDag) : ℕ → List DecisionRecord → Prop
  | _, [] => True
  | s, record :: records => record.slot = slotOf schedule s ∧
      Sound committee U waveLength schedule D s record.decision ∧ Records D (s + 1) records

/-- The decisions kept are of slots and sound. -/
def Decisions (D : MahiDag) (decisions : FinMap SlotId LeaderDecision) : Prop :=
  ∀ id decision, decisions.lookup id = some decision → ∃ s, id = slotAt s ∧
    decision.isDecided = true ∧ Sound committee U waveLength schedule D s decision

/-- The DAG has a quorum of decision blocks that certifies the block. -/
def commitsIn (D : MahiDag) (s : ℕ) (d : Digest) : Prop :=
  candidate U (fun s => (slotAt s).round) (leaderAt schedule) s d ∧
    QuorumAt committee U ((slotAt s).round + waveLength - 1) fun c =>
      D.Has c ∧ Certifies U committee c d

/-- The DAG has a quorum of vote blocks that supports no block of the slot. -/
def skipsIn (D : MahiDag) (s : ℕ) : Prop :=
  QuorumAt committee U ((slotAt s).round + waveLength - 2) fun v =>
    D.Has v ∧ supportOf U (leaderAt schedule s) (slotAt s).round v = none

/-- What the DAG decides of a slot on its own. -/
def Direct (D : MahiDag) (s : ℕ) : LeaderDecision → Prop
  | .commit d => commitsIn committee U waveLength schedule D s d ∧ D.Has d
  | .skip => skipsIn committee U waveLength schedule D s
  | .undecided => (∀ d, ¬ commitsIn committee U waveLength schedule D s d) ∧
      ¬ skipsIn committee U waveLength schedule D s

/-- Records of consecutive slots with a property. -/
def Each (J : ℕ → LeaderDecision → Prop) : ℕ → List DecisionRecord → Prop
  | _, [] => True
  | s, record :: records => record.slot = slotOf schedule s ∧ J s record.decision ∧
      Each J (s + 1) records

/-- The decisions kept are of slots and have a property. -/
def Kept (J : ℕ → LeaderDecision → Prop) (decisions : FinMap SlotId LeaderDecision) : Prop :=
  ∀ id decision, decisions.lookup id = some decision → ∃ s, id = slotAt s ∧
    decision.isDecided = true ∧ J s decision

variable {committee U waveLength schedule}

theorem records_iff {D : MahiDag} : ∀ {s : ℕ} {records : List DecisionRecord},
    Records committee U waveLength schedule D s records ↔
      Each schedule (Sound committee U waveLength schedule D) s records
  | _, [] => Iff.rfl
  | _, _ :: _ => and_congr_right fun _ => and_congr_right fun _ => records_iff

theorem commitsIn.commits {D : MahiDag} {s : ℕ} {d : Digest}
    (h : commitsIn committee U waveLength schedule D s d) :
    commits committee U waveLength (fun s => (slotAt s).round) (leaderAt schedule) s d :=
  ⟨h.1, h.2.mono fun _ hc => hc.2⟩

theorem skipsIn.skips {D : MahiDag} {s : ℕ} (h : skipsIn committee U waveLength schedule D s) :
    skips committee U waveLength (fun s => (slotAt s).round) (leaderAt schedule) s :=
  h.mono fun _ hv => hv.2

theorem Direct.sound {D : MahiDag} {s : ℕ} {decision : LeaderDecision}
    (h : Direct committee U waveLength schedule D s decision) :
    Sound committee U waveLength schedule D s decision := by
  cases decision with
  | commit d => exact ⟨.directCommit h.1.commits, h.2⟩
  | skip => exact .directSkip h.skips
  | undecided => trivial

theorem slotAt_injective : Function.Injective slotAt := fun s t h => by
  simp only [slotAt, SlotId.mk.injEq, leaderCount] at h
  omega

theorem Sound.mono {D D' : MahiDag} (hsub : ∀ d c, D.block d = some c → D'.block d = some c)
    {s : ℕ} {decision : LeaderDecision} (h : Sound committee U waveLength schedule D s decision) :
    Sound committee U waveLength schedule D' s decision := by
  cases decision with
  | commit d =>
    obtain ⟨h, c, hc⟩ := h
    exact ⟨h, c, hsub d c hc⟩
  | skip => exact h
  | undecided => trivial

theorem Decisions.mono {D D' : MahiDag} (hsub : ∀ d c, D.block d = some c → D'.block d = some c)
    {decisions : FinMap SlotId LeaderDecision}
    (h : Decisions committee U waveLength schedule D decisions) :
    Decisions committee U waveLength schedule D' decisions := fun id decision hl => by
  obtain ⟨s, hs, hd, hsound⟩ := h id decision hl
  exact ⟨s, hs, hd, hsound.mono hsub⟩

/-- A list of one block at most: two different ones would contradict each other. -/
theorem length_le_one {l : List Digest} {P : Digest → Prop} (hn : l.Nodup) (hl : ∀ d ∈ l, P d)
    (hP : ∀ d d', P d → P d' → d = d') : ∀ d d' ds, l ≠ d :: d' :: ds := by
  rintro d d' ds rfl
  have := hP d d' (hl d List.mem_cons_self) (hl d' (List.mem_cons_of_mem _ List.mem_cons_self))
  exact (List.nodup_cons.1 hn).1 (this ▸ List.mem_cons_self)

variable [Crypto] {B : Finset PublicKey}

/-- No slot is decided in two ways. -/
theorem Sound.unique (hU : MahiUniverse committee B U) {D D' : MahiDag} {s : ℕ}
    {decision decision' : LeaderDecision}
    (h : Sound committee U waveLength schedule D s decision) (hd : decision.isDecided = true)
    (h' : Sound committee U waveLength schedule D' s decision')
    (hd' : decision'.isDecided = true) : decision = decision' := by
  rcases decision with d | _ | _ <;> rcases decision' with d' | _ | _
  · cases h.1.unique (consistent hU) h'.1
    rfl
  · cases h.1.unique (consistent hU) h'
  · cases hd'
  · cases Decided.unique (consistent hU) h h'.1
  · rfl
  · cases hd'
  all_goals cases hd

theorem computes_supportedCandidates (hU : MahiUniverse committee B U) (hD₀ : Indexed U D₀)
    (r : ℕ) : ∀ {ds : List Digest}, (∀ d ∈ ds, ∃ c, D₀.block d = some c) →
      ∃ l, Computes (Holds committee U D₀)
        (supportedCandidates committee (D₀.roundDigests r) ds) l ∧ l.Sublist ds ∧
          ∀ d, d ∈ l ↔ d ∈ ds ∧
            QuorumAt committee U r fun c => D₀.Has c ∧ Certifies U committee c d
  | [], _ => ⟨[], .pure _, .slnil, by simp⟩
  | d :: ds, hds => by
    classical
    obtain ⟨leader, hd⟩ := hds d List.mem_cons_self
    obtain ⟨l, hl, hsub, hq⟩ := computes_supportedCandidates hU hD₀ r
      fun d hd => hds d (List.mem_cons_of_mem _ hd)
    have htest : ∀ c cert, D₀.block c = some cert → ∃ b, Computes (Holds committee U D₀)
        (do return decide ((← isCertificate committee c d) = some true)) b ∧
          (b = true ↔ Certifies U committee c d) := fun c cert hcert =>
      ⟨_, .bind (computes_isCertificate hU hD₀ hcert hd) (.pure _), by simp⟩
    obtain ⟨b, hb, hquorum⟩ := computes_roundQuorum hD₀ (r := r) htest
    refine ⟨if b then d :: l else l, .bind hb (.bind hl (.pure _)), ?_⟩
    split_ifs with h
    · refine ⟨hsub.cons_cons d, fun e => ?_⟩
      rw [List.mem_cons, List.mem_cons, hq, or_and_right,
        and_iff_left_of_imp (a := e = d) fun he => he ▸ hquorum.1 h]
    · refine ⟨hsub.cons d, fun e => ?_⟩
      rw [List.mem_cons, hq, or_and_right, or_iff_right]
      rintro ⟨rfl, hno⟩
      exact h (hquorum.2 hno)

/-- A quorum of votes for no block of the slot is counted over the DAG. -/
theorem computes_skipVotes (hU : MahiUniverse committee B U) (hD₀ : Indexed U D₀)
    (a : PublicKey) (r voteRound : ℕ) : ∃ b, Computes (Holds committee U D₀)
      (quorumOf committee (fun voteBlock => do
        return decide ((← findSupport voteBlock a r) = some none)) "indexed vote block"
        (D₀.roundDigests voteRound) [] 0) b ∧
      (b = true ↔ QuorumAt committee U voteRound fun v => D₀.Has v ∧ supportOf U a r v = none) :=
  computes_roundQuorum hD₀ fun v c hv =>
    ⟨_, .bind (computes_findSupport hU hD₀ hv) (.pure _), by simp⟩

theorem computes_directDecision (hU : MahiUniverse committee B U) (hD₀ : Indexed U D₀) (s : ℕ) :
    ∃ decision, Computes (Holds committee U D₀)
      (directDecision committee waveLength (slotOf schedule s)) decision ∧
        Direct committee U waveLength schedule D₀ s decision := by
  have hcand : ∀ d ∈ D₀.slotDigests (leaderAt schedule s) (slotAt s).round,
      ∃ c, D₀.block d = some c := fun d hd => by
    obtain ⟨c, hc, -⟩ := hD₀.slot.1 hd
    exact ⟨c, hc⟩
  obtain ⟨l, hl, hsub, hq⟩ := computes_supportedCandidates hU hD₀
    ((slotAt s).round + waveLength - 1) hcand
  have hmem : ∀ d, d ∈ l ↔ commitsIn committee U waveLength schedule D₀ s d := fun d => by
    rw [hq]
    constructor
    · rintro ⟨hd, hquorum⟩
      obtain ⟨c, hc, hr, ha⟩ := hD₀.slot.1 hd
      exact ⟨⟨c.header, hD₀.sub hc, hr, ha⟩, hquorum⟩
    · rintro ⟨⟨c, hc, hr, ha⟩, hquorum⟩
      -- a certificate of the DAG comes with the leader
      obtain ⟨cert, -, ⟨⟨q, hcert⟩, hcertifies⟩, -⟩ := hquorum.inter hU hquorum
      obtain ⟨leader, hd⟩ := hD₀.certifies hU hcert hcertifies
      rw [hD₀.sub hd] at hc
      cases hc
      exact ⟨hD₀.slot.2 ⟨leader, hd, hr, ha⟩, hquorum⟩
  have hone := length_le_one (hsub.nodup (SortedSet.nodup _))
    (fun d hd => ((hmem d).1 hd).commits) ((consistent hU).commit_unique s)
  obtain ⟨b, hb, hskip⟩ := computes_skipVotes hU hD₀ (leaderAt schedule s) (slotAt s).round
    ((slotAt s).round + waveLength - 2)
  unfold directDecision
  rcases l with _ | ⟨d, _ | ⟨d', ds⟩⟩
  · refine ⟨if b then .skip else .undecided, .get_bind fun D hD => ?_, ?_⟩
    · rw [hD.slotDigests, hD.roundDigests]
      exact .bind hl (.bind hb (.pure _))
    · split_ifs with h
      · exact hskip.1 h
      · exact ⟨fun d hd => by simpa using (hmem d).2 hd, fun hno => h (hskip.2 hno)⟩
  · refine ⟨.commit d, .get_bind fun D hD => ?_, (hmem d).1 List.mem_cons_self,
      hcand d (hsub.subset List.mem_cons_self)⟩
    rw [hD.slotDigests, hD.roundDigests]
    exact .bind hl (.pure _)
  · exact absurd rfl (hone d d' ds)

theorem computes_anchorCertifies (hU : MahiUniverse committee B U) (hD₀ : Indexed U D₀)
    {anchor d : Digest} {a leader : Certificate} (ha : D₀.block anchor = some a)
    (hd : D₀.block d = some leader) (incomplete : Bool) :
    ∀ {cs : List Digest}, (∀ c ∈ cs, ∃ cert, D₀.block c = some cert) →
      ∃ b, Computes (Holds committee U D₀) (anchorCertifies committee anchor d cs incomplete)
        (b, incomplete) ∧ (b = true ↔ ∃ c ∈ cs, Reach U anchor c ∧ Certifies U committee c d)
  | [], _ => ⟨false, .pure _, by simp⟩
  | c :: cs, hcs => by
    classical
    obtain ⟨cert, hc⟩ := hcs c List.mem_cons_self
    obtain ⟨b, hb, ih⟩ := computes_anchorCertifies hU hD₀ ha hd incomplete
      fun c hc => hcs c (List.mem_cons_of_mem _ hc)
    have hlinked := computes_linked hU hD₀ ha hc
    have hcertifies := computes_isCertificate hU hD₀ hc hd
    by_cases h : Reach U anchor c ∧ Certifies U committee c d
    · rw [decide_eq_true h.1] at hlinked
      rw [decide_eq_true h.2] at hcertifies
      exact ⟨true, .bind hlinked (.bind hcertifies (.pure _)), by simp [h]⟩
    · refine ⟨b, .bind hlinked ?_, by rw [ih, List.exists_mem_cons_iff, or_iff_right h]⟩
      by_cases hreach : Reach U anchor c
      · rw [decide_eq_true hreach]
        refine .bind hcertifies ?_
        rw [decide_eq_false fun hcert => h ⟨hreach, hcert⟩]
        exact hb
      · rw [decide_eq_false hreach]
        exact hb

theorem computes_certifiedCandidates (hU : MahiUniverse committee B U) (hD₀ : Indexed U D₀)
    {anchor : Digest} {a : Certificate} (ha : D₀.block anchor = some a) (incomplete : Bool)
    {cs : List Digest} (hcs : ∀ c ∈ cs, ∃ cert, D₀.block c = some cert) :
    ∀ {ds : List Digest}, (∀ d ∈ ds, ∃ c, D₀.block d = some c) →
      ∃ l, Computes (Holds committee U D₀)
        (certifiedCandidates committee anchor cs ds incomplete) (l, incomplete) ∧
          l.Sublist ds ∧
          ∀ d, d ∈ l ↔ d ∈ ds ∧ ∃ c ∈ cs, Reach U anchor c ∧ Certifies U committee c d
  | [], _ => ⟨[], .pure _, .slnil, by simp⟩
  | d :: ds, hds => by
    obtain ⟨leader, hd⟩ := hds d List.mem_cons_self
    obtain ⟨b, hb, hcert⟩ := computes_anchorCertifies hU hD₀ ha hd incomplete hcs
    obtain ⟨l, hl, hsub, hmem⟩ := computes_certifiedCandidates hU hD₀ ha incomplete hcs
      fun d hd => hds d (List.mem_cons_of_mem _ hd)
    refine ⟨if b then d :: l else l, .bind hb (.bind hl (.pure _)), ?_⟩
    split_ifs with h
    · refine ⟨hsub.cons_cons d, fun e => ?_⟩
      rw [List.mem_cons, List.mem_cons, hmem, or_and_right,
        and_iff_left_of_imp (a := e = d) fun he => he ▸ hcert.1 h]
    · refine ⟨hsub.cons d, fun e => ?_⟩
      rw [List.mem_cons, hmem, or_and_right, or_iff_right]
      rintro ⟨rfl, hno⟩
      exact h (hcert.2 hno)

variable (waveLength schedule) in
/-- The anchor decides: it commits the leader it certifies, and skips when there is none. -/
theorem computes_decideFromAnchor (hU : MahiUniverse committee B U) (hD₀ : Indexed U D₀) (s : ℕ)
    {anchor : Digest} {a : Certificate} (ha : D₀.block anchor = some a) :
    ∃ decision, Computes (Holds committee U D₀)
      (decideFromAnchor committee waveLength (slotOf schedule s) anchor) decision ∧
        ((∃ d, decision = .commit d ∧ (∃ c, D₀.block d = some c) ∧
            certifies committee U waveLength (fun s => (slotAt s).round)
              (leaderAt schedule) anchor s d) ∨
          decision = .skip ∧ ∀ d, ¬ certifies committee U waveLength (fun s => (slotAt s).round)
            (leaderAt schedule) anchor s d) := by
  have hcand : ∀ d ∈ D₀.slotDigests (leaderAt schedule s) (slotAt s).round,
      ∃ c, D₀.block d = some c := fun d hd => by
    obtain ⟨c, hc, -⟩ := hD₀.slot.1 hd
    exact ⟨c, hc⟩
  have hcs : ∀ c ∈ D₀.roundDigests ((slotAt s).round + waveLength - 1),
      ∃ cert, D₀.block c = some cert := fun c hc => by
    obtain ⟨cert, hcert, -⟩ := hD₀.round.1 hc
    exact ⟨cert, hcert⟩
  obtain ⟨l, hl, hsub, hfilter⟩ := computes_certifiedCandidates hU hD₀ ha false hcs hcand
  have hmem : ∀ d, d ∈ l ↔ certifies committee U waveLength (fun s => (slotAt s).round)
      (leaderAt schedule) anchor s d := fun d => by
    rw [hfilter]
    constructor
    · rintro ⟨hd, c, hc, hreach, hcert⟩
      obtain ⟨q, hq, hqr, hqa⟩ := hD₀.slot.1 hd
      obtain ⟨cert, hcert', hcr⟩ := hD₀.round.1 hc
      exact ⟨⟨q.header, hD₀.sub hq, hqr, hqa⟩, c, _, ⟨cert.header, hD₀.sub hcert', hcr, rfl⟩,
        hreach, hcert⟩
    · rintro ⟨⟨q, hq, hqr, hqa⟩, c, b, ⟨cert, hcert', hcr, -⟩, hreach, hcert⟩
      -- the DAG holds what the anchor reaches, and with a certificate its leader
      obtain ⟨cert', hc⟩ := hD₀.reach hreach ha
      obtain ⟨q', hd⟩ := hD₀.certifies hU hc hcert
      rw [hD₀.sub hc] at hcert'
      rw [hD₀.sub hd] at hq
      cases hcert'
      cases hq
      exact ⟨hD₀.slot.2 ⟨_, hd, hqr, hqa⟩, c, hD₀.round.2 ⟨_, hc, hcr⟩, hreach, hcert⟩
  have hone := length_le_one (hsub.nodup (SortedSet.nodup _)) (fun d hd => (hmem d).1 hd)
    fun d d' h h' => (consistent hU).certifies_unique s anchor anchor d d' h h'
  unfold decideFromAnchor
  rcases l with _ | ⟨d, _ | ⟨d', ds⟩⟩
  · refine ⟨.skip, .get_bind fun D hD => ?_, .inr ⟨rfl, fun d hd => by simpa using (hmem d).2 hd⟩⟩
    rw [hD.slotDigests, hD.roundDigests]
    exact .bind hl (.pure _)
  · refine ⟨.commit d, .get_bind fun D hD => ?_, .inl ⟨d, rfl,
      hcand d (hsub.subset List.mem_cons_self), (hmem d).1 List.mem_cons_self⟩⟩
    rw [hD.slotDigests, hD.roundDigests]
    exact .bind hl (.pure _)
  · exact absurd rfl (hone d d' ds)

/-- The slots in between are skipped, so the anchor found is the one the evidence names. -/
theorem computes_indirectDecision (hU : MahiUniverse committee B U) (hD₀ : Indexed U D₀) (s : ℕ) :
    ∀ {t : ℕ} {records : List DecisionRecord},
      Records committee U waveLength schedule D₀ t records →
      (∀ u, past waveLength (fun s => (slotAt s).round) s u → u < t →
        Supported committee U waveLength schedule u .skip) →
      ∃ decision, Computes (Holds committee U D₀)
        (indirectDecision committee waveLength (slotOf schedule s) records) decision ∧
          Sound committee U waveLength schedule D₀ s decision
  | _, [], _, _ => ⟨.undecided, .pure _, trivial⟩
  | t, record :: records, ⟨hslot, hsound, hrest⟩, hskip => by
    have hround : record.slot.id.round = (slotAt t).round := by rw [hslot]; rfl
    rw [indirectDecision, hround]
    by_cases hpast : (slotAt t).round ≤ (slotAt s).round + waveLength - 1
    · rw [slotOf, if_pos hpast]
      refine computes_indirectDecision hU hD₀ s hrest fun u hu hlt => ?_
      rcases Nat.lt_succ_iff_lt_or_eq.1 hlt with hlt | rfl
      · exact hskip u hu hlt
      · exact absurd hpast (not_le.2 hu)
    · rw [slotOf, if_neg hpast]
      rcases hdec : record.decision with anchor | _ | _
      · rw [hdec] at hsound
        obtain ⟨ht, a, ha⟩ := hsound
        obtain ⟨decision, hrun, h⟩ := computes_decideFromAnchor waveLength schedule
          hU hD₀ s ha
        refine ⟨decision, hrun, ?_⟩
        rcases h with ⟨d, rfl, hd, hcert⟩ | ⟨rfl, hno⟩
        · exact ⟨.anchorCommit (not_le.1 hpast) ht hskip hcert, hd⟩
        · exact .anchorSkip (not_le.1 hpast) ht hskip hno
      · rw [hdec] at hsound
        refine computes_indirectDecision hU hD₀ s hrest fun u hu hlt => ?_
        rcases Nat.lt_succ_iff_lt_or_eq.1 hlt with hlt | rfl
        · exact hskip u hu hlt
        · exact hsound
      · exact ⟨.undecided, .pure _, trivial⟩

omit [Crypto] in
/-- The loop over the pending slots, from the last: a slot is judged once the later ones are. -/
theorem computes_decideSlots_of {J : ℕ → LeaderDecision → Prop} {N : ℕ}
    (hJ : ∀ s later, s + 1 + later.length = N → Each schedule J (s + 1) later →
      ∃ direct, Computes (Holds committee U D₀)
        (directDecision committee waveLength (slotOf schedule s)) direct ∧
        (direct.isDecided = true → J s direct) ∧ (direct.isDecided = false →
          ∃ decision, Computes (Holds committee U D₀)
            (indirectDecision committee waveLength (slotOf schedule s) later) decision ∧
            J s decision)) :
    ∀ (n s : ℕ) {decisions : FinMap SlotId LeaderDecision}, s + n = N → Kept J decisions →
      ∃ records decisions', Computes (Holds committee U D₀)
        (decideSlots committee waveLength ((List.range' s n).map (slotOf schedule)) decisions)
        (records, decisions') ∧ Each schedule J s records ∧ records.length = n ∧
          Kept J decisions'
  | 0, _, decisions, _, h => ⟨[], decisions, .pure _, trivial, rfl, h⟩
  | n + 1, s, decisions, hN, h => by
    obtain ⟨later, decisions', hrun, hlater, hlength, h'⟩ :=
      computes_decideSlots_of hJ n (s + 1) (by omega) h
    obtain ⟨direct, hdirect, hyes, hno⟩ := hJ s later (by omega) hlater
    -- a decision kept from before stands in for the direct one
    obtain ⟨first, hfirst, hyes, hno⟩ : ∃ first, Computes (Holds committee U D₀)
        (if ((decisions'.lookup (slotAt s)).getD .undecided).isDecided
          then pure ((decisions'.lookup (slotAt s)).getD .undecided)
          else directDecision committee waveLength (slotOf schedule s)) first ∧
        (first.isDecided = true → J s first) ∧ (first.isDecided = false →
          ∃ decision, Computes (Holds committee U D₀)
            (indirectDecision committee waveLength (slotOf schedule s) later) decision ∧
            J s decision) := by
      split_ifs with hdec
      · refine ⟨_, .pure _, fun _ => ?_, fun hundec => absurd hdec (by rw [hundec]; simp)⟩
        rcases hl : decisions'.lookup (slotAt s) with _ | cached
        · rw [hl] at hdec
          cases hdec
        · obtain ⟨t, ht, -, hcached⟩ := h' _ _ hl
          exact slotAt_injective ht ▸ hcached
      · exact ⟨direct, hdirect, hyes, hno⟩
    have hdecision : ∃ decision, Computes (Holds committee U D₀) (if first.isDecided then
        pure first else indirectDecision committee waveLength (slotOf schedule s) later)
        decision ∧ J s decision := by
      split_ifs with hdec
      · exact ⟨first, .pure _, hyes hdec⟩
      · exact hno (by simpa using hdec)
    obtain ⟨decision, hdecision, hjudged⟩ := hdecision
    refine ⟨⟨slotOf schedule s, decision⟩ :: later,
      if decision.isDecided then decisions'.insert (slotAt s) decision else decisions', ?_,
      ⟨rfl, hjudged, hlater⟩, by rw [List.length_cons, hlength], ?_⟩
    · rw [List.range'_succ, List.map_cons, decideSlots]
      exact .bind hrun (.ite_bind hfirst (.ite_bind hdecision (.pure _)))
    · split_ifs with hdec
      · intro id kept hl
        rw [FinMap.lookup_insert_ite] at hl
        split_ifs at hl with hid
        · cases hl
          exact ⟨s, hid, hdec, hjudged⟩
        · exact h' id kept hl
      · exact h'

/-- What is decided is sound. -/
theorem computes_decideSlots (hU : MahiUniverse committee B U) (hD₀ : Indexed U D₀)
    (hw : 1 ≤ waveLength) (n s : ℕ) {decisions : FinMap SlotId LeaderDecision}
    (h : Decisions committee U waveLength schedule D₀ decisions) :
    ∃ records decisions', Computes (Holds committee U D₀)
      (decideSlots committee waveLength ((List.range' s n).map (slotOf schedule)) decisions)
      (records, decisions') ∧ Records committee U waveLength schedule D₀ s records ∧
        Decisions committee U waveLength schedule D₀ decisions' := by
  obtain ⟨records, decisions', hrun, hrecords, -, hdecisions⟩ := computes_decideSlots_of
    (J := Sound committee U waveLength schedule D₀) (fun s later _ hlater => by
      obtain ⟨direct, hdirect, hd⟩ := computes_directDecision hU hD₀ s
      refine ⟨direct, hdirect, fun _ => hd.sound, fun _ => ?_⟩
      refine computes_indirectDecision hU hD₀ s (records_iff.2 hlater) fun u hu hlt => ?_
      have hu' : (slotAt s).round + waveLength - 1 < (slotAt u).round := hu
      simp only [slotAt, leaderCount] at hu'
      omega) n s rfl h
  exact ⟨records, decisions', hrun, records_iff.2 hrecords, hdecisions⟩

end Decisions

end MahiMahi

end NovelDag
