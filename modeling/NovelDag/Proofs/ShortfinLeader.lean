import NovelDag.Proofs.ShortfinRun

/-!
# The leader of a Shortfin boundary

A boundary that decides commits the first two blocks of its leader's chain: each is linked by the
embedded QC of the next one, which the traversal starts from, and has its votes in the records if
those were delivered before that QC. With them the last committed round passes what the next
boundary has to be above.
-/

namespace NovelDag

namespace Shortfin

open PrefixLog Fallible

variable [Crypto]

/-! ## The chain -/

section Chain

variable {consensus : Consensus} {s : ShortfinState} {r : ℕ} {leader : PublicKey}
  {b3 b2 b1 c : Certificate}

theorem mem_chainCandidates {records : ShortfinRecords} :
    c ∈ chainCandidates records leader r ↔
      c ∈ records.values ∧ c.round = r ∧ c.origin = leader := by
  simp [chainCandidates, recordsAtRound, and_comm]

omit [Crypto] in
theorem findChain_eq_some {b3s b2s b1s : List Certificate}
    (h : findChain r b3s b2s b1s = some (b3, b2, b1)) :
    b3 ∈ b3s ∧ b2 ∈ b2s ∧ b1 ∈ b1s ∧ Consensus.embeddedQcLinks b2 b3 r = true ∧
      Consensus.embeddedQcLinks b1 b2 r = true := by
  obtain ⟨c3, hc3, h⟩ := List.exists_of_findSome?_eq_some h
  obtain ⟨c2, hc2, h⟩ := List.exists_of_findSome?_eq_some h
  split_ifs at h with hlink
  obtain ⟨c1, hc1, heq⟩ := Option.map_eq_some_iff.1 h
  obtain ⟨rfl, rfl, rfl⟩ : c3 = b3 ∧ c2 = b2 ∧ c1 = b1 := by simpa using heq
  have hlink1 := List.find?_some (p := fun b1 => Consensus.embeddedQcLinks b1 c2 r) hc1
  exact ⟨hc3, hc2, List.mem_of_find?_eq_some hc1, hlink, hlink1⟩

/-- The blocks of one author in three rounds, each linked by the QC of the next. -/
structure Chain (s : ShortfinState) (r : ℕ) (b3 b2 b1 : Certificate) : Prop where
  mem3 : b3 ∈ s.records.values
  mem2 : b2 ∈ s.records.values
  mem1 : b1 ∈ s.records.values
  round3 : b3.round = r - 3
  round2 : b2.round = r - 3 + 1
  round1 : b1.round = r - 3 + 2
  origin2 : b2.origin = b3.origin
  origin1 : b1.origin = b3.origin
  link2 : Consensus.embeddedQcLinks b2 b3 r = true
  link1 : Consensus.embeddedQcLinks b1 b2 r = true

theorem chain_of_verify
    (h : verifyLeaderChain consensus r s.state s.records = .ok (.ok (b3, b2, b1))) :
    Chain s r b3 b2 b1 := by
  unfold verifyLeaderChain at h
  obtain ⟨leader, -, h⟩ := bind_eq_ok.1 h
  rcases leader with _ | leader
  · cases h
  · simp only [pure, Except.pure, Except.ok.injEq] at h
    split_ifs at h
    rcases hfind : findChain r (chainCandidates s.records leader (r - 3))
      (chainCandidates s.records leader (r - 3 + 1))
      (chainCandidates s.records leader (r - 3 + 2)) with _ | chain <;> rw [hfind] at h
    · cases h
    · obtain rfl := Except.ok.inj h
      obtain ⟨h3, h2, h1, hlink2, hlink1⟩ := findChain_eq_some hfind
      rw [mem_chainCandidates] at h3 h2 h1
      exact ⟨h3.1, h2.1, h1.1, h3.2.1, h2.2.1, h1.2.1, h2.2.2.trans h3.2.2.symm,
        h1.2.2.trans h3.2.2.symm, hlink2, hlink1⟩

end Chain

/-! ## What it commits -/

section Commit

variable {consensus : Consensus} {s : ShortfinState} {r : ℕ} {b3 b2 b1 c : Certificate}

omit [Crypto] in
theorem uncommitted_of_lt (hs : s.state.Coherent) (h : s.state.lastCommittedRound < c.round) :
    uncommitted s.state.lastCommitted c = true := by
  rw [uncommitted, Option.all_eq_true]
  exact fun q hq => decide_eq_true ((State.le_lastCommittedRound hs hq).trans_lt h)

omit [Crypto] in
/-- The traversal meets the seeds above the last committed round. -/
theorem id_mem_causalReachability {seeds : List Certificate} (hs : s.state.Coherent)
    (hc : c ∈ seeds) (hlt : s.state.lastCommittedRound < c.round) :
    c.header.id ∈ causalReachability seeds (indexOf s r) s.state.lastCommitted := by
  refine seed_mem_causalReachability hc ?_
  have hfloor : (seeds.map Certificate.round).min?.getD 0 - 100 ≤ c.round :=
    (Nat.sub_le _ _).trans (List.min?_getD_le_of_mem (List.mem_map.2 ⟨c, hc, rfl⟩))
  simp [skips, uncommitted_of_lt hs hlt, hfloor]

/-- A wave outputs a record with votes that the traversal starts from, and for which another record
it starts from has a QC. -/
theorem mem_collectWave {validityThreshold : ℕ} {leaderBlocks : List Certificate}
    {child : Certificate} (hs : s.state.Coherent) (hc : c ∈ s.records.values)
    (hseed : c ∈ leaderBlocks) (hlt : s.state.lastCommittedRound < c.round)
    (hround : c.round + 1 < r) (hvotes : c.votes ≠ []) (hchild : child ∈ s.records.values)
    (hchildSeed : child ∈ leaderBlocks) (hchildLt : s.state.lastCommittedRound < child.round)
    (hchildRound : child.round < r) (hlink : Consensus.embeddedQcLinks child c r = true) :
    c ∈ collectWave r s.state validityThreshold leaderBlocks s.records := by
  have htarget : child.header.qc.map EmbeddedQc.target = some c.header.id := by
    unfold Consensus.embeddedQcLinks at hlink
    rcases hqc : child.header.qc with _ | qc <;> rw [hqc] at hlink
    · cases hlink
    · simp only [Option.any_some, Bool.and_eq_true, decide_eq_true_eq] at hlink
      rw [Option.map_some, hlink.1.1]
  unfold collectWave
  refine (List.perm_insertionSort _ _).mem_iff.2 (List.mem_filter.2 ⟨?_, ?_⟩)
  · exact mem_values_indexOf.2 ⟨hc, Nat.lt_of_succ_lt hround, uncommitted_of_lt hs hlt⟩
  · have hne : c.round ≠ r - 1 := by omega
    rw [if_neg hne]
    simp only [Bool.and_eq_true, decide_eq_true_eq, Bool.not_eq_true', List.isEmpty_eq_false_iff]
    refine ⟨⟨List.mem_filterMap.2 ⟨child, List.mem_append_left _ ?_, htarget⟩, hvotes⟩, ?_⟩
    · refine List.mem_filter.2 ⟨?_, decide_eq_true ?_⟩
      · exact mem_values_indexOf.2 ⟨hchild, hchildRound, uncommitted_of_lt hs hchildLt⟩
      · exact id_mem_causalReachability hs (List.mem_append_left _ hchildSeed) hchildLt
    · exact id_mem_causalReachability hs (List.mem_append_left _ hseed) hlt

/-- The last committed round becomes that of the highest record output, if it was lower. -/
theorem le_lastCommittedRound_commitWave (consensus : Consensus) (hs : s.state.Coherent) (r : ℕ)
    (b3 b2 b1 : Certificate) :
    s.state.lastCommittedRound ≤ (commitWave consensus s r b3 b2 b1).1.state.lastCommittedRound ∧
      ∀ c ∈ (commitWave consensus s r b3 b2 b1).2,
        c.round ≤ (commitWave consensus s r b3 b2 b1).1.state.lastCommittedRound := by
  have hround : (commitWave consensus s r b3 b2 b1).1.state.lastCommittedRound =
      ((commitWave consensus s r b3 b2 b1).2.map Certificate.round).foldr max
        s.state.lastCommittedRound := State.lastCommittedRound_foldl_update _ _ hs
  obtain ⟨hle, hmax⟩ := foldr_max_le_iff.1 hround.ge
  exact ⟨hle, fun c hc => hmax c.round (List.mem_map_of_mem hc)⟩

theorem coherent_commitWave (consensus : Consensus) (hs : s.state.Coherent) (r : ℕ)
    (b3 b2 b1 : Certificate) :
    (commitWave consensus s r b3 b2 b1).1.state.Coherent := State.coherent_foldl_update _ _ hs

/-- The first two blocks of the chain are output, and the last committed round becomes at least that
of the second. -/
theorem Chain.commitWave (h : Chain s r b3 b2 b1) (consensus : Consensus)
    (hs : s.state.Coherent) (hlt : s.state.lastCommittedRound < r - 3) (hvotes3 : b3.votes ≠ [])
    (hvotes2 : b2.votes ≠ []) :
    b3 ∈ (commitWave consensus s r b3 b2 b1).2 ∧ b2 ∈ (commitWave consensus s r b3 b2 b1).2 ∧
      r - 2 ≤ (commitWave consensus s r b3 b2 b1).1.state.lastCommittedRound := by
  have h3 := h.round3
  have h2 := h.round2
  have h1 := h.round1
  have hmem3 : b3 ∈ (Shortfin.commitWave consensus s r b3 b2 b1).2 :=
    mem_collectWave hs h.mem3 (by simp) (by omega) (by omega) hvotes3 h.mem2 (by simp) (by omega)
      (by omega) h.link2
  have hmem2 : b2 ∈ (Shortfin.commitWave consensus s r b3 b2 b1).2 :=
    mem_collectWave hs h.mem2 (by simp) (by omega) (by omega) hvotes2 h.mem1 (by simp) (by omega)
      (by omega) h.link1
  refine ⟨hmem3, hmem2, ?_⟩
  have hle := (le_lastCommittedRound_commitWave consensus hs r b3 b2 b1).2 b2 hmem2
  omega

end Commit

/-! ## Records with votes -/

section Voted

variable {consensus : Consensus} {s t : ShortfinState} {delivered : List Certificate}
  {x : Certificate}

/-- What was delivered with votes, is not committed and is not too old is a record with votes. -/
def Voted (gcDepth : ℕ) (delivered : List Certificate) (s : ShortfinState) : Prop :=
  ∀ y ∈ delivered, y.votes ≠ [] → uncommitted s.state.lastCommitted y = true →
    minRound gcDepth s.state ≤ y.round → ∃ c, s.records.lookup y.digest = some c ∧ c.votes ≠ []

omit [Crypto] in
theorem upgrade_votes (stored : Certificate) :
    (stored.votes ≠ [] → (upgrade stored x).votes ≠ []) ∧
      (x.votes ≠ [] → (upgrade stored x).votes ≠ []) := by
  unfold upgrade
  rcases hs : stored.votes with _ | ⟨v, votes⟩ <;> rcases hx : x.votes with _ | ⟨w, votes'⟩ <;>
    simp [hs, hx]

theorem Voted.receive (h : Voted consensus.gcDepth delivered s)
    {chain : Option (ℕ × Certificate × Certificate × Certificate)}
    (hr : Shortfin.receive consensus s x = .ok (t, chain)) :
    Voted consensus.gcDepth (delivered ++ [x]) t := by
  obtain ⟨hl, hround, hcase⟩ := receive_cases hr
  intro y hy hvotes hu hmin
  rw [hl] at hu
  rw [minRound, hround] at hmin
  rcases hcase with ⟨hx, hrecords, -⟩ | ⟨hx, hrecords, -⟩
  · rw [hrecords]
    rcases List.mem_append.1 hy with hy | hy
    · exact h y hy hvotes hu hmin
    · obtain rfl := List.mem_singleton.1 hy
      rw [hx] at hu
      cases hu
  · rw [hrecords, lookup_insertRecord]
    rcases List.mem_append.1 hy with hy | hy
    · obtain ⟨c, hc, hcv⟩ := h y hy hvotes hu hmin
      split_ifs with hd
      · rw [← hd, hc]
        exact ⟨_, rfl, (upgrade_votes c).1 hcv⟩
      · exact ⟨c, hc, hcv⟩
    · obtain rfl := List.mem_singleton.1 hy
      rw [if_pos rfl]
      rcases s.records.lookup y.digest with _ | c
      · exact ⟨y, rfl, hvotes⟩
      · exact ⟨_, rfl, (upgrade_votes c).2 hvotes⟩

/-- A wave keeps the records above what it has committed that are not too old. -/
theorem Voted.commitWave (h : Voted consensus.gcDepth delivered s) (hs : s.state.Coherent)
    (hround : ∀ y ∈ delivered, ∀ c, s.records.lookup y.digest = some c → c.round = y.round)
    (r : ℕ) (b3 b2 b1 : Certificate) :
    Voted consensus.gcDepth delivered (Shortfin.commitWave consensus s r b3 b2 b1).1 := by
  intro y hy hvotes hu hmin
  have hle : s.state.lastCommittedRound ≤
      (Shortfin.commitWave consensus s r b3 b2 b1).1.state.lastCommittedRound :=
    (le_lastCommittedRound_commitWave consensus hs r b3 b2 b1).1
  have hu' : uncommitted s.state.lastCommitted y = true := by
    by_contra hno
    obtain ⟨q, hq, hqr⟩ := uncommitted_eq_false.1 (Bool.eq_false_iff.2 hno)
    obtain ⟨q', hq', hqq⟩ := lookup_foldl_commitRound_le
      (Shortfin.commitWave consensus s r b3 b2 b1).2 hq
    rw [lastCommitted_commitWave, uncommitted, hq'] at hu
    have := of_decide_eq_true hu
    omega
  obtain ⟨c, hc, hcv⟩ := h y hy hvotes hu' ((Nat.sub_le_sub_right hle _).trans hmin)
  refine ⟨c, FinMap.lookup_retain_eq_some.2 ⟨hc, decide_eq_true ?_⟩, hcv⟩
  rw [hround y hy c hc]
  exact hmin

theorem coherent_receive {chain : Option (ℕ × Certificate × Certificate × Certificate)}
    (hr : Shortfin.receive consensus s x = .ok (t, chain)) (hs : s.state.Coherent) :
    t.state.Coherent := by
  obtain ⟨hl, hround, -⟩ := receive_cases hr
  rwa [State.Coherent, hround, hl]

theorem coherent_step {out : List Certificate} (hstep : step consensus s x = .ok (t, out))
    (hs : s.state.Coherent) : t.state.Coherent := by
  rcases step_cases hstep with ⟨hr, -⟩ | ⟨u, r, b3, b2, b1, hr, hw⟩
  · exact coherent_receive hr hs
  · have ht := coherent_commitWave consensus (coherent_receive hr hs) r b3 b2 b1
    rwa [hw] at ht

/-- The last committed round only grows. -/
theorem lastCommittedRound_step {out : List Certificate}
    (hstep : step consensus s x = .ok (t, out)) (hs : s.state.Coherent) :
    s.state.lastCommittedRound ≤ t.state.lastCommittedRound := by
  rcases step_cases hstep with ⟨hr, -⟩ | ⟨u, r, b3, b2, b1, hr, hw⟩
  · exact (receive_cases hr).2.1.ge
  · have hle := (le_lastCommittedRound_commitWave consensus (coherent_receive hr hs) r b3 b2 b1).1
    rw [hw] at hle
    exact (receive_cases hr).2.1.ge.trans hle

end Voted

/-! ## Runs -/

section Decisions

variable {consensus : Consensus}

/-- The record a QC in the header of another is for: of the same author, and with the id and the
round the QC names. -/
def IsTarget (c : Certificate) (qc : EmbeddedQc) (y : Certificate) : Prop :=
  y.header.id = qc.target ∧ y.round = qc.round ∧ y.origin = c.origin

instance (c : Certificate) (qc : EmbeddedQc) (y : Certificate) : Decidable (IsTarget c qc y) :=
  inferInstanceAs (Decidable (_ ∧ _ ∧ _))

/-- A record with a QC is delivered after its target has been delivered with votes. -/
def TargetsFirst (xs : List Certificate) : Prop :=
  ∀ i < xs.length, ∀ c ∈ xs[i]?, ∀ qc ∈ c.header.qc,
    ∃ y ∈ xs.take i, IsTarget c qc y ∧ y.votes ≠ []

instance (xs : List Certificate) : Decidable (TargetsFirst xs) :=
  inferInstanceAs (Decidable (∀ i < xs.length, ∀ c ∈ xs[i]?, ∀ qc ∈ c.header.qc,
    ∃ y ∈ xs.take i, IsTarget c qc y ∧ y.votes ≠ []))

/-- After `ys` a record makes the boundary `r` decide. -/
def Decides (consensus : Consensus) (ys : List Certificate) (x : Certificate) (r : ℕ)
    (b3 b2 b1 : Certificate) (t : ShortfinState) (out : List Certificate) : Prop :=
  ∃ s u, (run consensus ys).1 = some s ∧
    receive consensus s x = .ok (u, some (r, b3, b2, b1)) ∧
      commitWave consensus u r b3 b2 b1 = (t, out)

/-- Equal digests are of equal rounds. -/
def BindsRounds (delivered : List Certificate) : Prop :=
  ∀ c ∈ delivered, ∀ c' ∈ delivered, c.digest = c'.digest → c.round = c'.round

instance (delivered : List Certificate) : Decidable (BindsRounds delivered) :=
  inferInstanceAs (Decidable (∀ c ∈ delivered, ∀ c' ∈ delivered,
    c.digest = c'.digest → c.round = c'.round))

/-- The records are of what was delivered, with the votes that were. -/
structure Ready (consensus : Consensus) (ys : List Certificate) (s : ShortfinState) : Prop where
  keyed : Keyed s
  records : ∀ c ∈ s.records.values, c ∈ consensus.genesis ++ ys
  coherent : s.state.Coherent
  voted : Voted consensus.gcDepth ys s

variable {ys xs : List Certificate} {s t u : ShortfinState} {x : Certificate}

theorem Ready.receive (h : Ready consensus ys s)
    {chain : Option (ℕ × Certificate × Certificate × Certificate)}
    (hr : Shortfin.receive consensus s x = .ok (t, chain)) : Ready consensus (ys ++ [x]) t where
  keyed := h.keyed.receive hr
  records c hc := by
    rw [← List.append_assoc]
    exact List.mem_append.2 ((receive_mem hr hc).imp (h.records c) List.mem_singleton.2)
  coherent := coherent_receive hr h.coherent
  voted := h.voted.receive hr

theorem Ready.commitWave (h : Ready consensus ys s) (hbind : BindsRounds (consensus.genesis ++ ys))
    (r : ℕ) (b3 b2 b1 : Certificate) :
    Ready consensus ys (Shortfin.commitWave consensus s r b3 b2 b1).1 where
  keyed := h.keyed.commitWave consensus r b3 b2 b1
  records c hc := by
    obtain ⟨d, hd⟩ := FinMap.mem_values.1 hc
    exact h.records c (FinMap.mem_values.2 ⟨d, (FinMap.lookup_retain_eq_some.1 hd).1⟩)
  coherent := coherent_commitWave consensus h.coherent r b3 b2 b1
  voted := h.voted.commitWave h.coherent (fun y hy c hc => hbind c
    (h.records c (FinMap.mem_values.2 ⟨_, hc⟩)) y (List.mem_append_right _ hy)
    (h.keyed _ c hc)) r b3 b2 b1

theorem Ready.new : Ready consensus [] (ShortfinState.new consensus.genesis) where
  keyed := Keyed.new _
  records c hc := by
    rw [List.append_nil]
    exact Committed.new.records c hc
  coherent := State.coherent_new
  voted _ hy := absurd hy List.not_mem_nil

theorem BindsRounds.mono {l l' : List Certificate} (h : BindsRounds l') (hl : l ⊆ l') :
    BindsRounds l := fun c hc c' hc' => h c (hl hc) c' (hl hc')

theorem ready_run (hbind : BindsRounds (consensus.genesis ++ xs)) :
    ∀ s, (run consensus xs).1 = some s → Ready consensus xs s := by
  refine run_induction _ (P := fun ys s _ => Ready consensus ys s) Ready.new xs ?_
  rintro ys x s t out hys - h hstep
  have hsub : consensus.genesis ++ (ys ++ [x]) ⊆ consensus.genesis ++ xs := fun c hc =>
    List.mem_append.2 ((List.mem_append.1 hc).imp_right fun hc => hys.subset hc)
  rcases step_cases (toOption_eq_some.1 hstep) with ⟨hr, -⟩ | ⟨u, r, b3, b2, b1, hr, hw⟩
  · exact h.receive hr
  · have ht := (h.receive hr).commitWave (hbind.mono hsub) r b3 b2 b1
    rwa [hw] at ht

/-- A record that another one's QC is for has its votes. -/
theorem Ready.votes_of_link (h : Ready consensus ys s) (hys : ys <+: xs) (ht : TargetsFirst xs)
    {c b : Certificate} {r : ℕ} (hc : c ∈ s.records.values) (hb : b ∈ s.records.values)
    (hlink : Consensus.embeddedQcLinks c b r = true) (horigin : c.origin = b.origin)
    (hlt : s.state.lastCommittedRound < b.round) : b.votes ≠ [] := by
  obtain ⟨qc, hqc, hid, hround⟩ : ∃ qc, c.header.qc = some qc ∧ qc.target = b.header.id ∧
      qc.round = b.round := by
    unfold Consensus.embeddedQcLinks at hlink
    rcases hqc : c.header.qc with _ | qc <;> rw [hqc] at hlink
    · cases hlink
    · simp only [Option.any_some, Bool.and_eq_true, decide_eq_true_eq] at hlink
      exact ⟨qc, rfl, hlink.1.1, hlink.1.2.1⟩
  have hcys : c ∈ ys := (List.mem_append.1 (h.records c hc)).resolve_left fun hgenesis => by
    obtain ⟨name, -, rfl⟩ := List.mem_map.1 hgenesis
    cases hqc
  obtain ⟨i, hi, hget⟩ := List.getElem_of_mem hcys
  have hget' : xs[i]? = some c := by
    obtain ⟨zs, rfl⟩ := hys
    rw [List.getElem?_append_left hi, List.getElem?_eq_getElem hi, hget]
  obtain ⟨y, hy, ⟨htarget, hyround, hyorigin⟩, hvotes⟩ :=
    ht i (hi.trans_le hys.length_le) c hget' qc hqc
  have hyys : y ∈ ys := by
    have htake : xs.take i = ys.take i := by
      obtain ⟨zs, rfl⟩ := hys
      rw [List.take_append_of_le_length hi.le]
    exact List.mem_of_mem_take (htake ▸ hy)
  have hdigest : y.digest = b.digest := by
    unfold Certificate.digest
    rw [htarget, hid, hyround, hround, hyorigin, horigin]
  have hb' : y.round = b.round := hyround.trans hround
  obtain ⟨b', hb'', hbv⟩ := h.voted y hyys hvotes (uncommitted_of_lt h.coherent (hb' ▸ hlt))
    ((Nat.sub_le _ _).trans (hb' ▸ hlt.le))
  obtain ⟨d, hd⟩ := FinMap.mem_values.1 hb
  rw [hdigest, h.keyed d b hd, hd] at hb''
  exact Option.some.inj hb'' ▸ hbv

/-- A decision is for a boundary whose leader is above the last committed round. -/
theorem decides_guard {r : ℕ} {b3 b2 b1 : Certificate}
    (hr : Shortfin.receive consensus s x = .ok (u, some (r, b3, b2, b1))) :
    u.state.lastCommittedRound < r - 3 ∧
      verifyLeaderChain consensus r u.state u.records = .ok (.ok (b3, b2, b1)) := by
  obtain ⟨-, hround, ⟨-, -, hnone⟩ | ⟨-, -, hchain⟩⟩ := receive_cases hr
  · cases hnone
  · obtain ⟨-, hlt, hv⟩ := hchain r b3 b2 b1 rfl
    exact ⟨hround ▸ hlt, hv⟩

/-- A boundary that decides commits the two blocks of the chain that have been certified, and a later
decision is for a higher boundary. -/
theorem decision_commits_leader (hbind : BindsRounds (consensus.genesis ++ xs))
    (ht : TargetsFirst xs) {r : ℕ} {b3 b2 b1 : Certificate} {out : List Certificate}
    (hys : ys ++ [x] <+: xs) (hd : Decides consensus ys x r b3 b2 b1 t out) :
    (b3 ∈ out ∧ b3.round = r - 3) ∧ (b2 ∈ out ∧ b2.round = r - 2) ∧
      r - 2 ≤ t.state.lastCommittedRound ∧
      ∀ zs z r' c3 c2 c1 t' out', ys ++ [x] ++ zs ++ [z] <+: xs →
        Decides consensus (ys ++ [x] ++ zs) z r' c3 c2 c1 t' out' → r < r' := by
  obtain ⟨s, u, hs, hr, hw⟩ := hd
  have hsub : consensus.genesis ++ ys ⊆ consensus.genesis ++ xs := fun c hc =>
    List.mem_append.2 ((List.mem_append.1 hc).imp_right fun hc =>
      hys.subset (List.mem_append_left _ hc))
  have hready := (ready_run (hbind.mono hsub) s hs).receive hr
  obtain ⟨hlt, hv⟩ := decides_guard hr
  have hchain := chain_of_verify hv
  have h3 := hchain.round3
  have h2 := hchain.round2
  have hvotes3 := hready.votes_of_link hys ht hchain.mem2 hchain.mem3 hchain.link2 hchain.origin2
    (by omega)
  have hvotes2 := hready.votes_of_link hys ht hchain.mem1 hchain.mem2 hchain.link1
    (hchain.origin1.trans hchain.origin2.symm) (by omega)
  have hcommit := hchain.commitWave consensus hready.coherent hlt hvotes3 hvotes2
  have hcoherent := coherent_commitWave consensus hready.coherent r b3 b2 b1
  rw [hw] at hcommit hcoherent
  obtain ⟨hmem3, hmem2, hround⟩ := hcommit
  refine ⟨⟨hmem3, h3⟩, ⟨hmem2, by omega⟩, hround, ?_⟩
  rintro zs z r' c3 c2 c1 t' out' - ⟨s', u', hs', hr', -⟩
  have hstep : step consensus s x = .ok (t, out) := by
    rw [step, hr]
    exact congrArg _ hw
  have hrun : (run consensus (ys ++ [x])).1 = some t := by
    rw [run, run_concat]
    exact congrArg Prod.fst (advance_of_some
      (fun s certificate => (step consensus s certificate).toOption) hs (toOption_eq_some.2 hstep))
  have hle : s'.state.Coherent ∧ r - 2 ≤ s'.state.lastCommittedRound :=
    run_append_induction (P := fun s => s.state.Coherent ∧ r - 2 ≤ s.state.lastCommittedRound) _
      hrun ⟨hcoherent, hround⟩ (fun s x s' out h hstep =>
        have hstep := toOption_eq_some.1 hstep
        ⟨coherent_step hstep h.1, h.2.trans (lastCommittedRound_step hstep h.1)⟩) zs s' hs'
  have hlt' := (decides_guard hr').1
  rw [(receive_cases hr').2.1] at hlt'
  omega

end Decisions

end Shortfin

/-! ## A decision -/

namespace Shortfin

/-- The records of three rounds, certified, and then two records of the boundary. -/
def certifiedDag : List Certificate :=
  letI := toyCrypto
  ((fullDag.drop 4).take 12).map certify ++ (fullDag.drop 16).take 2

/-- The third record of the boundary. -/
def boundaryRecord : Certificate := fullDag.getD 18 default

/-- The third record makes the boundary of round 4 decide. -/
theorem decision_commits_leader_certifiedDag : letI := toyCrypto
    ∃ r b3 b2 b1 t out, Decides (fourNodes 0) certifiedDag boundaryRecord r b3 b2 b1 t out ∧
      b3 ∈ out ∧ b2 ∈ out := by
  let _ := toyCrypto
  have hrun : ((run (fourNodes 0) certifiedDag).1.bind fun s =>
        (receive (fourNodes 0) s boundaryRecord).toOption.bind (·.2)).isSome = true ∧
      BindsRounds ((fourNodes 0).genesis ++ (certifiedDag ++ [boundaryRecord])) ∧
      TargetsFirst (certifiedDag ++ [boundaryRecord]) := by decide +kernel
  obtain ⟨hsome, hbind, htargets⟩ := hrun
  obtain ⟨⟨r, b3, b2, b1⟩, hdecide⟩ := Option.isSome_iff_exists.1 hsome
  obtain ⟨s, hs, hdecide⟩ := Option.bind_eq_some_iff.1 hdecide
  obtain ⟨⟨u, chain⟩, hr, hchain⟩ := Option.bind_eq_some_iff.1 hdecide
  obtain rfl : chain = some (r, b3, b2, b1) := hchain
  have hd : Decides (fourNodes 0) certifiedDag boundaryRecord r b3 b2 b1 _ _ :=
    ⟨s, u, hs, Fallible.toOption_eq_some.1 hr, rfl⟩
  have hlead := decision_commits_leader hbind htargets
    (List.prefix_refl (certifiedDag ++ [boundaryRecord])) hd
  exact ⟨r, b3, b2, b1, _, _, hd, hlead.1.1, hlead.2.1.1⟩

end Shortfin

end NovelDag
