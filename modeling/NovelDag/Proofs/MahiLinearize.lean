import NovelDag.Proofs.MahiCaches
import NovelDag.Proofs.MahiBatch

/-!
# What linearization sends

Blocks come in any order. What has been sent is closed under parents, so a leader whose whole
history is indexed sends exactly what of its history was not sent before, and every block comes
after its parents. A leader with a gap in its history stops the committer.
-/

namespace NovelDag

namespace MahiMahi

open Fallible MahiDag

/-! ## Queries leave the blocks alone -/

section Queries

variable {D₀ : MahiDag}

/-- The blocks and their index are those of `D₀`. -/
structure SameBlocks (D₀ D : MahiDag) : Prop where
  byRound : D.byRound = D₀.byRound
  byDigest : D.byDigest = D₀.byDigest

theorem SameBlocks.block {D : MahiDag} (h : SameBlocks D₀ D) : D.block = D₀.block := by
  funext d
  rw [MahiDag.block, MahiDag.block, h.byDigest]

theorem SameBlocks.slotDigests {D : MahiDag} (h : SameBlocks D₀ D) (a : PublicKey) (r : ℕ) :
    D.slotDigests a r = D₀.slotDigests a r := by
  rw [MahiDag.slotDigests, MahiDag.slotDigests, h.byRound]

theorem same_cacheSupport (key : Digest × PublicKey × ℕ) (support : Option Digest) :
    Ensures (SameBlocks D₀) (cacheSupport key support) fun _ => True :=
  .ofModify (fun _ h => ⟨h.1, h.2⟩) trivial

theorem same_cacheCertificate (key : Digest × Digest) (certifies : Bool) :
    Ensures (SameBlocks D₀) (cacheCertificate key certifies) fun _ => True :=
  .ofModify (fun _ h => ⟨h.1, h.2⟩) trivial

theorem same_cacheLink (key : Digest × Digest) (linked : Bool) :
    Ensures (SameBlocks D₀) (cacheLink key linked) fun _ => True :=
  .ofModify (fun _ h => ⟨h.1, h.2⟩) trivial

theorem same_findSupportLoop {inner : Digest → DagM (Option (Option Digest))}
    (hinner : ∀ d, Ensures (SameBlocks D₀) (inner d) fun _ => True) (v : Digest) (a : PublicKey)
    (r : ℕ) : ∀ parents : List Digest,
      Ensures (SameBlocks D₀) (findSupportLoop inner v a r parents) fun _ => True
  | [] => (same_cacheSupport _ _).bind fun _ _ => .pure trivial
  | parent :: parents => by
    have hrest := same_findSupportLoop hinner v a r parents
    refine .get_bind fun D _ => ?_
    rcases D.block parent with _ | b
    · exact .pure trivial
    · refine .ite hrest (.ite ((same_cacheSupport _ _).bind fun _ _ => .pure trivial)
        (.ite ((hinner parent).bind fun answer _ => ?_) hrest))
      rcases answer with _ | _ | support
      · exact .pure trivial
      · exact hrest
      · exact (same_cacheSupport _ _).bind fun _ _ => .pure trivial

theorem same_findSupportInner (a : PublicKey) (r : ℕ) : ∀ (n : ℕ) (v : Digest)
    (visiting : List Digest),
      Ensures (SameBlocks D₀) (findSupportInner a r n v visiting) fun _ => True
  | 0, _, _ => .pure trivial
  | n + 1, v, visiting => by
    refine .get_bind fun D _ => ?_
    rcases D.supportCache.lookup (v, a, r) with _ | cached
    · refine .ite (.pure trivial) ?_
      rcases D.block v with _ | b
      · exact .pure trivial
      · exact .ite ((same_cacheSupport _ _).bind fun _ _ => .pure trivial)
          (same_findSupportLoop (fun _ => same_findSupportInner a r n _ _) v a r _)
    · exact .pure trivial

theorem same_findSupport (v : Digest) (a : PublicKey) (r : ℕ) :
    Ensures (SameBlocks D₀) (findSupport v a r) fun _ => True :=
  .get_bind fun _ _ => same_findSupportInner a r _ v []

theorem same_isVote (v l : Digest) : Ensures (SameBlocks D₀) (isVote v l) fun _ => True := by
  refine .get_bind fun D _ => ?_
  rcases D.block l with _ | b
  · exact .pure trivial
  · exact (same_findSupport _ _ _).bind fun _ _ => .pure trivial

theorem same_isCertificateLoop (committee : Committee) (c l : Digest) (r : ℕ) :
    ∀ (parents : List Digest) (voters : List PublicKey) (stake : ℕ) (incomplete : Bool),
      Ensures (SameBlocks D₀) (isCertificateLoop committee c l r parents voters stake incomplete)
        fun _ => True
  | [], _, _, _ => .ite (.pure trivial)
      ((same_cacheCertificate _ _).bind fun _ _ => .pure trivial)
  | parent :: parents, voters, stake, incomplete => by
    have hrest := same_isCertificateLoop committee c l r parents
    refine .get_bind fun D _ => ?_
    rcases D.block parent with _ | b
    · exact hrest _ _ _
    · refine .ite (hrest _ _ _) ((same_isVote parent l).bind fun answer _ => ?_)
      rcases answer with _ | _ | _
      · exact hrest _ _ _
      · exact hrest _ _ _
      · exact .ite ((same_cacheCertificate _ _).bind fun _ _ => .pure trivial) (hrest _ _ _)

theorem same_isCertificate (committee : Committee) (c l : Digest) :
    Ensures (SameBlocks D₀) (isCertificate committee c l) fun _ => True := by
  refine .get_bind fun D _ => ?_
  rcases D.certificateCache.lookup (c, l) with _ | cached
  · rcases D.block c with _ | b
    · exact .pure trivial
    · exact same_isCertificateLoop _ _ _ _ _ _ _ _
  · exact .pure trivial

theorem same_linkedLoop {inner : Digest → DagM (Option Bool)}
    (hinner : ∀ d, Ensures (SameBlocks D₀) (inner d) fun _ => True) (v t : Digest) (r : ℕ) :
    ∀ (parents : List Digest) (incomplete : Bool),
      Ensures (SameBlocks D₀) (linkedLoop inner v t r parents incomplete) fun _ => True
  | [], _ => .ite (.pure trivial) ((same_cacheLink _ _).bind fun _ _ => .pure trivial)
  | parent :: parents, incomplete => by
    have hrest := same_linkedLoop hinner v t r parents
    refine .get_bind fun D _ => ?_
    rcases D.block parent with _ | b
    · exact hrest _
    · refine .ite (hrest _) ((hinner parent).bind fun answer _ => ?_)
      rcases answer with _ | _ | _
      · exact hrest _
      · exact hrest _
      · exact (same_cacheLink _ _).bind fun _ _ => .pure trivial

theorem same_linkedInner (t : Digest) : ∀ (n : ℕ) (v : Digest) (visiting : List Digest),
    Ensures (SameBlocks D₀) (linkedInner t n v visiting) fun _ => True
  | 0, _, _ => .pure trivial
  | n + 1, v, visiting => by
    refine .ite (.pure trivial) (.get_bind fun D _ => ?_)
    rcases D.linkCache.lookup (v, t) with _ | cached
    · refine .ite (.pure trivial) ?_
      rcases D.block t with _ | target
      · exact .pure trivial
      · rcases D.block v with _ | b
        · exact .pure trivial
        · exact .ite ((same_cacheLink _ _).bind fun _ _ => .pure trivial)
            (same_linkedLoop (fun _ => same_linkedInner t n _ _) v t _ _ _)
    · exact .pure trivial

theorem same_linked (v t : Digest) : Ensures (SameBlocks D₀) (linked v t) fun _ => True :=
  .get_bind fun _ _ => same_linkedInner t _ v []

theorem same_quorumOf (committee : Committee) {test : Digest → DagM Bool} (missing : String)
    (htest : ∀ d, Ensures (SameBlocks D₀) (test d) fun _ => True) :
    ∀ (digests : List Digest) (authors : List PublicKey) (stake : ℕ),
      Ensures (SameBlocks D₀) (quorumOf committee test missing digests authors stake)
        fun _ => True
  | [], _, _ => .pure trivial
  | digest :: digests, authors, stake => by
    have hrest := same_quorumOf committee missing htest digests
    refine (htest digest).bind fun b _ => ?_
    rcases b with _ | _
    · exact hrest _ _
    · refine .get_bind fun D _ => ?_
      rcases D.block digest with _ | block
      · exact .ofThrow
      · exact .ite (hrest _ _) (.ite (.pure trivial) (hrest _ _))

theorem same_supportedCandidates (committee : Committee) (decisionBlocks : List Digest) :
    ∀ candidates : List Digest,
      Ensures (SameBlocks D₀) (supportedCandidates committee decisionBlocks candidates)
        fun supported => supported ⊆ candidates
  | [] => .pure (List.Subset.refl _)
  | candidate :: candidates => by
    refine (same_quorumOf committee _ (fun d => (same_isCertificate committee d candidate).bind
      fun _ _ => .pure trivial) decisionBlocks [] 0).bind fun certified _ => ?_
    refine (same_supportedCandidates committee decisionBlocks candidates).bind
      fun supported hs => .pure ?_
    cases certified
    · exact List.subset_cons_of_subset _ hs
    · exact List.cons_subset_cons _ hs

/-- A decision that commits none but a block of the slot. -/
def OfSlot (D₀ : MahiDag) (slot : LeaderSlot) (decision : LeaderDecision) : Prop :=
  ∀ leader, decision = .commit leader → leader ∈ D₀.slotDigests slot.authority slot.id.round

theorem same_directDecision (committee : Committee) (waveLength : ℕ) (slot : LeaderSlot) :
    Ensures (SameBlocks D₀) (directDecision committee waveLength slot) (OfSlot D₀ slot) := by
  refine .get_bind fun D hD => (same_supportedCandidates committee _ _).bind fun supported hs => ?_
  rw [hD.slotDigests] at hs
  rcases supported with _ | ⟨candidate, _ | ⟨other, supported⟩⟩
  · refine (same_quorumOf committee _ (fun d => (same_findSupport d _ _).bind
      fun _ _ => .pure trivial) _ [] 0).bind fun skipped _ => .pure fun leader h => ?_
    cases skipped <;> cases h
  · refine .pure fun leader h => ?_
    cases h
    exact hs List.mem_cons_self
  · exact .ofThrow

theorem same_anchorCertifies (committee : Committee) (anchor candidate : Digest) :
    ∀ (certificates : List Digest) (incomplete : Bool),
      Ensures (SameBlocks D₀) (anchorCertifies committee anchor candidate certificates incomplete)
        fun _ => True
  | [], _ => .pure trivial
  | certificate :: certificates, incomplete => by
    have hrest := same_anchorCertifies committee anchor candidate certificates
    refine (same_linked anchor certificate).bind fun linked _ => ?_
    rcases linked with _ | _ | _
    · exact hrest _
    · exact hrest _
    · refine (same_isCertificate committee certificate candidate).bind fun certifies _ => ?_
      rcases certifies with _ | _ | _
      · exact hrest _
      · exact hrest _
      · exact .pure trivial

theorem same_certifiedCandidates (committee : Committee) (anchor : Digest)
    (potentialCertificates : List Digest) : ∀ (candidates : List Digest) (incomplete : Bool),
      Ensures (SameBlocks D₀)
        (certifiedCandidates committee anchor potentialCertificates candidates incomplete)
        fun answer => answer.1 ⊆ candidates
  | [], _ => .pure (List.Subset.refl _)
  | candidate :: candidates, incomplete => by
    refine (same_anchorCertifies committee anchor candidate potentialCertificates
      incomplete).bind fun answer _ => ?_
    obtain ⟨certified, incomplete⟩ := answer
    refine (same_certifiedCandidates committee anchor potentialCertificates candidates
      incomplete).bind fun answer hs => .pure ?_
    cases certified
    · exact List.subset_cons_of_subset _ hs
    · exact List.cons_subset_cons _ hs

theorem same_decideFromAnchor (committee : Committee) (waveLength : ℕ) (slot : LeaderSlot)
    (anchor : Digest) : Ensures (SameBlocks D₀) (decideFromAnchor committee waveLength slot anchor)
      (OfSlot D₀ slot) := by
  refine .get_bind fun D hD => (same_certifiedCandidates committee anchor _ _ false).bind
    fun answer hs => ?_
  rw [hD.slotDigests] at hs
  obtain ⟨candidates, incomplete⟩ := answer
  rcases candidates with _ | ⟨candidate, _ | ⟨other, candidates⟩⟩
  · refine .pure fun leader h => ?_
    cases incomplete <;> cases h
  · refine .pure fun leader h => ?_
    cases h
    exact hs List.mem_cons_self
  · exact .ofThrow

theorem same_indirectDecision (committee : Committee) (waveLength : ℕ) (slot : LeaderSlot) :
    ∀ later : List DecisionRecord,
      Ensures (SameBlocks D₀) (indirectDecision committee waveLength slot later) (OfSlot D₀ slot)
  | [] => .pure fun _ h => nomatch h
  | record :: later => by
    have hrest := same_indirectDecision committee waveLength slot later
    rw [indirectDecision]
    refine .ite hrest ?_
    rcases record.decision with anchor | _ | _
    · exact same_decideFromAnchor committee waveLength slot anchor
    · exact hrest
    · exact .pure fun _ h => nomatch h

/-- The leaders committed are blocks of the DAG, and of slots. -/
def Leaders (D : MahiDag) (decisions : FinMap SlotId LeaderDecision) : Prop :=
  ∀ id leader, decisions.lookup id = some (.commit leader) →
    (∃ u, id = slotAt u) ∧ ∃ q, D.block leader = some q

/-- What the loop over the pending slots returns: a record of every slot, and the decisions with
those of the records. -/
structure Judges (D : MahiDag) (slots : List LeaderSlot)
    (decisions : FinMap SlotId LeaderDecision)
    (answer : List DecisionRecord × FinMap SlotId LeaderDecision) : Prop where
  map_slot : answer.1.map DecisionRecord.slot = slots
  others : ∀ id ∉ slots.map LeaderSlot.id, answer.2.lookup id = decisions.lookup id
  records : ∀ record ∈ answer.1, record.decision.isDecided = true →
    answer.2.lookup record.slot.id = some record.decision
  leaders : Leaders D answer.2

/-- One slot more is judged. -/
theorem Judges.cons {slot : LeaderSlot} {slots : List LeaderSlot}
    {decisions : FinMap SlotId LeaderDecision}
    {answer : List DecisionRecord × FinMap SlotId LeaderDecision}
    (h : Judges D₀ slots decisions answer) (hnew : slot.id ∉ slots.map LeaderSlot.id)
    (hslot : ∃ u, slot.id = slotAt u) {decision : LeaderDecision}
    (hl : ∀ leader, decision = .commit leader → ∃ q, D₀.block leader = some q) :
    Judges D₀ (slot :: slots) decisions (⟨slot, decision⟩ :: answer.1,
      if decision.isDecided then answer.2.insert slot.id decision else answer.2) := by
  have hlookup : ∀ id ≠ slot.id, (if decision.isDecided then answer.2.insert slot.id decision
      else answer.2).lookup id = answer.2.lookup id := fun id hid => by
    split_ifs
    · rw [FinMap.lookup_insert_ite, if_neg hid]
    · rfl
  refine ⟨by rw [List.map_cons, h.map_slot], fun id hid => ?_, fun record hr hdec => ?_,
    fun id leader hid => ?_⟩
  · rw [List.map_cons, List.mem_cons, not_or] at hid
    exact (hlookup id hid.1).trans (h.others id hid.2)
  · rcases List.mem_cons.1 hr with rfl | hr
    · simp only at hdec ⊢
      rw [if_pos hdec, FinMap.lookup_insert_ite, if_pos rfl]
    · have hmem : record.slot.id ∈ slots.map LeaderSlot.id := by
        rw [← h.map_slot, List.map_map]
        exact List.mem_map_of_mem hr
      rw [hlookup _ fun he => hnew (he ▸ hmem)]
      exact h.records record hr hdec
  · by_cases he : id = slot.id
    · subst he
      split_ifs at hid with hdec
      · rw [FinMap.lookup_insert_ite, if_pos rfl, Option.some.injEq] at hid
        exact ⟨hslot, hl leader hid⟩
      · exact h.leaders _ leader hid
    · exact h.leaders id leader ((hlookup id he).symm.trans hid)

theorem same_decideSlots (committee : Committee) (waveLength : ℕ)
    (hslot : ∀ a r, ∀ d ∈ D₀.slotDigests a r, ∃ q, D₀.block d = some q) :
    ∀ {slots : List LeaderSlot} {decisions : FinMap SlotId LeaderDecision},
      (slots.map LeaderSlot.id).Nodup → (∀ id ∈ slots.map LeaderSlot.id, ∃ u, id = slotAt u) →
      Leaders D₀ decisions →
      Ensures (SameBlocks D₀) (decideSlots committee waveLength slots decisions)
        (Judges D₀ slots decisions)
  | [], _, _, _, h => .pure ⟨rfl, fun _ _ => rfl, nofun, h⟩
  | slot :: slots, decisions, hn, hids, h => by
    obtain ⟨hnew, hn⟩ := List.nodup_cons.1 hn
    obtain ⟨hid, hids⟩ := List.forall_mem_cons.1 hids
    have hblock : ∀ decision, OfSlot D₀ slot decision → ∀ leader, decision = .commit leader →
        ∃ q, D₀.block leader = some q := fun _ hd leader he => hslot _ _ _ (hd leader he)
    refine (same_decideSlots committee waveLength hslot hn hids h).bind fun answer hj => ?_
    have hcached : ∀ leader, (answer.2.lookup slot.id).getD .undecided = .commit leader →
        ∃ q, D₀.block leader = some q := fun leader he => by
      rcases hc : answer.2.lookup slot.id with _ | cached
      · rw [hc] at he
        cases he
      · rw [hc] at he
        exact (hj.leaders _ _ (hc.trans (congrArg some he))).2
    refine .ite_bind (P := fun decision => ∀ leader, decision = .commit leader →
      ∃ q, D₀.block leader = some q) (.ite (.pure hcached)
        fun D d D' hD hrun => ?_) fun direct hdirect => .ite_bind (P := fun decision =>
      ∀ leader, decision = .commit leader → ∃ q, D₀.block leader = some q)
        (.ite (.pure hdirect) fun D d D' hD hrun => ?_) fun decision hdecision =>
          .pure (hj.cons hnew hid hdecision)
    · obtain ⟨hD', hd⟩ := same_directDecision committee waveLength slot D d D' hD hrun
      exact ⟨hD', hblock d hd⟩
    · obtain ⟨hD', hd⟩ := same_indirectDecision committee waveLength slot answer.1 D d D' hD hrun
      exact ⟨hD', hblock d hd⟩

end Queries

/-! ## Histories -/

section History

/-- `p` is a parent of the block `d`. -/
def Parent (D : MahiDag) (d p : Digest) : Prop := ∃ q, D.block d = some q ∧ p ∈ q.header.parents

/-- `d` is in the causal history of the leader. -/
def History (D : MahiDag) : Digest → Digest → Prop := Relation.ReflTransGen (Parent D)

/-- What has been sent is in the DAG, with its parents sent. -/
def Closed (c : MahiCommitter) : Prop :=
  ∀ d ∈ c.emitted, ∃ q, c.dag.block d = some q ∧ ∀ p ∈ q.header.parents, p ∈ c.emitted

variable {c : MahiCommitter} {leader d : Digest}

theorem History.congr {D D' : MahiDag} (h : D'.block = D.block) : History D' = History D := by
  have hparent : Parent D' = Parent D := by
    funext d p
    simp only [Parent, h]
  rw [History, History, hparent]

theorem Closed.history (h : Closed c) {p : Digest} (hd : d ∈ c.emitted)
    (hp : History c.dag d p) : p ∈ c.emitted := by
  induction hp with
  | refl => exact hd
  | tail _ hstep ih =>
    obtain ⟨q, hq, hmem⟩ := hstep
    obtain ⟨q', hq', hparents⟩ := h _ ih
    rw [hq, Option.some.injEq] at hq'
    exact hparents _ (hq' ▸ hmem)

theorem mem_parents {D : MahiDag} {p : Digest} :
    p ∈ ((D.block d).elim [] fun block => block.header.parents.toList) ↔ Parent D d p := by
  rcases hd : D.block d with _ | q <;> simp [Parent, hd, SortedSet.mem_def]

/-- The loop of `linearize` collects what of the history has not been sent. -/
theorem Closed.mem_reachable (h : Closed c) :
    d ∈ c.reachable leader ↔ d ∉ c.emitted ∧ History c.dag leader d := by
  rw [mem_reachable_links]
  refine and_congr_right fun hd => ⟨fun hpath => ?_, fun hpath => ?_⟩
  · exact Relation.ReflTransGen.mono (fun _ _ hstep => mem_parents.1 hstep.2) _ _ hpath
  · induction hpath using Relation.ReflTransGen.head_induction_on with
    | refl => exact .refl
    | @head x y hxy hyd ih =>
      refine ih.head ⟨decide_eq_false fun hx => hd ?_, mem_parents.2 hxy⟩
      exact h.history hx (.head hxy hyd)

/-- A gap in the history of a leader stops the committer. -/
theorem Closed.linearize_gap (h : Closed c) (hl : ∃ q, c.dag.block leader = some q)
    (hd : History c.dag leader d) (hgap : c.dag.block d = none) :
    c.linearize leader = .error "reachable block is indexed" := by
  have hnot : d ∉ c.emitted := fun hmem => by
    obtain ⟨q, hq, -⟩ := h d hmem
    rw [hgap] at hq
    cases hq
  have hmem : d ∈ c.reachable leader := h.mem_reachable.2 ⟨hnot, hd⟩
  have hleader : leader ∈ c.reachable leader :=
    h.mem_reachable.2 ⟨fun hmem => hnot (h.history hmem hd), .refl⟩
  have hne : leader ≠ d := by
    rintro rfl
    obtain ⟨q, hq⟩ := hl
    rw [hgap] at hq
    cases hq
  -- the leader and the missing block are two digests to sort
  have htwo : 1 < (c.reachable leader).length := by
    have hcard : ({leader, d} : Finset Digest).card ≤ (c.reachable leader).toFinset.card :=
      Finset.card_le_card fun x hx => by
        rcases Finset.mem_insert.1 hx with rfl | hx
        · exact List.mem_toFinset.2 hleader
        · exact List.mem_toFinset.2 (Finset.mem_singleton.1 hx ▸ hmem)
    rw [Finset.card_pair hne] at hcard
    exact hcard.trans (List.toFinset_card_le _)
  have hfewer : ((c.reachable leader).filterMap fun digest => (c.dag.block digest).map fun block =>
      (digest, block)).length < (c.reachable leader).length :=
    List.length_filterMap_lt_length_iff_exists.2 ⟨d, hmem, by rw [hgap]; rfl⟩
  rw [MahiCommitter.linearize]
  exact if_pos ⟨htwo, hfewer⟩

/-- What a leader adds when its history is in the DAG. -/
structure Adds (c : MahiCommitter) (leader : Digest) (ordered : List (Digest × Certificate)) :
    Prop where
  nodup : (ordered.map Prod.fst).Nodup
  sorted : ordered.Pairwise MahiCommitter.outputLe
  mem : ∀ x, x ∈ ordered ↔
    (x.1 ∉ c.emitted ∧ History c.dag leader x.1) ∧ c.dag.block x.1 = some x.2

theorem Closed.linearize_eq (h : Closed c)
    (hin : ∀ d, History c.dag leader d → ∃ q, c.dag.block d = some q) :
    ∃ ordered, Adds c leader ordered ∧ c.linearize leader =
      .ok ({ c with emitted := ordered.map Prod.fst ++ c.emitted }, ordered.map Prod.snd) := by
  obtain ⟨ordered, hlin, hnodup, hsorted, hmem⟩ :=
    linearize_of_indexed fun d (hd : d ∈ c.reachable leader) => hin d (h.mem_reachable.1 hd).2
  exact ⟨ordered, ⟨hnodup, hsorted, fun x => by rw [hmem, h.mem_reachable]⟩, hlin⟩

/-- What has been sent stays closed. -/
theorem Adds.closed {ordered : List (Digest × Certificate)} (hadds : Adds c leader ordered)
    (h : Closed c) (hin : ∀ d, History c.dag leader d → ∃ q, c.dag.block d = some q) :
    Closed { c with emitted := ordered.map Prod.fst ++ c.emitted } := by
  intro d hd
  rcases List.mem_append.1 hd with hd | hd
  · obtain ⟨⟨d, q⟩, hx, rfl⟩ := List.mem_map.1 hd
    obtain ⟨⟨hnot, hpath⟩, hq⟩ := (hadds.mem _).1 hx
    refine ⟨q, hq, fun p hp => ?_⟩
    by_cases hpe : p ∈ c.emitted
    · exact List.mem_append_right _ hpe
    · have hpath' : History c.dag leader p := hpath.tail ⟨q, hq, hp⟩
      obtain ⟨b, hb⟩ := hin p hpath'
      have hnew : (p, b) ∈ ordered := (hadds.mem _).2 ⟨⟨hpe, hpath'⟩, hb⟩
      exact List.mem_append_left _ (List.mem_map.2 ⟨(p, b), hnew, rfl⟩)
  · obtain ⟨q, hq, hparents⟩ := h d hd
    exact ⟨q, hq, fun p hp => List.mem_append_right _ (hparents p hp)⟩

/-- Whatever `linearize` sends, what has been sent stays closed. -/
theorem Closed.linearize (h : Closed c) {c' : MahiCommitter} {sequence : List Certificate}
    (hlin : c.linearize leader = .ok (c', sequence)) : Closed c' ∧ c'.dag = c.dag := by
  by_cases hl : ∃ q, c.dag.block leader = some q
  · have hin : ∀ d, History c.dag leader d → ∃ q, c.dag.block d = some q := fun d hd => by
      rcases hb : c.dag.block d with _ | q
      · rw [h.linearize_gap hl hd hb] at hlin
        cases hlin
      · exact ⟨q, rfl⟩
    obtain ⟨ordered, hadds, heq⟩ := h.linearize_eq hin
    rw [heq] at hlin
    cases hlin
    exact ⟨hadds.closed h hin, rfl⟩
  · -- a leader that is not in the DAG is collected alone, and dropped
    have hnone : c.dag.block leader = none := by
      rcases hb : c.dag.block leader with _ | q
      · rfl
      · exact absurd ⟨q, hb⟩ hl
    have honly : ∀ d, History c.dag leader d → d = leader := fun d hd => by
      rcases hd.cases_head with rfl | ⟨p, ⟨q, hq, -⟩, -⟩
      · rfl
      · exact absurd ⟨q, hq⟩ hl
    have hblocks : (c.reachable leader).filterMap (fun digest => (c.dag.block digest).map
        fun block => (digest, block)) = [] := List.filterMap_eq_nil_iff.2 fun d hd => by
      rw [honly d (h.mem_reachable.1 hd).2, hnone]
      rfl
    rw [MahiCommitter.linearize] at hlin
    simp only [hblocks] at hlin
    split_ifs at hlin
    cases hlin
    exact ⟨h, rfl⟩

end History

/-! ## States of a committer -/

section Committer

variable [Crypto]

/-- The last slot decided when `s` slots have been passed. -/
def lastSlot : ℕ → Option SlotId
  | 0 => none
  | s + 1 => some (slotAt s)

/-- A committer that has passed `s` slots. -/
structure Formed (xs : List Certificate) (s : ℕ) (c : MahiCommitter) : Prop where
  stored : Stored xs c.dag
  closed : Closed c
  leaders : Leaders c.dag c.decisions
  last : c.lastDecided = lastSlot s

variable {consensus : Consensus} {xs : List Certificate} {s : ℕ} {c c' : MahiCommitter}

theorem Formed.firstPending (h : Formed xs s c) : c.firstPending = slotAt s := by
  cases s with
  | zero =>
    rw [MahiCommitter.firstPending, h.last]
    rfl
  | succ s => exact firstPending_of_lastDecided h.last

theorem SameBlocks.stored {D D' : MahiDag} (hb : SameBlocks D D') (h : Stored xs D) :
    Stored xs D' where
  mem := hb.block ▸ h.mem
  slot {a r d} := by
    rw [hb.slotDigests, hb.block]
    exact h.slot

/-- What the state of a committer consists of, but for the caches. -/
theorem Formed.congr (h : Formed xs s c) (hb : SameBlocks c.dag c'.dag)
    (he : c'.emitted = c.emitted) (hl : c'.lastDecided = c.lastDecided)
    (hleaders : Leaders c.dag c'.decisions) : Formed xs s c' where
  stored := hb.stored h.stored
  closed d hd := by
    rw [he] at hd ⊢
    rw [hb.block]
    exact h.closed d hd
  leaders id leader hid := by
    rw [hb.block]
    exact hleaders id leader hid
  last := hl.trans h.last

theorem leaderSlots_prefix : ∀ {ids : List SlotId} {slots : List LeaderSlot},
    c.leaderSlots consensus ids = .ok slots → slots.map LeaderSlot.id <+: ids
  | [], slots, h => by
    cases h
    exact List.prefix_refl _
  | id :: ids, slots, h => by
    rw [MahiCommitter.leaderSlots, bind_eq_ok] at h
    obtain ⟨leader, -, h⟩ := h
    rcases leader with _ | authority
    · cases h
      exact List.nil_prefix
    · obtain ⟨rest, hrest, h⟩ := bind_eq_ok.1 h
      cases h
      exact List.cons_prefix_cons.2 ⟨rfl, leaderSlots_prefix hrest⟩

/-- The pending slots are numbered one after the other. -/
theorem Formed.pendingSlots (h : Formed xs s c) {slots : List LeaderSlot}
    (hslots : c.pendingSlots consensus = .ok slots) :
    ∃ n, slots.map LeaderSlot.id = (List.range' s n).map slotAt := by
  rw [MahiCommitter.pendingSlots] at hslots
  split_ifs at hslots
  · cases hslots
    exact ⟨0, rfl⟩
  · have hprefix := leaderSlots_prefix hslots
    rw [h.firstPending, slotIds_eq] at hprefix
    refine ⟨(slots.map LeaderSlot.id).length, (List.prefix_iff_eq_take.1 hprefix).trans ?_⟩
    rw [← List.map_take, List.take_range'_of_length_ge (by simpa using hprefix.length_le)]

omit [Crypto] in
theorem nodup_slots (s n : ℕ) : ((List.range' s n).map slotAt).Nodup :=
  List.Nodup.map slotAt_injective List.nodup_range'

omit [Crypto] in
/-- The records of consecutive slots, passed one by one up to the first undecided one. -/
theorem outputRecords_induction {P : ℕ → MahiCommitter → List Certificate → Prop}
    (hskip : ∀ s c out, c.decisions.lookup (slotAt s) = some .skip → P s c out →
      P (s + 1) { c with lastDecided := some (slotAt s) } out)
    (hcommit : ∀ s c out leader c' sequence,
      c.decisions.lookup (slotAt s) = some (.commit leader) → P s c out →
      MahiCommitter.linearize { c with lastDecided := some (slotAt s) } leader =
        .ok (c', sequence) → P (s + 1) c' (out ++ sequence)) :
    ∀ {records : List DecisionRecord} {s n : ℕ} {c c' : MahiCommitter}
      {out sequence : List Certificate},
      records.map (·.slot.id) = (List.range' s n).map slotAt →
      (∀ record ∈ records, record.decision.isDecided = true →
        c.decisions.lookup record.slot.id = some record.decision) →
      P s c out → MahiCommitter.outputRecords records c = .ok (c', sequence) →
      ∃ t, P t c' (out ++ sequence)
  | [], s, n, c, c', out, sequence, _, _, h, hrun => by
    cases hrun
    exact ⟨s, by rwa [List.append_nil]⟩
  | record :: records, s, 0, c, c', out, sequence, hids, _, _, _ => nomatch hids
  | record :: records, s, n + 1, c, c', out, sequence, hids, hdec, h, hrun => by
    rw [List.range'_succ, List.map_cons, List.map_cons, List.cons.injEq] at hids
    obtain ⟨hid, hids⟩ := hids
    obtain ⟨hhead, hdec⟩ := List.forall_mem_cons.1 hdec
    rw [hid] at hhead
    rw [MahiCommitter.outputRecords] at hrun
    rcases hr : record.decision with leader | _ | _
    · simp only [hr, hid] at hrun
      rw [hr] at hhead
      obtain ⟨⟨c₁, first⟩, hlin, hrun⟩ := bind_eq_ok.1 hrun
      obtain ⟨⟨c₂, rest⟩, hrest, hrun⟩ := bind_eq_ok.1 hrun
      cases hrun
      have hdecisions : c₁.decisions = c.decisions := by
        rw [MahiCommitter.linearize] at hlin
        split_ifs at hlin
        cases hlin
        rfl
      obtain ⟨t, ht⟩ := outputRecords_induction hskip hcommit hids
        (fun record hmem hd => by rw [hdecisions]; exact hdec record hmem hd)
        (hcommit s c out leader c₁ first (hhead rfl) h hlin) hrest
      exact ⟨t, by rwa [← List.append_assoc]⟩
    · simp only [hr, hid] at hrun
      rw [hr] at hhead
      exact outputRecords_induction (c := { c with lastDecided := some (slotAt s) }) hskip hcommit
        hids hdec (hskip s c out (hhead rfl) h) hrun
    · simp only [hr] at hrun
      cases hrun
      exact ⟨s, by rwa [List.append_nil]⟩

/-- Slots passed one by one from a state that differs in its caches and in the decisions on the
slots to come. -/
theorem Formed.tryDecide_induction {P : ℕ → MahiCommitter → List Certificate → Prop}
    (hcongr : ∀ s c c' out, SameBlocks c.dag c'.dag → c'.emitted = c.emitted →
      c'.lastDecided = c.lastDecided → Leaders c.dag c'.decisions →
      (∀ u < s, c'.decisions.lookup (slotAt u) = c.decisions.lookup (slotAt u)) →
      P s c out → P s c' out)
    (hformed : ∀ s c out, P s c out → Formed xs s c)
    (hskip : ∀ s c out, c.decisions.lookup (slotAt s) = some .skip → P s c out →
      P (s + 1) { c with lastDecided := some (slotAt s) } out)
    (hcommit : ∀ s c out leader c' sequence,
      c.decisions.lookup (slotAt s) = some (.commit leader) → P s c out →
      MahiCommitter.linearize { c with lastDecided := some (slotAt s) } leader =
        .ok (c', sequence) → P (s + 1) c' (out ++ sequence))
    (out : List Certificate) {sequence : List Certificate} (h : P s c out)
    (hrun : c.tryDecide consensus = .ok (c', sequence)) : ∃ t, P t c' (out ++ sequence) := by
  have hc := hformed s c out h
  obtain ⟨slots, hslots, hrun⟩ := bind_eq_ok.1 hrun
  obtain ⟨⟨⟨records, decisions⟩, D⟩, hdecide, hrun⟩ := bind_eq_ok.1 hrun
  obtain ⟨⟨c₁, sequence⟩, hout, hrun⟩ := bind_eq_ok.1 hrun
  obtain ⟨n, hids⟩ := hc.pendingSlots hslots
  have hnodup : (slots.map LeaderSlot.id).Nodup := by
    rw [hids]
    exact nodup_slots s n
  have hslot : ∀ a r, ∀ d ∈ c.dag.slotDigests a r, ∃ q, c.dag.block d = some q :=
    fun a r d hd => (hc.stored.slot.1 hd).imp fun _ hq => hq.1
  obtain ⟨hD, hj⟩ := same_decideSlots consensus.committee c.waveLength hslot hnodup (fun id hid => by
        rw [hids] at hid
        obtain ⟨u, -, rfl⟩ := List.mem_map.1 hid
        exact ⟨u, rfl⟩) hc.leaders c.dag _ D ⟨rfl, rfl⟩ hdecide
  have hstart : P s { c with dag := D, decisions } out := by
    refine hcongr s c _ out hD rfl rfl hj.leaders (fun u hu => hj.others _ fun hmem => ?_) h
    rw [hids] at hmem
    obtain ⟨v, hv, heq⟩ := List.mem_map.1 hmem
    have hle := (List.mem_range'_1.1 hv).1
    rw [slotAt_injective heq] at hle
    omega
  have hrecords : records.map (·.slot.id) = (List.range' s n).map slotAt := by
    rw [← hids, ← hj.map_slot, List.map_map]
    rfl
  obtain ⟨t, ht⟩ := outputRecords_induction hskip hcommit hrecords hj.records hstart hout
  refine ⟨t, ?_⟩
  cases hrun
  rcases hlast : c₁.lastDecided with _ | last
  · exact ht
  · exact hcongr t c₁ _ _ ⟨rfl, rfl⟩ rfl hlast.symm (hformed t c₁ _ ht).leaders (fun _ _ => rfl) ht

/-! ## Histories with gaps -/

/-- The states of a committer that gets blocks in any order. -/
inductive Arises (consensus : Consensus) (waveLength : ℕ) : MahiCommitter → Prop
  | new : Arises consensus waveLength (.new consensus.genesis waveLength)
  | insert {c : MahiCommitter} (x : Certificate) (h : Arises consensus waveLength c) :
      Arises consensus waveLength { c with dag := (c.dag.insert x).1 }
  | tryDecide {c c' : MahiCommitter} {sequence : List Certificate}
      (h : Arises consensus waveLength c) (hrun : c.tryDecide consensus = .ok (c', sequence)) :
      Arises consensus waveLength c'

theorem Formed.insert (h : Formed xs s c) (x : Certificate) :
    Formed (xs ++ [x]) s { c with dag := (c.dag.insert x).1 } where
  stored := h.stored.insert x
  closed d hd := by
    obtain ⟨q, hq, hparents⟩ := h.closed d hd
    exact ⟨q, block_insert_of_block hq, hparents⟩
  leaders id leader hid := by
    obtain ⟨hslot, q, hq⟩ := h.leaders id leader hid
    exact ⟨hslot, q, block_insert_of_block hq⟩
  last := h.last

/-- The genesis blocks are in the DAG, without parents. -/
theorem block_new {committee : Committee} {d : Digest}
    (hd : d ∈ (Certificate.genesis committee).map Certificate.digest) :
    ∃ q ∈ Certificate.genesis committee, (MahiDag.new (Certificate.genesis committee)).block d =
      some q ∧ q.header.parents = ∅ := by
  obtain ⟨g, hg, rfl⟩ := List.mem_map.1 hd
  obtain ⟨q, hq⟩ := has_insertAll (Certificate.genesis committee) (D := {}) g hg
  have hmem := (Stored.new.mem hq).1
  exact ⟨q, hmem, hq, (Certificate.genesis_parents hmem).1⟩

theorem Formed.new {waveLength : ℕ} :
    Formed consensus.genesis 0 (MahiCommitter.new consensus.genesis waveLength) where
  stored := Stored.new
  closed d hd := by
    obtain ⟨q, -, hq, hparents⟩ := block_new hd
    exact ⟨q, hq, by simp [hparents]⟩
  leaders _ _ h := by simp [MahiCommitter.new] at h
  last := rfl

theorem Formed.passed (h : Formed xs s c) :
    Formed xs (s + 1) { c with lastDecided := some (slotAt s) } :=
  ⟨h.stored, h.closed, h.leaders, rfl⟩

theorem Formed.linearize (h : Formed xs s c) {leader : Digest} {sequence : List Certificate}
    (hlin : c.linearize leader = .ok (c', sequence)) : Formed xs s c' := by
  obtain ⟨hclosed, hdag⟩ := h.closed.linearize hlin
  rw [MahiCommitter.linearize] at hlin
  split_ifs at hlin
  cases hlin
  exact ⟨h.stored, hclosed, h.leaders, h.last⟩

theorem Arises.formed {waveLength : ℕ} (h : Arises consensus waveLength c) :
    ∃ xs s, Formed xs s c := by
  induction h with
  | new => exact ⟨_, 0, .new⟩
  | insert x h ih =>
    obtain ⟨xs, s, ih⟩ := ih
    exact ⟨_, s, ih.insert x⟩
  | tryDecide h hrun ih =>
    obtain ⟨xs, s, ih⟩ := ih
    obtain ⟨t, ht⟩ := Formed.tryDecide_induction (P := fun s c _ => Formed xs s c)
      (fun s c c' _ hb he hl hleaders _ h => h.congr hb he hl hleaders) (fun _ _ _ h => h)
      (fun s c _ _ h => h.passed) (fun s c _ leader c' sequence _ h hlin => h.passed.linearize hlin)
      [] ih hrun
    exact ⟨xs, t, ht⟩

/-- `linearize` returns the blocks of the DAG that the leader reaches through blocks of the DAG and
that have not been sent. -/
def Collects (c : MahiCommitter) (leader : Digest) : Prop :=
  ∃ c' sequence, c.linearize leader = .ok (c', sequence) ∧
    (sequence.map Certificate.digest).Nodup ∧
    ∀ q, q ∈ sequence ↔ ∃ d, History c.dag leader d ∧ d ∉ c.emitted ∧ c.dag.block d = some q

theorem Adds.digests {leader : Digest} {ordered : List (Digest × Certificate)}
    (h : Adds c leader ordered) (hs : Stored xs c.dag) :
    (ordered.map Prod.snd).map Certificate.digest = ordered.map Prod.fst := by
  rw [List.map_map]
  exact List.map_congr_left fun x hx => (hs.mem ((h.mem x).1 hx).2).2

/-- `linearize` collects what it should for the leaders without a gap in their history, and for no
others. -/
theorem linearize_collects_iff {waveLength : ℕ} (h : Arises consensus waveLength c)
    {leader : Digest} (hl : ∃ q, c.dag.block leader = some q) :
    Collects c leader ↔ ∀ d, History c.dag leader d → ∃ b, c.dag.block d = some b := by
  obtain ⟨xs, s, hc⟩ := h.formed
  constructor
  · rintro ⟨c', sequence, hlin, -, -⟩ d hd
    rcases hb : c.dag.block d with _ | b
    · rw [hc.closed.linearize_gap hl hd hb] at hlin
      cases hlin
    · exact ⟨b, rfl⟩
  · intro hin
    obtain ⟨ordered, hadds, hlin⟩ := hc.closed.linearize_eq hin
    refine ⟨_, _, hlin, ?_, fun b => ?_⟩
    · rw [hadds.digests hc.stored]
      exact hadds.nodup
    · rw [List.mem_map]
      constructor
      · rintro ⟨x, hx, rfl⟩
        obtain ⟨⟨hnot, hpath⟩, hb⟩ := (hadds.mem x).1 hx
        exact ⟨x.1, hpath, hnot, hb⟩
      · rintro ⟨d, hpath, hnot, hb⟩
        exact ⟨(d, b), (hadds.mem _).2 ⟨⟨hnot, hpath⟩, hb⟩, rfl⟩

end Committer

/-- The block of round 2 has come before its parent. -/
def earlyCommitter [Crypto] : MahiCommitter :=
  { MahiCommitter.new fourNodes.genesis 4 with
    dag := ((MahiCommitter.new fourNodes.genesis 4).dag.insert earlyChild).1 }

theorem arises_earlyCommitter [Crypto] : Arises fourNodes 4 earlyCommitter :=
  .insert earlyChild .new

theorem block_earlyCommitter [Crypto] :
    ∃ q, earlyCommitter.dag.block earlyChild.digest = some q := exists_block_insert

theorem linearize_collects_earlyChild :
    letI := toyCrypto
    Collects earlyCommitter earlyChild.digest ↔
      ∀ d, History earlyCommitter.dag earlyChild.digest d →
        ∃ b, earlyCommitter.dag.block d = some b :=
  letI := toyCrypto
  linearize_collects_iff arises_earlyCommitter block_earlyCommitter

/-- A leader may have a gap in its history, and then `linearize` panics. -/
theorem not_linearize_collects :
    letI := toyCrypto
    ¬ ∀ c, Arises fourNodes 4 c → ∀ leader, (∃ q, c.dag.block leader = some q) →
      Collects c leader := by
  let _ := toyCrypto
  intro hall
  obtain ⟨c', sequence, hlin, -⟩ := hall _ arises_earlyCommitter _ block_earlyCommitter
  have hpanic : (earlyCommitter.linearize earlyChild.digest).toOption.isNone = true := by
    decide +kernel
  rw [hlin] at hpanic
  cases hpanic

section Committer

variable [Crypto] {consensus : Consensus} {xs : List Certificate} {s : ℕ} {c c' : MahiCommitter}

/-! ## Parents first -/

/-- Every block comes after its parents, and they are of lower rounds. -/
def ParentsFirst (genesis xs : List Certificate) : Prop :=
  ∀ (ys : List Certificate) (x : Certificate), ys ++ [x] <+: xs → ∀ p ∈ x.header.parents,
    (∃ y ∈ genesis ++ ys, y.digest = p) ∧ ∀ y ∈ genesis ++ ys, y.digest = p → y.round < x.round

/-- What each place of the list refers to comes before it. -/
def ParentsBefore (genesis xs : List Certificate) : Prop :=
  ∀ i < xs.length, ∀ x ∈ xs[i]?, ∀ p ∈ x.header.parents.toList,
    (∃ y ∈ genesis ++ xs.take i, y.digest = p) ∧
      ∀ y ∈ genesis ++ xs.take i, y.digest = p → y.round < x.round

instance (genesis xs : List Certificate) : Decidable (ParentsBefore genesis xs) :=
  inferInstanceAs (Decidable (∀ i < xs.length, ∀ x ∈ xs[i]?, ∀ p ∈ x.header.parents.toList, _ ∧ _))

theorem ParentsFirst.of_list {genesis : List Certificate} (h : ParentsBefore genesis xs) :
    ParentsFirst genesis xs :=
  PrefixLog.forall_prefix_concat h

variable (consensus) in
/-- A committer without gaps, which has sent the histories of the leaders of the slots passed. -/
structure Linear (xs : List Certificate) (s : ℕ) (c : MahiCommitter) (out : List Certificate) :
    Prop where
  formed : Formed (consensus.genesis ++ xs) s c
  held : ∀ y ∈ consensus.genesis ++ xs, ∃ q, c.dag.block y.digest = some q
  parents : ∀ d q, c.dag.block d = some q → ∀ p ∈ q.header.parents,
    ∃ b, c.dag.block p = some b ∧ b.round < q.round
  sent : ∀ d, d ∈ c.emitted ↔ d ∈ consensus.genesis.map Certificate.digest ∨
    d ∈ out.map Certificate.digest
  fresh : ∀ d ∈ out.map Certificate.digest, d ∉ consensus.genesis.map Certificate.digest
  nodup : (out.map Certificate.digest).Nodup
  ordered : ∀ (before : List Certificate) (x : Certificate) (after : List Certificate),
    out = before ++ x :: after → ∀ p ∈ x.header.parents,
      p ∈ consensus.genesis.map Certificate.digest ∨ p ∈ before.map Certificate.digest
  exact : ∀ d, d ∈ out.map Certificate.digest ↔
    d ∉ consensus.genesis.map Certificate.digest ∧ ∃ u < s, ∃ leader,
      c.decisions.lookup (slotAt u) = some (.commit leader) ∧ History c.dag leader d

variable {out : List Certificate}

/-- Nothing of a history is missing. -/
theorem Linear.history (h : Linear consensus xs s c out) {leader d : Digest}
    (hl : ∃ q, c.dag.block leader = some q) (hd : History c.dag leader d) :
    ∃ q, c.dag.block d = some q := by
  induction hd with
  | refl => exact hl
  | tail _ hstep _ =>
    obtain ⟨q, hq, hp⟩ := hstep
    obtain ⟨b, hb, -⟩ := h.parents _ q hq _ hp
    exact ⟨b, hb⟩

theorem Linear.congr (h : Linear consensus xs s c out)
    (hb : SameBlocks c.dag c'.dag) (he : c'.emitted = c.emitted)
    (hl : c'.lastDecided = c.lastDecided) (hleaders : Leaders c.dag c'.decisions)
    (hdec : ∀ u < s, c'.decisions.lookup (slotAt u) = c.decisions.lookup (slotAt u)) :
    Linear consensus xs s c' out where
  formed := h.formed.congr hb he hl hleaders
  held := by
    rw [hb.block]
    exact h.held
  parents := by
    rw [hb.block]
    exact h.parents
  sent := by
    rw [he]
    exact h.sent
  fresh := h.fresh
  nodup := h.nodup
  ordered := h.ordered
  exact d := by
    rw [h.exact, History.congr hb.block]
    refine and_congr_right fun _ => exists_congr fun u => and_congr_right fun hu => ?_
    rw [hdec u hu]

theorem Linear.skip (h : Linear consensus xs s c out)
    (hs : c.decisions.lookup (slotAt s) = some .skip) :
    Linear consensus xs (s + 1) { c with lastDecided := some (slotAt s) } out where
  formed := h.formed.passed
  held := h.held
  parents := h.parents
  sent := h.sent
  fresh := h.fresh
  nodup := h.nodup
  ordered := h.ordered
  exact d := by
    rw [h.exact]
    refine and_congr_right fun _ => ⟨fun ⟨u, hu, hleader⟩ => ⟨u, by omega, hleader⟩, ?_⟩
    rintro ⟨u, hu, leader, hleader, hd⟩
    rcases Nat.lt_succ_iff_lt_or_eq.1 hu with hu | rfl
    · exact ⟨u, hu, leader, hleader, hd⟩
    · rw [show c.decisions.lookup (slotAt u) = some (.commit leader) from hleader] at hs
      cases hs

omit [Crypto] in
/-- Within what a leader adds, parents come first: they are of lower rounds. -/
theorem Adds.parent_before {leader : Digest} {ordered : List (Digest × Certificate)}
    (h : Adds c leader ordered)
    (hparents : ∀ d q, c.dag.block d = some q → ∀ p ∈ q.header.parents,
      ∃ b, c.dag.block p = some b ∧ b.round < q.round)
    {before after : List (Digest × Certificate)} {x : Digest × Certificate}
    (heq : ordered = before ++ x :: after) {p : Digest} (hp : p ∈ x.2.header.parents) :
    p ∈ c.emitted ∨ p ∈ before.map Prod.fst := by
  subst heq
  obtain ⟨⟨-, hpath⟩, hx⟩ := (h.mem x).1 (by simp)
  obtain ⟨b, hb, hlt⟩ := hparents _ _ hx p hp
  refine or_iff_not_imp_left.2 fun hnot => ?_
  have hmem : (p, b) ∈ before ++ x :: after := (h.mem (p, b)).2 ⟨⟨hnot, hpath.tail ⟨_, hx, hp⟩⟩, hb⟩
  rcases List.mem_append.1 hmem with hmem | hmem
  · exact List.mem_map_of_mem hmem
  -- the block itself and those after it are of no lower round
  have hle : x.2.round ≤ b.round := by
    rcases List.mem_cons.1 hmem with rfl | hmem
    · exact le_rfl
    · have hpair := (List.pairwise_append.1 h.sorted).2.1
      rcases (List.pairwise_cons.1 hpair).1 (p, b) hmem with hlt | ⟨heq, -⟩
      · exact hlt.le
      · exact heq.le
  exact absurd hlt (Nat.not_lt.2 hle)

theorem Linear.commit (h : Linear consensus xs s c out) {leader : Digest}
    {sequence : List Certificate} (hs : c.decisions.lookup (slotAt s) = some (.commit leader))
    (hlin : MahiCommitter.linearize { c with lastDecided := some (slotAt s) } leader =
      .ok (c', sequence)) : Linear consensus xs (s + 1) c' (out ++ sequence) := by
  have hpassed := h.formed.passed
  have hin : ∀ d, History c.dag leader d → ∃ q, c.dag.block d = some q :=
    fun d hd => h.history (h.formed.leaders _ _ hs).2 hd
  obtain ⟨ordered, hadds, heq⟩ := hpassed.closed.linearize_eq hin
  have hformed := hpassed.linearize hlin
  rw [heq] at hlin
  cases hlin
  have hdigests := hadds.digests hpassed.stored
  have hnew : ∀ d, d ∈ ordered.map Prod.fst ↔ d ∉ c.emitted ∧ History c.dag leader d := fun d => by
    rw [List.mem_map]
    constructor
    · rintro ⟨x, hx, rfl⟩
      exact ((hadds.mem x).1 hx).1
    · intro hd
      obtain ⟨q, hq⟩ := hin d hd.2
      exact ⟨(d, q), (hadds.mem _).2 ⟨hd, hq⟩, rfl⟩
  have hmap : (out ++ ordered.map Prod.snd).map Certificate.digest =
      out.map Certificate.digest ++ ordered.map Prod.fst := by rw [List.map_append, hdigests]
  have hbatch : ∀ {zs after : List Certificate} {x : Certificate},
      ordered.map Prod.snd = zs ++ x :: after → ∀ {p : Digest}, p ∈ x.header.parents →
        (p ∈ consensus.genesis.map Certificate.digest ∨ p ∈ out.map Certificate.digest) ∨
          p ∈ zs.map Certificate.digest := fun {zs after x} hsplit p hp => by
    obtain ⟨before, rest, rfl, rfl, hrest⟩ := List.map_eq_append_iff.1 hsplit
    obtain ⟨y, last, rfl, rfl, rfl⟩ := List.map_eq_cons_iff.1 hrest
    refine (hadds.parent_before h.parents rfl hp).imp (h.sent p).1 fun hmem => ?_
    obtain ⟨z, hz, rfl⟩ := List.mem_map.1 hmem
    have hblock := ((hadds.mem z).1 (List.mem_append_left _ hz)).2
    exact List.mem_map.2 ⟨z.2, List.mem_map_of_mem hz, (hpassed.stored.mem hblock).2⟩
  refine ⟨hformed, h.held, h.parents, fun d => ?_, fun d hd => ?_, ?_,
    fun before x after hsplit p hp => ?_, fun d => ?_⟩
  · rw [hmap, List.mem_append, List.mem_append, h.sent]
    tauto
  · rw [hmap, List.mem_append] at hd
    rcases hd with hd | hd
    · exact h.fresh d hd
    · exact fun hg => ((hnew d).1 hd).1 ((h.sent d).2 (.inl hg))
  · rw [hmap]
    exact List.nodup_append.2 ⟨h.nodup, hadds.nodup, fun d hd e he hde =>
      ((hnew e).1 he).1 ((h.sent e).2 (.inr (hde ▸ hd)))⟩
  · rcases List.append_eq_append_iff.1 hsplit with ⟨zs, rfl, hzs⟩ | ⟨zs, rfl, hzs⟩
    · rw [List.map_append, List.mem_append, ← or_assoc]
      exact hbatch hzs hp
    · rcases zs with _ | ⟨z, zs⟩
      · have hzs : ordered.map Prod.snd = [] ++ x :: after := hzs.symm
        simpa using hbatch hzs hp
      · cases hzs
        exact h.ordered before _ zs rfl p hp
  · rw [hmap, List.mem_append, h.exact, hnew]
    constructor
    · rintro (⟨hd, u, hu, leader, hleader, hpath⟩ | ⟨hd, hpath⟩)
      · exact ⟨hd, u, by omega, leader, hleader, hpath⟩
      · exact ⟨fun hg => hd ((h.sent d).2 (.inl hg)), s, by omega, leader, hs, hpath⟩
    · rintro ⟨hd, u, hu, other, hother, hpath⟩
      rcases Nat.lt_succ_iff_lt_or_eq.1 hu with hu | rfl
      · exact .inl ⟨hd, u, hu, other, hother, hpath⟩
      · have heq : other = leader := by simpa [hs] using hother.symm
        subst heq
        by_cases hemitted : d ∈ c.emitted
        · exact .inl ((h.exact d).1 (((h.sent d).1 hemitted).resolve_left hd))
        · exact .inr ⟨hemitted, hpath⟩

theorem Linear.new {waveLength : ℕ} :
    Linear consensus [] 0 (MahiCommitter.new consensus.genesis waveLength) [] where
  formed := by simpa using Formed.new
  held y hy := by
    rw [List.append_nil] at hy
    obtain ⟨q, -, hq, -⟩ := block_new (List.mem_map_of_mem hy)
    exact ⟨q, hq⟩
  parents d q hq p hp := by
    have hmem : q ∈ consensus.genesis := (Stored.new.mem hq).1
    rw [(Certificate.genesis_parents hmem).1] at hp
    simp at hp
  sent d := by simp [MahiCommitter.new]
  fresh := nofun
  nodup := List.nodup_nil
  ordered before x after h := by simp at h
  exact d := by simp

/-- A block whose parents are there changes none of the histories. -/
theorem Linear.history_insert (h : Linear consensus xs s c out) (x : Certificate)
    {leader d : Digest} (hl : ∃ q, c.dag.block leader = some q) :
    History (c.dag.insert x).1 leader d ↔ History c.dag leader d := by
  constructor
  · intro hd
    induction hd with
    | refl => exact .refl
    | tail _ hstep ih =>
      obtain ⟨q, hq, hp⟩ := hstep
      obtain ⟨b, hb⟩ := h.history hl ih
      rw [block_insert_of_block hb] at hq
      cases hq
      exact ih.tail ⟨_, hb, hp⟩
  · refine Relation.ReflTransGen.mono (fun _ _ hstep => ?_) _ _
    obtain ⟨q, hq, hp⟩ := hstep
    exact ⟨q, block_insert_of_block hq, hp⟩

theorem Linear.insert (h : Linear consensus xs s c out) {x : Certificate}
    (hx : ∀ p ∈ x.header.parents, (∃ y ∈ consensus.genesis ++ xs, y.digest = p) ∧
      ∀ y ∈ consensus.genesis ++ xs, y.digest = p → y.round < x.round) :
    Linear consensus (xs ++ [x]) s { c with dag := (c.dag.insert x).1 } out where
  formed := by
    rw [← List.append_assoc]
    exact h.formed.insert x
  held y hy := by
    rw [← List.append_assoc, List.mem_append, List.mem_singleton] at hy
    rcases hy with hy | rfl
    · obtain ⟨q, hq⟩ := h.held y hy
      exact ⟨q, block_insert_of_block hq⟩
    · exact exists_block_insert
  parents d q hq p hp := by
    rcases block_insert_eq_some hq with hq | ⟨-, rfl⟩
    · obtain ⟨b, hb, hlt⟩ := h.parents d q hq p hp
      exact ⟨b, block_insert_of_block hb, hlt⟩
    · obtain ⟨⟨y, hy, rfl⟩, hlow⟩ := hx p hp
      obtain ⟨b, hb⟩ := h.held y hy
      obtain ⟨hmem, hdigest⟩ := h.formed.stored.mem hb
      exact ⟨b, block_insert_of_block hb, hlow b hmem hdigest⟩
  sent := h.sent
  fresh := h.fresh
  nodup := h.nodup
  ordered := h.ordered
  exact d := by
    rw [h.exact]
    refine and_congr_right fun _ => exists_congr fun u => and_congr_right fun _ =>
      exists_congr fun leader => and_congr_right fun hleader => ?_
    exact (h.history_insert x (h.formed.leaders _ _ hleader).2).symm

/-- After any blocks, as long as the committer runs. -/
theorem linear_run (hxs : ParentsFirst consensus.genesis xs) (waveLength : ℕ) :
    ∀ c, (run consensus waveLength xs).1 = some c →
      ∃ s, Linear consensus xs s c (run consensus waveLength xs).2 := by
  refine PrefixLog.run_induction _ (P := fun xs c out =>
    ∃ s, Linear consensus xs s c out) ⟨0, .new⟩ xs
      fun ys x c c' sequence hprefix _ ⟨s, hlinear⟩ hstep => ?_
  have hinsert := hlinear.insert (hxs ys x hprefix)
  rw [toOption_eq_some, MahiMahi.step] at hstep
  by_cases hnew : (c.dag.insert x).2 = true
  · simp only [hnew, if_true] at hstep
    exact Formed.tryDecide_induction (fun s c c' out hb he hl hleaders hdec h =>
      h.congr hb he hl hleaders hdec) (fun s c out h => h.formed) (fun s c out hs h => h.skip hs)
      (fun s c out leader c' sequence hs h hlin => h.commit hs hlin) _ hinsert hstep
  · simp only [hnew] at hstep
    cases hstep
    exact ⟨s, by rwa [List.append_nil]⟩

/-- The order of the slots. -/
def SlotId.le (a b : SlotId) : Prop := a.round < b.round ∨ a.round = b.round ∧ a.index ≤ b.index

omit [Crypto] in
theorem slotAt_le {u t : ℕ} : (slotAt u).le (slotAt t) ↔ u ≤ t := by
  simp only [SlotId.le, slotAt, leaderCount]
  omega

/-- The leader of a committed slot that is not after the last one decided. -/
def Committed (c : MahiCommitter) (leader : Digest) : Prop :=
  ∃ id last, c.lastDecided = some last ∧ id.le last ∧
    c.decisions.lookup id = some (.commit leader)

theorem Linear.committed_iff (h : Linear consensus xs s c out)
    {leader : Digest} : Committed c leader ↔
      ∃ u < s, c.decisions.lookup (slotAt u) = some (.commit leader) := by
  constructor
  · rintro ⟨id, last, hlast, hle, hid⟩
    obtain ⟨⟨u, rfl⟩, -⟩ := h.formed.leaders id leader hid
    rw [h.formed.last] at hlast
    cases s with
    | zero => cases hlast
    | succ s =>
      cases hlast
      exact ⟨u, Nat.lt_succ_of_le (slotAt_le.1 hle), hid⟩
  · rintro ⟨u, hu, hid⟩
    obtain ⟨t, rfl⟩ : ∃ t, s = t + 1 := ⟨s - 1, by omega⟩
    exact ⟨slotAt u, slotAt t, h.formed.last, slotAt_le.2 (by omega), hid⟩

/-- What a committer has sent: no digest twice, every block after its parents, and as long as the
committer runs the histories of the leaders committed. A panic ends what it sends. -/
theorem linearization_exact (hxs : ParentsFirst consensus.genesis xs) (waveLength : ℕ) :
    ((run consensus waveLength xs).2.map Certificate.digest).Nodup ∧
      (∀ (before : List Certificate) (x : Certificate) (after : List Certificate),
        (run consensus waveLength xs).2 = before ++ x :: after →
          ∀ p ∈ x.header.parents, p ∉ consensus.genesis.map Certificate.digest →
            p ∈ before.map Certificate.digest) ∧
      ∀ c, (run consensus waveLength xs).1 = some c →
        ∀ d, d ∈ (run consensus waveLength xs).2.map Certificate.digest ↔
          d ∉ consensus.genesis.map Certificate.digest ∧
            ∃ leader, Committed c leader ∧ History c.dag leader d := by
  -- what has been sent is what a committer that still ran had sent
  obtain ⟨ys, c₀, hprefix, hrun, hout⟩ := PrefixLog.exists_running
    (fun c certificate => (MahiMahi.step consensus c certificate).toOption)
    (MahiCommitter.new consensus.genesis waveLength) xs
  obtain ⟨s, hlinear⟩ := linear_run (fun zs x hz => hxs zs x (hz.trans hprefix)) waveLength c₀ hrun
  have hout : (run consensus waveLength ys).2 = (run consensus waveLength xs).2 := hout
  rw [hout] at hlinear
  refine ⟨hlinear.nodup, fun before x after hsplit p hp hgenesis => ?_, fun c hc d => ?_⟩
  · exact (hlinear.ordered before x after hsplit p hp).resolve_left hgenesis
  · obtain ⟨t, hlinear⟩ := linear_run hxs waveLength c hc
    rw [hlinear.exact]
    refine and_congr_right fun _ => ⟨?_, ?_⟩
    · rintro ⟨u, hu, leader, hid, hd⟩
      exact ⟨leader, hlinear.committed_iff.2 ⟨u, hu, hid⟩, hd⟩
    · rintro ⟨leader, hcommitted, hd⟩
      obtain ⟨u, hu, hid⟩ := hlinear.committed_iff.1 hcommitted
      exact ⟨u, hu, leader, hid, hd⟩

end Committer

/-- Five rounds of four nodes: the first leaders and their histories are out. -/
theorem linearization_exact_fullDag :
    letI := toyCrypto
    (run fourNodes 4 (fullDag.drop 4)).2.length = 6 ∧
      ((run fourNodes 4 (fullDag.drop 4)).2.map Certificate.digest).Nodup ∧
      (∀ (before : List Certificate) (x : Certificate) (after : List Certificate),
        (run fourNodes 4 (fullDag.drop 4)).2 = before ++ x :: after →
          ∀ p ∈ x.header.parents, p ∉ fourNodes.genesis.map Certificate.digest →
            p ∈ before.map Certificate.digest) ∧
      ∀ c, (run fourNodes 4 (fullDag.drop 4)).1 = some c →
        ∀ d, d ∈ (run fourNodes 4 (fullDag.drop 4)).2.map Certificate.digest ↔
          d ∉ fourNodes.genesis.map Certificate.digest ∧
            ∃ leader, Committed c leader ∧ History c.dag leader d := by
  let _ := toyCrypto
  have h : (run fourNodes 4 (fullDag.drop 4)).2.length = 6 ∧
      ParentsBefore fourNodes.genesis (fullDag.drop 4) := by decide +kernel
  exact ⟨h.1, linearization_exact (.of_list h.2) 4⟩

end MahiMahi

end NovelDag
