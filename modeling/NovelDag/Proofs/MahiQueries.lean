import NovelDag.Proofs.MahiUniverse
import NovelDag.Lib.Fallible

/-!
# The queries of the Mahi-Mahi DAG

A DAG that holds the parents of its blocks answers each query as the universe does, whatever its
caches hold from earlier queries: every query computes its answer over the universe and leaves
caches that agree with it. Fuel for the rounds is enough, since a recursion goes down the rounds and
so never meets a block it is looking at.
-/

namespace NovelDag

namespace MahiMahi

open Fallible MahiDag

variable {U : Digest → Option Header} {committee : Committee} {D₀ : MahiDag}

theorem mem_roundDigests {D : MahiDag} {r : ℕ} {d : Digest} :
    d ∈ D.roundDigests r ↔ ∃ a, d ∈ D.slotDigests a r := by
  simp only [roundDigests, slotDigests, List.mem_flatMap, SortedMap.mem_values]
  constructor
  · rintro ⟨ds, ⟨a, ha⟩, hd⟩
    exact ⟨a, by rwa [ha, Option.getD_some]⟩
  · rintro ⟨a, hd⟩
    rcases ha : ((D.byRound.lookup r).getD ∅).lookup a with _ | ds
    · simp [ha] at hd
    · rw [ha, Option.getD_some] at hd
      exact ⟨ds, ⟨a, ha⟩, hd⟩

theorem le_highestRound {D : MahiDag} {a : PublicKey} {r : ℕ} {d : Digest}
    (h : d ∈ D.slotDigests a r) : r ≤ D.highestRound := by
  have hr : r ∈ D.byRound.keys := by
    rw [SortedMap.mem_keys]
    rcases hl : D.byRound.lookup r with _ | byAuthor
    · simp [slotDigests, hl] at h
    · exact ⟨byAuthor, rfl⟩
  obtain ⟨rs, last, hkeys⟩ := List.eq_nil_or_concat' D.byRound.keys |>.resolve_left
    (List.ne_nil_of_mem hr)
  have hsorted := D.byRound.keys_sorted
  rw [highestRound, hkeys, List.getLast?_concat, Option.getD_some]
  rw [hkeys, List.pairwise_append] at hsorted
  rw [hkeys, List.mem_append, List.mem_singleton] at hr
  rcases hr with hr | rfl
  · exact (hsorted.2.2 r hr last List.mem_cons_self).le
  · exact le_rfl

/-- The DAG has the block. -/
abbrev MahiDag.Has (D : MahiDag) (d : Digest) : Prop := ∃ c, D.block d = some c

/-- The blocks are of the universe and come with their parents, and the index has each once. -/
structure Indexed (U : Digest → Option Header) (D : MahiDag) : Prop where
  sub : ∀ {d c}, D.block d = some c → U d = some c.header
  closed : ∀ {d c}, D.block d = some c → ∀ p ∈ c.header.parents, ∃ q, D.block p = some q
  slot : ∀ {a r d}, d ∈ D.slotDigests a r ↔
    ∃ c, D.block d = some c ∧ c.round = r ∧ c.origin = a

/-- What the caches hold is so in the universe. -/
structure Caches (committee : Committee) (U : Digest → Option Header) (D : MahiDag) :
    Prop where
  support : ∀ {v a r s}, D.supportCache.lookup (v, a, r) = some s → s = supportOf U a r v
  certificate : ∀ {c l b}, D.certificateCache.lookup (c, l) = some b →
    (b = true ↔ Certifies U committee c l)
  link : ∀ {f t b}, D.linkCache.lookup (f, t) = some b → (b = true ↔ Reach U f t)

theorem Reach.round_le {f t : Digest} (h : Reach U f t) {c q : Header} (hf : U f = some c)
    (ht : U t = some q) : f = t ∨ q.round < c.round := by
  induction h using Relation.ReflTransGen.head_induction_on generalizing c with
  | refl => exact .inl rfl
  | head hstep _ ih =>
    obtain ⟨c', p, hf', -, hp, hlt⟩ := hstep
    rw [hf] at hf'
    cases hf'
    rcases ih hp with rfl | hlt'
    · rw [ht] at hp
      cases hp
      exact .inr hlt
    · exact .inr (hlt'.trans hlt)

namespace Indexed

variable (hD : Indexed U D₀)
include hD

theorem round {r : ℕ} {d : Digest} :
    d ∈ D₀.roundDigests r ↔ ∃ c, D₀.block d = some c ∧ c.round = r := by
  rw [mem_roundDigests]
  constructor
  · rintro ⟨a, hd⟩
    obtain ⟨c, hc, hr, -⟩ := hD.slot.1 hd
    exact ⟨c, hc, hr⟩
  · rintro ⟨c, hc, hr⟩
    exact ⟨c.origin, hD.slot.2 ⟨c, hc, hr, rfl⟩⟩

theorem highest {d : Digest} {c : Certificate} (h : D₀.block d = some c) :
    c.round ≤ D₀.highestRound := le_highestRound (hD.slot.2 ⟨c, h, rfl, rfl⟩)

theorem reach {x y : Digest} (h : Reach U x y) {c : Certificate} (hx : D₀.block x = some c) :
    ∃ q, D₀.block y = some q := by
  induction h using Relation.ReflTransGen.head_induction_on generalizing c with
  | refl => exact ⟨c, hx⟩
  | head hstep _ ih =>
    obtain ⟨c', -, hc', hp, -⟩ := hstep
    rw [hD.sub hx] at hc'
    cases hc'
    obtain ⟨q, hq⟩ := hD.closed hx _ hp
    exact ih hq

theorem round_le {f t : Digest} (h : Reach U f t) {c q : Certificate} (hf : D₀.block f = some c)
    (ht : D₀.block t = some q) : f = t ∨ q.round < c.round :=
  h.round_le (hD.sub hf) (hD.sub ht)

variable [Crypto] {B : Finset PublicKey}

/-- The parents of a block above round zero are there and of lower rounds. -/
theorem lower (hU : MahiUniverse committee B U) {v p : Digest} {c : Certificate}
    (hv : D₀.block v = some c) (hr : 0 < c.round) (hp : p ∈ c.header.parents) :
    ∃ q, D₀.block p = some q ∧ q.round < c.round := by
  obtain ⟨q, hq⟩ := hD.closed hv p hp
  obtain ⟨q', hq', hlt⟩ := hU.lower v c.header (hD.sub hv) hr p hp
  rw [hD.sub hq] at hq'
  cases hq'
  exact ⟨q, hq, hlt⟩

theorem support (hU : MahiUniverse committee B U) {a : PublicKey} {r : ℕ} {d : Digest} :
    ∀ (n : ℕ) {v : Digest} {c : Certificate}, c.round < n → D₀.block v = some c →
      supportOf U a r v = some d → ∃ q, D₀.block d = some q
  | 0, _, _, hn, _, _ => absurd hn (Nat.not_lt_zero _)
  | n + 1, v, c, hn, hv, h => by
    rw [supportOf_eq hU (hD.sub hv)] at h
    split_ifs at h with hle
    rcases firstSupport_eq_some h with hmem | ⟨p, hp, h⟩
    · exact hD.closed hv d hmem
    · obtain ⟨q, hq, hlt⟩ := hD.lower hU hv (r.zero_le.trans_lt (not_le.1 hle)) hp
      exact support hU n (by omega) hq h

/-- A certificate comes with the leader it certifies. -/
theorem certifies (hU : MahiUniverse committee B U) {c d : Digest} {cert : Certificate}
    (hc : D₀.block c = some cert) (h : Certifies U committee c d) :
    ∃ q, D₀.block d = some q := by
  obtain ⟨cert', leader, hc', hd, hq⟩ := h
  rw [hD.sub hc] at hc'
  cases hc'
  obtain ⟨a, ha⟩ := Weighted.nonempty_of_pos committee.stake
    (committee.quorumThreshold_pos.trans_le hq)
  obtain ⟨p, hp, -, -, -, hs, -⟩ := mem_voters.1 (List.mem_toFinset.1 ha)
  obtain ⟨q, hq⟩ := hD.closed hc p hp
  exact hD.support hU _ (Nat.lt_succ_self _) hq hs

end Indexed

/-- A state that queries reach from `D₀`. -/
structure Holds (committee : Committee) (U : Digest → Option Header) (D₀ D : MahiDag) :
    Prop where
  byRound : D.byRound = D₀.byRound
  byDigest : D.byDigest = D₀.byDigest
  caches : Caches committee U D

namespace Holds

variable {D : MahiDag}

theorem block (h : Holds committee U D₀ D) : D.block = D₀.block := by
  funext d
  rw [MahiDag.block, MahiDag.block, h.byDigest]

theorem fuel (h : Holds committee U D₀ D) : D.fuel = D₀.fuel := by
  rw [MahiDag.fuel, MahiDag.fuel, highestRound, highestRound, h.byRound, h.byDigest]

theorem slotDigests (h : Holds committee U D₀ D) : D.slotDigests = D₀.slotDigests := by
  funext a r
  rw [MahiDag.slotDigests, MahiDag.slotDigests, h.byRound]

theorem roundDigests (h : Holds committee U D₀ D) : D.roundDigests = D₀.roundDigests := by
  funext r
  rw [MahiDag.roundDigests, MahiDag.roundDigests, h.byRound]

theorem indexed (h : Holds committee U D₀ D) (hD : Indexed U D₀) : Indexed U D where
  sub := h.block ▸ hD.sub
  closed := h.block ▸ hD.closed
  slot := by rw [h.slotDigests, h.block]; exact hD.slot

end Holds

/-! ## Caches -/

theorem computes_cacheSupport {v : Digest} {a : PublicKey} {r : ℕ} {s : Option Digest}
    (h : s = supportOf U a r v) :
    Computes (Holds committee U D₀) (cacheSupport (v, a, r) s) ⟨⟩ := by
  refine .ofModify fun D hD => ⟨hD.byRound, hD.byDigest, { hD.caches with support := ?_ }⟩
  intro v' a' r' s' hl
  rw [FinMap.lookup_insert_ite] at hl
  split_ifs at hl with hk
  · obtain ⟨rfl, rfl, rfl⟩ := hk
    rw [← Option.some.inj hl, h]
  · exact hD.caches.support hl

theorem computes_cacheCertificate {c l : Digest} {b : Bool}
    (h : b = true ↔ Certifies U committee c l) :
    Computes (Holds committee U D₀) (cacheCertificate (c, l) b) ⟨⟩ := by
  refine .ofModify fun D hD => ⟨hD.byRound, hD.byDigest, { hD.caches with certificate := ?_ }⟩
  intro c' l' b' hl
  rw [FinMap.lookup_insert_ite] at hl
  split_ifs at hl with hk
  · obtain ⟨rfl, rfl⟩ := hk
    rw [← Option.some.inj hl, h]
  · exact hD.caches.certificate hl

theorem computes_cacheLink {f t : Digest} {b : Bool} (h : b = true ↔ Reach U f t) :
    Computes (Holds committee U D₀) (cacheLink (f, t) b) ⟨⟩ := by
  refine .ofModify fun D hD => ⟨hD.byRound, hD.byDigest, { hD.caches with link := ?_ }⟩
  intro f' t' b' hl
  rw [FinMap.lookup_insert_ite] at hl
  split_ifs at hl with hk
  · obtain ⟨rfl, rfl⟩ := hk
    rw [← Option.some.inj hl, h]
  · exact hD.caches.link hl

/-! ## Support -/

section Support

variable {a : PublicKey} {r : ℕ}

theorem computes_findSupportLoop (hD₀ : Indexed U D₀)
    {inner : Digest → DagM (Option (Option Digest))} {v : Digest} :
    ∀ {ps : List Digest}, firstSupport U a r (supportOf U a r) ps = supportOf U a r v →
      (∀ p ∈ ps, ∃ q, D₀.block p = some q ∧ (r < q.round →
        Computes (Holds committee U D₀) (inner p) (some (supportOf U a r p)))) →
      Computes (Holds committee U D₀) (findSupportLoop inner v a r ps) (some (supportOf U a r v))
  | [], hv, _ => by
    rw [firstSupport] at hv
    rw [findSupportLoop, ← hv]
    exact .bind (computes_cacheSupport hv) (.pure _)
  | p :: ps, hv, hps => by
    obtain ⟨q, hq, hinner⟩ := hps p List.mem_cons_self
    have hps' := fun p hp => hps p (List.mem_cons_of_mem _ hp)
    rw [findSupportLoop]
    refine .get_bind fun D hD => ?_
    simp only [firstSupport, hD₀.sub hq] at hv
    simp only [hD.block, hq]
    split_ifs at hv ⊢ with h₁ h₂ h₃
    · exact computes_findSupportLoop hD₀ hv hps'
    · rw [← hv]
      exact .bind (computes_cacheSupport hv) (.pure _)
    · refine .bind (hinner h₃) ?_
      rcases hs : supportOf U a r p with _ | s
      · exact computes_findSupportLoop hD₀ (by simpa [hs] using hv) hps'
      · rw [hs, Option.some_or] at hv
        rw [← hv]
        exact .bind (computes_cacheSupport hv) (.pure _)
    · exact computes_findSupportLoop hD₀ hv hps'

variable [Crypto] {B : Finset PublicKey}

/-- The recursion goes down the rounds, so it never meets a block it is looking at. -/
theorem computes_findSupportInner (hU : MahiUniverse committee B U) (hD₀ : Indexed U D₀) :
    ∀ (n : ℕ) {v : Digest} {c : Certificate} {visiting : List Digest}, D₀.block v = some c →
      c.round < n → (∀ x ∈ visiting, ∃ y, D₀.block x = some y ∧ c.round < y.round) →
      Computes (Holds committee U D₀) (findSupportInner a r n v visiting)
        (some (supportOf U a r v))
  | 0, _, _, _, _, hn, _ => absurd hn (Nat.not_lt_zero _)
  | n + 1, v, c, visiting, hv, hn, hvis => by
    rw [findSupportInner]
    refine .get_bind fun D hD => ?_
    have hnot : v ∉ visiting := fun hmem => by
      obtain ⟨y, hy, hlt⟩ := hvis v hmem
      rw [hv] at hy
      cases hy
      exact lt_irrefl _ hlt
    have heq : supportOf U a r v = if c.round ≤ r then none else _ := supportOf_eq hU (hD₀.sub hv)
    rcases hc : D.supportCache.lookup (v, a, r) with _ | s
    · simp only [hD.block, hv, if_neg hnot]
      split_ifs at heq ⊢ with hle
      · rw [heq]
        exact .bind (computes_cacheSupport heq.symm) (.pure _)
      · refine computes_findSupportLoop hD₀ heq.symm fun p hp => ?_
        obtain ⟨q, hq, hlt⟩ := hD₀.lower hU hv (by omega) hp
        refine ⟨q, hq, fun _ => computes_findSupportInner hU hD₀ n hq (by omega) fun x hx => ?_⟩
        rcases List.mem_cons.1 hx with rfl | hx
        · exact ⟨c, hv, hlt⟩
        · obtain ⟨y, hy, hlt'⟩ := hvis x hx
          exact ⟨y, hy, hlt.trans hlt'⟩
    · simp only
      rw [← hD.caches.support hc]
      exact .pure _

theorem computes_findSupport (hU : MahiUniverse committee B U) (hD₀ : Indexed U D₀) {v : Digest}
    {c : Certificate} (hv : D₀.block v = some c) :
    Computes (Holds committee U D₀) (findSupport v a r) (some (supportOf U a r v)) := by
  rw [findSupport]
  refine .get_bind fun D hD => computes_findSupportInner hU hD₀ _ hv ?_ (by simp)
  have := hD₀.highest hv
  rw [hD.fuel, MahiDag.fuel]
  omega

open Classical in
theorem computes_isVote (hU : MahiUniverse committee B U) (hD₀ : Indexed U D₀) {v d : Digest}
    {c leader : Certificate} (hv : D₀.block v = some c) (hd : D₀.block d = some leader) :
    Computes (Holds committee U D₀) (isVote v d)
      (some (decide (supportOf U leader.origin leader.round v = some d))) := by
  rw [isVote]
  refine .get_bind fun D hD => ?_
  simp only [hD.block, hd]
  refine .bind (computes_findSupport hU hD₀ hv) ?_
  convert! Computes.pure _

end Support

/-! ## Certificates -/

section Certificates

variable [Crypto] {B : Finset PublicKey}

open Classical in
theorem computes_isCertificateLoop (hU : MahiUniverse committee B U) (hD₀ : Indexed U D₀)
    {c d : Digest} {cert leader : Certificate} (hc : D₀.block c = some cert)
    (hd : D₀.block d = some leader) : ∀ {ps : List Digest} {met : List PublicKey} {stake : ℕ},
    (∀ p ∈ ps, ∃ q, D₀.block p = some q) → stake = Weighted.weight committee.stake met.toFinset →
      stake < committee.quorumThreshold →
      (Certifies U committee c d ↔ committee.quorumThreshold ≤ Weighted.weight committee.stake
        (met.toFinset ∪ (ps.filterMap (voter U cert.header leader.header d)).toFinset)) →
      Computes (Holds committee U D₀)
        (isCertificateLoop committee c d (cert.round - 1) ps met stake false)
        (some (decide (Certifies U committee c d)))
  | [], met, stake, _, hstake, hlt, hq => by
    have hno : ¬ Certifies U committee c d := by
      rw [hq, List.filterMap_nil, List.toFinset_nil, Finset.union_empty]
      omega
    rw [isCertificateLoop, if_neg Bool.false_ne_true, decide_eq_false hno]
    exact .bind (computes_cacheCertificate (by simpa using hno)) (.pure _)
  | p :: ps, met, stake, hps, hstake, hlt, hq => by
    obtain ⟨q, hp⟩ := hps p List.mem_cons_self
    have hps' := fun p hp => hps p (List.mem_cons_of_mem _ hp)
    rw [isCertificateLoop]
    refine .get_bind fun D hD => ?_
    simp only [hD.block, hp]
    have hvoter : voter U cert.header leader.header d p =
        if q.round = cert.round - 1 ∧ supportOf U leader.origin leader.round p = some d
        then some q.origin else none := by
      rw [voter, hD₀.sub hp, Option.bind_some]
    by_cases hskip : q.round ≠ cert.round - 1 ∨ q.origin ∈ met
    · rw [if_pos hskip]
      refine computes_isCertificateLoop hU hD₀ hc hd hps' hstake hlt ?_
      rw [hq, List.filterMap_cons, hvoter]
      rcases hskip with hr | hmet
      · rw [if_neg fun h => hr h.1]
      · split_ifs with hv
        · rw [List.toFinset_cons, Finset.union_insert,
            Finset.insert_eq_of_mem (Finset.mem_union_left _ (List.mem_toFinset.2 hmet))]
        · rfl
    · rw [if_neg hskip]
      simp only [not_or, not_not] at hskip
      refine .bind (computes_isVote hU hD₀ hp hd) ?_
      rw [List.filterMap_cons, hvoter] at hq
      by_cases hs : supportOf U leader.origin leader.round p = some d
      · rw [if_pos ⟨hskip.1, hs⟩, List.toFinset_cons, Finset.union_insert, ← Finset.insert_union]
          at hq
        have hmet : q.origin ∉ met.toFinset := fun h => hskip.2 (List.mem_toFinset.1 h)
        have hstake' : stake + committee.stake q.origin =
            Weighted.weight committee.stake (insert q.origin met.toFinset) := by
          rw [Weighted.weight_insert_of_notMem _ hmet, hstake, add_comm]
        simp only [hs, decide_true]
        split_ifs with hle
        · have hyes : Certifies U committee c d := hq.2 <| (hstake' ▸ hle).trans <|
            Weighted.weight_mono _ Finset.subset_union_left
          rw [decide_eq_true hyes]
          exact .bind (computes_cacheCertificate (by simpa using hyes)) (.pure _)
        · refine computes_isCertificateLoop hU hD₀ hc hd hps' ?_ (not_le.1 hle) ?_
          · rw [hstake', List.toFinset_cons]
          · rw [hq, List.toFinset_cons]
      · rw [if_neg fun h => hs h.2] at hq
        simp only [hs, decide_false]
        exact computes_isCertificateLoop hU hD₀ hc hd hps' hstake hlt hq

open Classical in
theorem computes_isCertificate (hU : MahiUniverse committee B U) (hD₀ : Indexed U D₀)
    {c d : Digest} {cert leader : Certificate} (hc : D₀.block c = some cert)
    (hd : D₀.block d = some leader) :
    Computes (Holds committee U D₀) (isCertificate committee c d)
      (some (decide (Certifies U committee c d))) := by
  rw [isCertificate]
  refine .get_bind fun D hD => ?_
  rcases hcache : D.certificateCache.lookup (c, d) with _ | b
  · simp only [hD.block, hc]
    refine computes_isCertificateLoop hU hD₀ hc hd (hD₀.closed hc) rfl
      committee.quorumThreshold_pos ?_
    rw [List.toFinset_nil, Finset.empty_union]
    exact certifies_iff (hD₀.sub hc) (hD₀.sub hd)
  · simp only
    have hb : decide (Certifies U committee c d) = b :=
      Bool.eq_iff_iff.2 (by simpa using (hD.caches.certificate hcache).symm)
    rw [hb]
    exact .pure _

end Certificates

/-! ## Links -/

section Links

open Classical in
theorem computes_linkedLoop (hD₀ : Indexed U D₀) {inner : Digest → DagM (Option Bool)}
    {f t : Digest} {target : Certificate} (ht : D₀.block t = some target) :
    ∀ {ps : List Digest}, (Reach U f t ↔ ∃ p ∈ ps, Reach U p t) →
      (∀ p ∈ ps, ∃ q, D₀.block p = some q ∧
        Computes (Holds committee U D₀) (inner p) (some (decide (Reach U p t)))) →
      Computes (Holds committee U D₀) (linkedLoop inner f t target.round ps false)
        (some (decide (Reach U f t)))
  | [], hf, _ => by
    have hno : ¬ Reach U f t := by simp [hf]
    rw [linkedLoop, if_neg Bool.false_ne_true, decide_eq_false hno]
    exact .bind (computes_cacheLink (by simpa using hno)) (.pure _)
  | p :: ps, hf, hps => by
    obtain ⟨q, hp, hinner⟩ := hps p List.mem_cons_self
    have hps' := fun p hp => hps p (List.mem_cons_of_mem _ hp)
    -- the parent does not reach the target: what is left decides
    have hrest : ¬ Reach U p t → (Reach U f t ↔ ∃ p ∈ ps, Reach U p t) := fun hno => by
      rw [hf, List.exists_mem_cons_iff, or_iff_right hno]
    rw [linkedLoop]
    refine .get_bind fun D hD => ?_
    simp only [hD.block, hp]
    split_ifs with hlt
    · refine computes_linkedLoop hD₀ ht (hrest fun h => ?_) hps'
      rcases hD₀.round_le h hp ht with rfl | h
      · rw [hp] at ht
        cases ht
        exact lt_irrefl _ hlt
      · omega
    · refine .bind hinner ?_
      by_cases h : Reach U p t
      · have hyes : Reach U f t := hf.2 ⟨p, List.mem_cons_self, h⟩
        simp only [h, hyes, decide_true]
        exact .bind (computes_cacheLink (by simpa using hyes)) (.pure _)
      · simp only [h, decide_false]
        exact computes_linkedLoop hD₀ ht (hrest h) hps'

variable [Crypto] {B : Finset PublicKey}

open Classical in
theorem computes_linkedInner (hU : MahiUniverse committee B U) (hD₀ : Indexed U D₀) {t : Digest}
    {target : Certificate} (ht : D₀.block t = some target) :
    ∀ (n : ℕ) {f : Digest} {c : Certificate} {visiting : List Digest}, D₀.block f = some c →
      c.round < n → (∀ x ∈ visiting, ∃ y, D₀.block x = some y ∧ c.round < y.round) →
      Computes (Holds committee U D₀) (linkedInner t n f visiting)
        (some (decide (Reach U f t)))
  | 0, _, _, _, _, hn, _ => absurd hn (Nat.not_lt_zero _)
  | n + 1, f, c, visiting, hf, hn, hvis => by
    rw [linkedInner]
    by_cases hft : f = t
    · rw [if_pos hft, hft, decide_eq_true .refl]
      exact .pure _
    rw [if_neg hft]
    refine .get_bind fun D hD => ?_
    have hnot : f ∉ visiting := fun hmem => by
      obtain ⟨y, hy, hlt⟩ := hvis f hmem
      rw [hf] at hy
      cases hy
      exact lt_irrefl _ hlt
    rcases hc : D.linkCache.lookup (f, t) with _ | b
    · simp only [hD.block, hf, ht, if_neg hnot]
      split_ifs with hle
      · have hno : ¬ Reach U f t := fun h => by
          rcases hD₀.round_le h hf ht with h | h
          · exact hft h
          · omega
        rw [decide_eq_false hno]
        exact .bind (computes_cacheLink (by simpa using hno)) (.pure _)
      · refine computes_linkedLoop hD₀ ht ?_ fun p hp => ?_
        · constructor
          · intro h
            rcases h.cases_head with h | ⟨p, ⟨c', q, hf', hp, -⟩, h⟩
            · exact absurd h hft
            · rw [hD₀.sub hf] at hf'
              cases hf'
              exact ⟨p, hp, h⟩
          · rintro ⟨p, hp, h⟩
            exact h.head (below hU (hD₀.sub hf) (Nat.zero_lt_of_lt (not_le.1 hle)) hp)
        · obtain ⟨q, hq, hlt⟩ := hD₀.lower hU hf (by omega) hp
          refine ⟨q, hq, computes_linkedInner hU hD₀ ht n hq (by omega) fun x hx => ?_⟩
          rcases List.mem_cons.1 hx with rfl | hx
          · exact ⟨c, hf, hlt⟩
          · obtain ⟨y, hy, hlt'⟩ := hvis x hx
            exact ⟨y, hy, hlt.trans hlt'⟩
    · simp only
      have hb : decide (Reach U f t) = b :=
        Bool.eq_iff_iff.2 (by simpa using (hD.caches.link hc).symm)
      rw [hb]
      exact .pure _

open Classical in
theorem computes_linked (hU : MahiUniverse committee B U) (hD₀ : Indexed U D₀) {f t : Digest}
    {c target : Certificate} (hf : D₀.block f = some c) (ht : D₀.block t = some target) :
    Computes (Holds committee U D₀) (linked f t) (some (decide (Reach U f t))) := by
  rw [linked]
  refine .get_bind fun D hD => computes_linkedInner hU hD₀ ht _ hf ?_ (by simp)
  have := hD₀.highest hf
  rw [hD.fuel, MahiDag.fuel]
  omega

end Links

end MahiMahi

end NovelDag
