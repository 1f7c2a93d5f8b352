import Mathlib

/-!
# Deciding slots through anchors

Slots are decided on direct evidence, to commit a block or to skip, or through an anchor: the first
committed slot far enough past the slot, everything between them skipped. The anchor commits the
block it links a certificate of, and skips if there is none. When evidence to commit excludes
evidence to skip and shows in every later block, no slot has two verdicts, whatever evidence the
two were drawn from.
-/

namespace AnchorDecision

inductive Verdict (β : Type*)
  | commit (block : β)
  | skip

variable {σ β : Type*} [LinearOrder σ] (commits : σ → β → Prop) (skips : σ → Prop)
  (past : σ → σ → Prop) (certifies : β → σ → β → Prop)

/-- The verdicts on a slot. `certifies a s b`: the anchor block `a` links a certificate of `b`. -/
inductive Decided : σ → Verdict β → Prop
  | directCommit {s : σ} {b : β} (h : commits s b) : Decided s (.commit b)
  | directSkip {s : σ} (h : skips s) : Decided s .skip
  | anchorCommit {s t : σ} {a b : β} (hst : past s t) (ht : Decided t (.commit a))
      (hu : ∀ u, past s u → u < t → Decided u .skip) (hb : certifies a s b) :
      Decided s (.commit b)
  | anchorSkip {s t : σ} {a : β} (hst : past s t) (ht : Decided t (.commit a))
      (hu : ∀ u, past s u → u < t → Decided u .skip) (hb : ∀ b, ¬ certifies a s b) :
      Decided s .skip

/-- Evidence that never points two ways. `candidate t a`: the block `a` is one of the slot `t`. -/
structure Consistent (candidate : σ → β → Prop) : Prop where
  commit_unique : ∀ s b b', commits s b → commits s b' → b = b'
  commit_candidate : ∀ s b, commits s b → candidate s b
  commit_not_skip : ∀ s b, commits s b → ¬ skips s
  commit_certifies : ∀ s t a b, commits s b → past s t → candidate t a → certifies a s b
  certifies_unique : ∀ s a a' b b', certifies a s b → certifies a' s b' → b = b'
  certifies_candidate : ∀ s a b, certifies a s b → candidate s b
  certifies_not_skip : ∀ s a b, certifies a s b → ¬ skips s

variable {commits skips past certifies} {candidate : σ → β → Prop}

theorem Decided.isCandidate (hc : Consistent commits skips past certifies candidate) {s : σ} {b : β}
    (h : Decided commits skips past certifies s (.commit b)) : candidate s b := by
  cases h with
  | directCommit h => exact hc.commit_candidate s b h
  | anchorCommit _ _ _ hb => exact hc.certifies_candidate s _ b hb

/-- Verdicts stay when evidence is added. -/
theorem Decided.mono {commits' : σ → β → Prop} {skips' : σ → Prop}
    (hcommits : ∀ s b, commits s b → commits' s b) (hskips : ∀ s, skips s → skips' s) {s : σ}
    {v : Verdict β} (h : Decided commits skips past certifies s v) :
    Decided commits' skips' past certifies s v := by
  induction h with
  | directCommit h => exact .directCommit (hcommits _ _ h)
  | directSkip h => exact .directSkip (hskips _ h)
  | anchorCommit hst _ _ hb ih ihu => exact .anchorCommit hst ih ihu hb
  | anchorSkip hst _ _ hb ih ihu => exact .anchorSkip hst ih ihu hb

/-- A verdict rests on direct evidence for the slot or a later one. -/
theorem Decided.exists_direct (hpast : ∀ s t, past s t → s < t) {s : σ} {v : Verdict β}
    (h : Decided commits skips past certifies s v) :
    ∃ t, s ≤ t ∧ ((∃ b, commits t b) ∨ skips t) := by
  induction h with
  | @directCommit s b h => exact ⟨s, le_rfl, .inl ⟨b, h⟩⟩
  | @directSkip s h => exact ⟨s, le_rfl, .inr h⟩
  | anchorCommit hst _ _ _ ih =>
    obtain ⟨u, hu, h⟩ := ih
    exact ⟨u, (hpast _ _ hst).le.trans hu, h⟩
  | anchorSkip hst _ _ _ ih =>
    obtain ⟨u, hu, h⟩ := ih
    exact ⟨u, (hpast _ _ hst).le.trans hu, h⟩

/-- No slot has two verdicts. The induction is on the first derivation: the anchors of the two
derivations are one, since the earlier of them is skipped by the other derivation. -/
theorem Decided.unique (hc : Consistent commits skips past certifies candidate) {s : σ}
    {v v' : Verdict β} (h : Decided commits skips past certifies s v)
    (h' : Decided commits skips past certifies s v') : v = v' := by
  -- two derivations through anchors use the same anchor block
  have anchor : ∀ {s t t' : σ} {a a' : β}, past s t → past s t' →
      (∀ v, Decided commits skips past certifies t v → Verdict.commit a = v) →
      (∀ u, past s u → u < t → ∀ v, Decided commits skips past certifies u v → .skip = v) →
      Decided commits skips past certifies t' (.commit a') →
      (∀ u, past s u → u < t' → Decided commits skips past certifies u .skip) → a = a' := by
    intro s t t' a a' hst hst' ih ihu ht' hu'
    rcases lt_trichotomy t t' with hlt | rfl | hlt
    · cases ih _ (hu' t hst hlt)
    · cases ih _ ht'
      rfl
    · cases ihu t' hst' hlt _ ht'
  induction h generalizing v' with
  | @directCommit s b hb =>
    cases h' with
    | directCommit hb' => rw [hc.commit_unique s _ _ hb hb']
    | directSkip hs => exact absurd hs (hc.commit_not_skip s b hb)
    | anchorCommit hst ht _ hb' =>
      have := hc.commit_certifies s _ _ b hb hst (ht.isCandidate hc)
      rw [hc.certifies_unique s _ _ _ _ this hb']
    | anchorSkip hst ht _ hno =>
      exact absurd (hc.commit_certifies s _ _ b hb hst (ht.isCandidate hc)) (hno b)
  | @directSkip s hs =>
    cases h' with
    | directCommit hb => exact absurd hs (hc.commit_not_skip s _ hb)
    | directSkip => rfl
    | anchorCommit _ _ _ hb => exact absurd hs (hc.certifies_not_skip s _ _ hb)
    | anchorSkip => rfl
  | @anchorCommit s t a b hst ht hu hb ih ihu =>
    cases h' with
    | directCommit hb' =>
      have := hc.commit_certifies s _ _ _ hb' hst (ht.isCandidate hc)
      rw [hc.certifies_unique s _ _ _ _ hb this]
    | directSkip hs => exact absurd hs (hc.certifies_not_skip s a b hb)
    | anchorCommit _ _ _ hb' => rw [hc.certifies_unique s _ _ _ _ hb hb']
    | anchorSkip hst' ht' hu' hno =>
      obtain rfl := anchor hst hst' (fun v hv => ih hv) (fun u hpu hlt v hv => ihu u hpu hlt hv)
        ht' hu'
      exact absurd hb (hno b)
  | @anchorSkip s t a hst ht hu hno ih ihu =>
    cases h' with
    | directCommit hb' =>
      exact absurd (hc.commit_certifies s _ _ _ hb' hst (ht.isCandidate hc)) (hno _)
    | directSkip => rfl
    | anchorCommit hst' ht' hu' hb' =>
      obtain rfl := anchor hst hst' (fun v hv => ih hv) (fun u hpu hlt v hv => ihu u hpu hlt hv)
        ht' hu'
      exact absurd hb' (hno _)
    | anchorSkip => rfl

end AnchorDecision
