import NovelDag.Proofs.CoreVotes

/-!
# Certified blocks are delivered in causal order

In Narwhal and Bullshark a core sends a certificate to consensus when it has all the parents of its
header, and what it has of certificates it has sent. So each certificate comes after its parents. A
parent may also be the id of a header the core has stored, as the store keeps both under digests.
-/

namespace NovelDag

open Handler

namespace CoreConfig

section Lists

variable {α : Type} {R : List α → α → Prop} {l : List α} {a : α}

/-- What holds of each element and those before it still does when one more comes. -/
theorem ordered_concat (h : ∀ before b after, l = before ++ b :: after → R before b) (ha : R l a)
    (before : List α) (b : α) (after : List α) (he : l ++ [a] = before ++ b :: after) :
    R before b := by
  rcases List.eq_nil_or_concat' after with rfl | ⟨after, z, rfl⟩
  · obtain ⟨rfl, hb⟩ := List.append_inj' he rfl
    obtain rfl := (List.cons.inj hb).1
    exact ha
  · rw [← List.cons_append, ← List.append_assoc] at he
    exact h before b after (List.append_inj' he rfl).1

end Lists

variable [Crypto] {c : CoreConfig} {g : Given} {x y : Moment} {s : Core} {K : Header → Prop}

/-! ## Where parents come from -/

/-- A digest of a genesis certificate, of a certificate that was sent, or the id of a header. -/
def Precedes (c : CoreConfig) (K : Header → Prop) (sent : List Certificate) (d : Digest) : Prop :=
  c.isGenesis d ∨ (∃ p ∈ sent, p.digest = d) ∨ ∃ h, K h ∧ h.id = d

/-- Each certificate was sent after its parents, and what is available was sent. -/
structure Causal (c : CoreConfig) (K : Header → Prop) (s : Core) : Prop extends Knows K s where
  ordered : ∀ (before : List Certificate) (p : Certificate) (after : List Certificate),
    s.toConsensus = before ++ p :: after → ∀ d ∈ p.header.parents.toList, c.Precedes K before d
  sent : ∀ d, c.available s d → c.Precedes K s.toConsensus d

structure CausalAt (c : CoreConfig) (K : Header → Prop) (x : Moment) : Prop
    extends Causal c K x.core, KnowsAt K x where
  recorded : ∀ r ∈ x.recorded, ∀ d ∈ r.header.parents.toList, c.Precedes K x.core.toConsensus d

theorem Precedes.mono {sent sent' : List Certificate} {d : Digest} (h : c.Precedes K sent d)
    (hs : sent ⊆ sent') : c.Precedes K sent' d :=
  h.imp_right <| Or.imp_left fun ⟨p, hp, hd⟩ => ⟨p, hs hp, hd⟩

theorem available_iff {d : Digest} : c.available s d ↔ c.isGenesis d ∨
    (s.certificateCache.lookup d).isSome ∨ (s.store.lookup d).isSome := by
  unfold CoreConfig.available
  rw [Bool.or_eq_true, Bool.or_eq_true, or_assoc]

theorem Prim.causal (hp : c.dagProtocol.isUncertifiedDag = false)
    (hgenesis : ∀ p ∈ c.genesis, K p.header) (hgiven : ∀ h, g.call.Gives h → K h)
    (h : c.Prim g x y) (v : CausalAt c K x) : CausalAt c K y := by
  have k := h.knows hgenesis hgiven v.toKnowsAt
  have handled : ∀ {h : Header}, g.Handles x.core h → K h := fun hh =>
    hh.elim (hgiven _) fun ho => v.own _ _ ho
  have shortfin : c.dagProtocol ≠ .shortfin := fun he => by rw [he] at hp; cases hp
  -- A certificate is sent whose parents have been, and nothing more becomes available.
  have sending : ∀ certificate : Certificate, (∀ d ∈ certificate.header.parents.toList,
      c.Precedes K x.core.toConsensus d) →
        ∀ (before : List Certificate) (p : Certificate) (after : List Certificate),
          x.core.toConsensus ++ [certificate] = before ++ p :: after →
            ∀ d ∈ p.header.parents.toList, c.Precedes K before d := fun certificate hparents =>
    ordered_concat (R := fun before (p : Certificate) =>
      ∀ d ∈ p.header.parents.toList, c.Precedes K before d) v.ordered hparents
  have later : ∀ {certificate : Certificate} {d : Digest}, c.Precedes K x.core.toConsensus d →
      c.Precedes K (x.core.toConsensus ++ [certificate]) d := fun hd =>
    hd.mono (List.subset_append_left _ _)
  cases h with
  | frame h =>
    obtain ⟨_, _, _, _, _, rfl⟩ := h.eq
    exact { k, v with }
  | cache hs =>
    refine { k, v with sent := fun d hd => v.sent d ?_ }
    rw [available_iff] at hd ⊢
    refine hd.imp_right (Or.elim · (fun hd => ?_) .inr)
    rcases isSome_of_insert hd with rfl | hd
    · exact .inr (Option.isSome_of_eq_some hs)
    · exact .inl hd
  | embeddedQc | certificateQc =>
    obtain ⟨_, he, _⟩ := recordShortfinQc_eq x.core _ _
    rw [he] at k ⊢
    exact { k, v with }
  | bubble hp | admitted hp => exact absurd hp shortfin
  | storeHeader hh =>
    refine { k, v with sent := fun d hd => ?_ }
    rw [available_iff] at hd
    rcases hd with hd | hd | hd
    · exact .inl hd
    · exact v.sent d (available_iff.2 (.inr (.inl hd)))
    · rcases isSome_of_insert hd with rfl | hd
      · exact .inr (.inr ⟨_, handled hh, rfl⟩)
      · exact v.sent d (available_iff.2 (.inr (.inr hd)))
  | record hs => exact absurd hs shortfin
  | recordBlock hm =>
    exfalso
    revert hp hm
    cases c.dagProtocol <;> decide
  | @deliver certificate _ hc ha =>
    have hparents : ∀ d ∈ certificate.header.parents.toList, c.Precedes K x.core.toConsensus d :=
      fun d hd => v.sent d (ha d hd)
    obtain ⟨_, _, _, he⟩ := appendBlock_eq (c := c) certificate (x.core.storeCertificate certificate)
    rw [he] at k ⊢
    refine { k, v with
      ordered := sending certificate hparents
      sent := fun d hd => ?_
      recorded := List.forall_mem_cons.2 ⟨fun d hd => later (hparents d hd),
        fun r hr d hd => later (v.recorded r hr d hd)⟩ }
    rw [available_iff] at hd
    rcases hd with hd | hd | hd
    · exact .inl hd
    · exact later (v.sent d (available_iff.2 (.inr (.inl hd))))
    · rcases isSome_of_insert hd with rfl | hd
      · exact .inr (.inl ⟨certificate, by simp [Core.sendConsensus], rfl⟩)
      · exact later (v.sent d (available_iff.2 (.inr (.inr hd))))
  | @weakRef certificate =>
    obtain ⟨_, he⟩ := recordMahiWeakRef_eq x.core certificate
    rw [he] at k ⊢
    exact { k, v with }
  | @qcSignal certificate =>
    obtain ⟨_, _, he⟩ := sendQcSignal_eq certificate x.core
    rw [he] at k ⊢
    exact { k, v with }
  | @send certificate hr =>
    exact { k, v with
      ordered := sending certificate (v.recorded certificate hr)
      sent := fun d hd => later (v.sent d hd)
      recorded := fun r hr d hd => later (v.recorded r hr d hd) }
  | _ => exact { k, v with }

theorem Steps.causal (hp : c.dagProtocol.isUncertifiedDag = false)
    (hgenesis : ∀ p ∈ c.genesis, K p.header) (hgiven : ∀ h, g.call.Gives h → K h)
    (h : c.Steps g x y) (v : CausalAt c K x) : CausalAt c K y := by
  induction h with
  | refl => exact v
  | tail _ hs ih => exact hs.causal hp hgenesis hgiven ih

/-! ## Runs -/

section Runs

variable {i : Input} {inputs : List Input}

theorem Causal.receive (hi : ∀ h, i.Brings h → K h) (v : Causal c K s) :
    Causal c K (c.receive s i) := by
  have k := v.toKnows.receive (c := c) hi
  cases i with
  | proposer => exact { k, v with }
  | _ => exact v

theorem Causal.cleanupStep (v : Causal c K s) : Causal c K (c.cleanupStep s) := by
  have k := v.toKnows.cleanupStep (c := c)
  unfold CoreConfig.cleanupStep at k ⊢
  split_ifs at k ⊢
  · exact { k, v with }
  · exact v

theorem Causal.init (hgenesis : ∀ p ∈ c.genesis, K p.header) : Causal c K c.init :=
  { knows_init hgenesis with
    ordered := fun before p after he => by
      have hlen := congrArg List.length he
      simp [CoreConfig.init] at hlen
    sent := fun d hd => by
      rw [available_iff] at hd
      rcases hd with hd | hd | hd
      · exact .inl hd
      · obtain ⟨p, hl⟩ := Option.isSome_iff_exists.1 hd
        obtain ⟨p', hp', he⟩ := List.mem_map.1 (FinMap.mem_of_lookup_ofList hl)
        cases he
        exact .inl (List.any_eq_true.2 ⟨p, hp', decide_eq_true rfl⟩)
      · cases hd }

theorem causal_run (hp : c.dagProtocol.isUncertifiedDag = false) (inputs : List Input) :
    Causal c (c.Met inputs) (c.run inputs).2 := by
  have hgenesis : ∀ p ∈ c.genesis, c.Met inputs p.header := fun p hp => .inr ⟨p, hp, rfl⟩
  have hmet : c.Throughout (fun _ i => ∀ h, i.Brings h → c.Met inputs h) inputs :=
    fun before i after s he _ h hb => .inl ⟨i, by simp [he], hb⟩
  have hkept : c.Kept (fun _ i => ∀ h, i.Brings h → c.Met inputs h) (Causal c (c.Met inputs)) :=
    { steps := fun hi _ _ hk _ h v =>
        (h.causal hp hgenesis (fun h hg => hi h (Input.brings_of_calls hk hg))
          { v with assembled := by simp, targets := by simp, recorded := by simp }).toCausal
      pend := fun _ v => { v with }
      send := fun _ _ v => { v with }
      receive := fun hi v => v.receive hi
      cleanup := fun v => v.cleanupStep
      clock := fun _ v => { v with } }
  exact hkept.run (.init hgenesis) hmet

/-- In a run of a certified DAG every certificate is sent to consensus after its parents: each parent
is a genesis certificate, or one sent before, or the digest is the id of a header the core was given. -/
theorem delivered_causally (hp : c.dagProtocol.isUncertifiedDag = false)
    {before after : List Certificate} {x : Certificate}
    (h : (c.run inputs).2.toConsensus = before ++ x :: after) :
    ∀ d ∈ x.header.parents.toList,
      c.isGenesis d ∨ (∃ p ∈ before, p.digest = d) ∨ ∃ h, c.Met inputs h ∧ h.id = d :=
  (causal_run hp inputs).ordered before x after h

/-- The certificate of a header, with the votes of the other nodes of four. -/
def certified (h : Header) : Certificate where
  header := h
  votes := ([0, 1, 2, 3].filter (· ≠ h.author)).map (Vote.new h h.round)

/-- A header on three certificates of round one. -/
def childOfFour : Header :=
  let header : Header :=
    { author := 1, round := 2, payload := ∅
      parents := SortedSet.ofList ([1, 2, 3].map fun a => (certified (headerOfFour a ∅)).digest) }
  { header with id := header.digest, signature := Crypto.sign 1 header.digest }

/-- The certificate of round two comes after those of round one. -/
def certificatesOfFour : List Input :=
  ([1, 2, 3].map (fun a => certified (headerOfFour a ∅)) ++ [certified childOfFour]).map fun x =>
    .message (.certificate x)

omit [Crypto] in
theorem delivered_causally_four : letI := toyCrypto
    ∃ (before : List Certificate) (x : Certificate),
      ((nodeOfFour .narwhal).run certificatesOfFour).2.toConsensus = before ++ [x] ∧
      before.length = 3 ∧ ∀ d ∈ x.header.parents.toList, (nodeOfFour .narwhal).isGenesis d ∨
        (∃ p ∈ before, p.digest = d) ∨
          ∃ h, (nodeOfFour .narwhal).Met certificatesOfFour h ∧ h.id = d := by
  have hrun : letI := toyCrypto
      ((nodeOfFour .narwhal).run certificatesOfFour).2.toConsensus.length = 4 := by decide +kernel
  have hlast : ∀ l : List Certificate, l.length = 4 →
      ∃ (before : List Certificate) (x : Certificate), l = before ++ [x] ∧ before.length = 3 :=
    fun l hl => by
    rcases List.eq_nil_or_concat' l with rfl | ⟨before, x, rfl⟩
    · cases hl
    · exact ⟨before, x, rfl, by simpa using hl⟩
  obtain ⟨before, x, hx, hlen⟩ := hlast _ hrun
  exact ⟨before, x, hx, hlen, @delivered_causally toyCrypto _ _ rfl _ _ _ hx⟩

end Runs

end CoreConfig

end NovelDag
