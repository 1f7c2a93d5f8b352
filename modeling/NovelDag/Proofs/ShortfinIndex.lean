import NovelDag.Proofs.ShortfinRun
import NovelDag.Proofs.ConsensusState

/-!
# The two indexes of Shortfin

The records keep every variant of a block, the DAG the first variant of each slot. Both replace a
copy without votes by a copy with votes and never the other way, so they stay consistent, and the
records do not depend on the order in which the copies come.
-/

namespace NovelDag

namespace Shortfin

variable [Crypto]

/-- A certificate with votes, as opposed to a mere record. -/
def certified (x : Certificate) : Bool := !x.votes.isEmpty

omit [Crypto] in
@[simp] theorem certified_upgrade (stored x : Certificate) :
    certified (upgrade stored x) = (certified stored || certified x) := by
  unfold upgrade certified
  cases h : stored.votes.isEmpty <;> cases h' : x.votes.isEmpty <;> simp [h, h']

theorem digest_upgrade {stored x : Certificate} (h : stored.digest = x.digest) :
    (upgrade stored x).digest = x.digest := by
  rcases upgrade_cases stored x with hu | hu <;> rw [hu]
  exact h

/-- What is at a slot of the DAG after an insertion. -/
theorem get_insertRecord (state : State) (records : ShortfinRecords) (x : Certificate) (r : ℕ)
    (a : PublicKey) : (insertRecord state records x).1.dag.get r a =
      if r = x.round ∧ a = x.origin then
        some ((state.dag.get r a).elim (x.digest, x) fun stored =>
          if stored.1 = x.digest then (stored.1, upgrade stored.2 x) else stored)
      else state.dag.get r a := by
  unfold insertRecord Dag.get
  simp only [FinMap.lookup_insert_ite]
  by_cases hr : r = x.round
  · subst hr
    simp only [if_true, Option.bind_some, true_and]
    have hbind : (state.dag.lookup x.round).bind (fun byAuthor => byAuthor.lookup a) =
        ((state.dag.lookup x.round).getD ∅).lookup a := by
      rcases state.dag.lookup x.round with _ | byAuthor
      · rfl
      · rfl
    rw [hbind]
    generalize (state.dag.lookup x.round).getD ∅ = byAuthor
    by_cases ha : a = x.origin
    · subst ha
      rw [if_pos rfl]
      rcases hslot : byAuthor.lookup x.origin with _ | ⟨d, stored⟩
      · simp only [FinMap.lookup_insert_ite, if_true, Option.elim_none]
      · simp only [Option.elim_some]
        split_ifs with hd
        · rw [FinMap.lookup_insert_ite, if_pos rfl]
        · exact hslot
    · rw [if_neg ha]
      split
      · split_ifs
        · rw [FinMap.lookup_insert_ite, if_neg ha]
        · rfl
      · rw [FinMap.lookup_insert_ite, if_neg ha]
  · simp only [hr, false_and, if_false]

/-- The indexes after the records inserted, from the genesis state on. -/
def insertRecords (genesis xs : List Certificate) : State × ShortfinRecords :=
  xs.foldl (fun s x => insertRecord s.1 s.2 x)
    ((ShortfinState.new genesis).state, (ShortfinState.new genesis).records)

theorem insertRecords_append (genesis xs : List Certificate) (x : Certificate) :
    insertRecords genesis (xs ++ [x]) =
      insertRecord (insertRecords genesis xs).1 (insertRecords genesis xs).2 x := by
  unfold insertRecords
  rw [List.foldl_append, List.foldl_cons, List.foldl_nil]

/-- The first of the records inserted that belongs to a slot. -/
def firstBranch (xs : List Certificate) (r : ℕ) (a : PublicKey) : Option Certificate :=
  xs.find? fun x => decide (x.round = r ∧ x.origin = a)

/-- What the indexes hold after the records `xs`. -/
structure Indexed (genesis xs : List Certificate) (s : State × ShortfinRecords) : Prop where
  keys : ∀ d, (s.2.lookup d).isSome ↔
    (∃ x ∈ xs, x.digest = d) ∨ ∃ g ∈ genesis, g.digest = d
  digest : ∀ d c, s.2.lookup d = some c → c.digest = d
  certified : ∀ d c, s.2.lookup d = some c →
    (certified c = true ↔ ∃ x ∈ xs, x.digest = d ∧ certified x = true)
  slot : ∀ r a, 1 ≤ r → (s.1.dag.get r a).map Prod.fst = (firstBranch xs r a).map Certificate.digest
  stored : ∀ r a d c, 1 ≤ r → s.1.dag.get r a = some (d, c) → s.2.lookup d = some c

variable {genesis xs : List Certificate} {x : Certificate}

theorem indexed_nil (hgenesis : ∀ g ∈ genesis, g.votes = []) :
    Indexed genesis [] (insertRecords genesis []) := by
  have hlookup : ∀ d c, (insertRecords genesis []).2.lookup d = some c →
      c ∈ genesis ∧ c.digest = d := by
    intro d c h
    obtain ⟨g, hg, he⟩ := List.mem_map.1 (FinMap.mem_of_lookup_ofList h)
    obtain ⟨rfl, rfl⟩ := Prod.mk.inj he
    exact ⟨hg, rfl⟩
  have hget : ∀ r a, 1 ≤ r → (insertRecords genesis []).1.dag.get r a = none := by
    intro r a hr
    have hnone : (insertRecords genesis []).1.dag.lookup r = none := by
      rw [Option.eq_none_iff_forall_not_mem]
      intro byAuthor h
      have hmem := FinMap.mem_of_lookup_ofList h
      simp only [List.mem_singleton, Prod.mk.injEq] at hmem
      omega
    rw [Dag.get, hnone, Option.bind_none]
  refine ⟨fun d => ?_, fun d c h => (hlookup d c h).2, fun d c h => ?_, fun r a hr => ?_,
    fun r a d c hr h => ?_⟩
  · unfold insertRecords ShortfinState.new
    simp [FinMap.isSome_lookup_ofList]
  · simp [Shortfin.certified, hgenesis c (hlookup d c h).1]
  · rw [hget r a hr]
    rfl
  · rw [hget r a hr] at h
    cases h

omit [Crypto] in
theorem firstBranch_append (r : ℕ) (a : PublicKey) : firstBranch (xs ++ [x]) r a =
    (firstBranch xs r a).or (if x.round = r ∧ x.origin = a then some x else none) := by
  unfold firstBranch
  rw [List.find?_append, List.find?_singleton]
  simp only [decide_eq_true_eq]

omit [Crypto] in
theorem firstBranch_eq_some {r : ℕ} {a : PublicKey} {y : Certificate}
    (h : firstBranch xs r a = some y) : y ∈ xs ∧ y.round = r ∧ y.origin = a := by
  have hy := List.find?_some h
  exact ⟨List.mem_of_find?_eq_some h, of_decide_eq_true hy⟩

/-- What one more record does to both indexes. -/
theorem Indexed.insert {s : State × ShortfinRecords} (h : Indexed genesis xs s)
    (hround : 1 ≤ x.round) (hgenesis : ∀ g ∈ genesis, g.digest ≠ x.digest)
    (hslot : ∀ y ∈ xs, y.digest = x.digest → y.round = x.round ∧ y.origin = x.origin) :
    Indexed genesis (xs ++ [x]) (insertRecord s.1 s.2 x) := by
  -- the digest at a slot is that of a record inserted for it
  have hfirst : ∀ r a d c, 1 ≤ r → s.1.dag.get r a = some (d, c) →
      ∃ y ∈ xs, y.digest = d ∧ y.round = r ∧ y.origin = a := by
    intro r a d c hr hget
    have hmap := h.slot r a hr
    rw [hget, Option.map_some, eq_comm, Option.map_eq_some_iff] at hmap
    obtain ⟨y, hy, hd⟩ := hmap
    obtain ⟨hmem, hyr, hya⟩ := firstBranch_eq_some hy
    exact ⟨y, hmem, hd, hyr, hya⟩
  refine ⟨fun d => ?_, fun d c hc => ?_, fun d c hc => ?_, fun r a hr => ?_,
    fun r a d c hr hc => ?_⟩
  · rw [lookup_insertRecord]
    split_ifs with hd
    · simp [hd]
    · have hd' : ¬ x.digest = d := fun he => hd he.symm
      simp [h.keys, or_and_right, exists_or, hd']
  · rw [lookup_insertRecord] at hc
    split_ifs at hc with hd
    · rw [hd]
      rcases hold : s.2.lookup x.digest with _ | stored <;> rw [hold] at hc
      · cases hc
        rfl
      · cases hc
        exact digest_upgrade (h.digest _ _ hold)
    · exact h.digest d c hc
  · rw [lookup_insertRecord] at hc
    simp only [List.mem_append, List.mem_singleton, or_and_right, exists_or, exists_eq_left]
    split_ifs at hc with hd
    · subst hd
      rcases hold : s.2.lookup x.digest with _ | stored <;> rw [hold] at hc
      · cases hc
        have hno : ¬ ∃ y ∈ xs, y.digest = x.digest := fun hy => by
          have hsome := (h.keys x.digest).2 (.inl hy)
          simp [hold] at hsome
        have hno' : ¬ ∃ y ∈ xs, y.digest = x.digest ∧ Shortfin.certified y = true :=
          fun ⟨y, hy, hd, _⟩ => hno ⟨y, hy, hd⟩
        simp [hno']
      · cases hc
        rw [Option.elim_some, certified_upgrade, Bool.or_eq_true, h.certified _ _ hold]
        simp
    · have hd' : ¬ x.digest = d := fun he => hd he.symm
      rw [h.certified d c hc]
      simp [hd']
  · rw [get_insertRecord, firstBranch_append]
    have ih := h.slot r a hr
    by_cases hat : r = x.round ∧ a = x.origin
    · obtain ⟨rfl, rfl⟩ := hat
      simp only [and_self, if_true, Option.map_some]
      rcases hget : s.1.dag.get x.round x.origin with _ | stored
      · rw [hget, Option.map_none, eq_comm, Option.map_eq_none_iff] at ih
        rw [ih]
        rfl
      · rw [hget, Option.map_some, eq_comm, Option.map_eq_some_iff] at ih
        obtain ⟨y, hy, hd⟩ := ih
        rw [hy, Option.some_or, Option.map_some, hd, Option.elim_some]
        split_ifs
        · rfl
        · rfl
    · have hat' : ¬ (x.round = r ∧ x.origin = a) := fun he => hat ⟨he.1.symm, he.2.symm⟩
      rw [if_neg hat, if_neg hat', Option.or_none, ih]
  · rw [get_insertRecord] at hc
    rw [lookup_insertRecord]
    split_ifs at hc with hat
    · obtain ⟨rfl, rfl⟩ := hat
      rcases hget : s.1.dag.get x.round x.origin with _ | ⟨d₀, c₀⟩ <;> rw [hget] at hc
      · -- the first record of the slot is the first with its digest
        cases hc
        have hnew : s.2.lookup x.digest = none := by
          rw [← Option.not_isSome_iff_eq_none, h.keys]
          rintro (⟨y, hy, hd⟩ | ⟨g, hg, hd⟩)
          · obtain ⟨hyr, hya⟩ := hslot y hy hd
            have hempty := h.slot x.round x.origin hround
            rw [hget, Option.map_none, eq_comm, Option.map_eq_none_iff] at hempty
            exact absurd (decide_eq_true ⟨hyr, hya⟩) (List.find?_eq_none.1 hempty y hy)
          · exact hgenesis g hg hd
        rw [if_pos rfl, hnew]
        rfl
      · have hold := h.stored _ _ _ _ hround hget
        simp only [Option.elim_some, Option.some.injEq] at hc
        split_ifs at hc with hd
        · cases hc
          rw [if_pos hd, ← hd, hold]
          rfl
        · cases hc
          rw [if_neg hd, hold]
    · have hold := h.stored r a d c hr hc
      rw [if_neg, hold]
      rintro rfl
      obtain ⟨y, hy, hd, rfl, rfl⟩ := hfirst r a _ c hr hc
      obtain ⟨hyr, hya⟩ := hslot y hy hd
      exact hat ⟨hyr, hya⟩

/-- Digests tell slots apart, those of the genesis certificates included. -/
def SlotsApart (genesis xs : List Certificate) : Prop :=
  ∀ y ∈ genesis ++ xs, ∀ x ∈ xs, y.digest = x.digest → y.round = x.round ∧ y.origin = x.origin

instance (genesis xs : List Certificate) : Decidable (SlotsApart genesis xs) :=
  inferInstanceAs (Decidable (∀ y ∈ genesis ++ xs, ∀ x ∈ xs,
    y.digest = x.digest → y.round = x.round ∧ y.origin = x.origin))

theorem indexed_insertRecords (hgenesis : ∀ g ∈ genesis, g.round = 0 ∧ g.votes = []) :
    ∀ (xs : List Certificate), (∀ x ∈ xs, 1 ≤ x.round) → SlotsApart genesis xs →
      Indexed genesis xs (insertRecords genesis xs) := by
  intro xs
  induction xs using List.reverseRecOn with
  | nil => exact fun _ _ => indexed_nil fun g hg => (hgenesis g hg).2
  | append_singleton xs x ih =>
    intro hround hslot
    have hx : x ∈ xs ++ [x] := by simp
    have hapart : SlotsApart genesis xs := fun y hy z hz =>
      hslot y (by simp only [List.mem_append] at hy ⊢; tauto) z (List.mem_append_left _ hz)
    rw [insertRecords_append]
    refine (ih (fun y hy => hround y (List.mem_append_left _ hy)) hapart).insert (hround x hx)
      (fun g hg hd => ?_) fun y hy => hslot y (by simp [hy]) x hx
    have hzero := (hslot g (by simp [hg]) x hx hd).1
    rw [(hgenesis g hg).1] at hzero
    exact absurd (hround x hx) (by omega)

/-- After any records of positive rounds: the records have the digests inserted, each certified if
a copy was; a slot has its first branch and keeps it, with the certificate the records have; and the
digests and what is certified depend on the set of the records inserted alone. -/
theorem record_index (committee : Committee) (xs : List Certificate)
    (hround : ∀ x ∈ xs, 1 ≤ x.round) (hslot : SlotsApart (Certificate.genesis committee) xs) :
    Indexed (Certificate.genesis committee) xs (insertRecords (Certificate.genesis committee) xs) ∧
      (∀ earlier later r a y, xs = earlier ++ later → firstBranch earlier r a = some y →
        firstBranch xs r a = some y) ∧
      ∀ ys, (∀ x, x ∈ ys ↔ x ∈ xs) → ∀ d,
        ((insertRecords (Certificate.genesis committee) ys).2.lookup d).map certified =
          ((insertRecords (Certificate.genesis committee) xs).2.lookup d).map certified := by
  have hgenesis : ∀ g ∈ Certificate.genesis committee, g.round = 0 ∧ g.votes = [] :=
    fun g hg => ⟨(Certificate.genesis_parents hg).2, Certificate.genesis_votes hg⟩
  have hindexed := indexed_insertRecords hgenesis xs hround hslot
  refine ⟨hindexed, ?_, fun ys hys d => ?_⟩
  · rintro earlier later r a y rfl hy
    unfold firstBranch at hy ⊢
    rw [List.find?_append, hy, Option.some_or]
  · have hindexed' := indexed_insertRecords hgenesis ys
      (fun y hy => hround y ((hys y).1 hy)) fun y hy x hx => by
        refine hslot y ?_ x ((hys x).1 hx)
        simpa only [List.mem_append, hys] using hy
    have hkeys := (hindexed'.keys d).trans ((by simp only [hys] : _ ↔ _).trans
      (hindexed.keys d).symm)
    rcases hl : (insertRecords (Certificate.genesis committee) xs).2.lookup d with _ | c <;>
      rcases hl' : (insertRecords (Certificate.genesis committee) ys).2.lookup d with _ | c' <;>
      simp only [hl, hl', Option.isSome_some, Option.isSome_none, iff_true, iff_false, not_true,
        Bool.false_eq_true] at hkeys
    · rfl
    · rw [Option.map_some, Option.map_some, Option.some.injEq, Bool.eq_iff_iff,
        hindexed.certified d c hl, hindexed'.certified d c' hl']
      simp only [hys]

end Shortfin

namespace Shortfin

/-- A variant of the block of authority 1 in round 1. -/
def variantRecord (id : Digest) (votes : List Vote) : Certificate :=
  ⟨{ author := 1, round := 1, id }, votes⟩

/-- The first variant, a second one, the first with votes and the first again. -/
def variantRecords : List Certificate :=
  [variantRecord 1 [], variantRecord 2 [], variantRecord 1 [{}], variantRecord 1 []]

theorem record_index_variants : letI := toyCrypto
    let s := insertRecords (Certificate.genesis (.uniform 4)) variantRecords
    (s.2.lookup (variantRecord 1 []).digest).map certified = some true ∧
      (s.2.lookup (variantRecord 2 []).digest).map certified = some false ∧
      (s.1.dag.get 1 1).map Prod.fst = some (variantRecord 1 []).digest := by
  let _ := toyCrypto
  obtain ⟨h, -, -⟩ := record_index (.uniform 4) variantRecords (by decide)
    (by decide +kernel)
  refine ⟨by decide +kernel, by decide +kernel, ?_⟩
  rw [h.slot 1 1 le_rfl]
  decide +kernel

end Shortfin

end NovelDag
