import NovelDag.Consensus

/-!
# What the clean-up keeps

After `State::update` an entry of the DAG is the one it was before, if its round has not fallen
below the last committed round of its author or below the garbage collection depth, and is gone
otherwise. The rounds committed so far depend on the committed certificates alone.
-/

namespace NovelDag

open FinMap

section Dag

/-- The entry of a round and an author. -/
def Dag.get (dag : Dag) (round : ℕ) (name : PublicKey) : Option (Digest × Certificate) :=
  (dag.lookup round).bind fun authorities => authorities.lookup name

theorem Dag.get_retainFor (dag : Dag) (name : PublicKey) (q lastCommittedRound gcDepth r : ℕ)
    (n : PublicKey) : (dag.retainFor name q lastCommittedRound gcDepth).get r n =
      (dag.get r n).filter fun _ =>
        decide (n ≠ name ∨ q ≤ r) && decide (lastCommittedRound ≤ r + gcDepth) := by
  unfold Dag.get Dag.retainFor
  rw [lookup_retainMut]
  rcases dag.lookup r with _ | authorities
  · rfl
  simp only [Option.bind_some]
  split_ifs with h
  · rw [Option.bind_none, eq_comm, Option.filter_eq_none_iff]
    rintro e he
    rcases Bool.or_eq_true_iff.1 h with h | h
    · have hnone : (authorities.retain fun n _ => decide (n ≠ name ∨ q ≤ r)).lookup n = none := by
        rw [Option.eq_none_iff_forall_not_mem]
        intro e' he'
        rw [Option.mem_def, ext_lookup_iff, List.isEmpty_iff.1 h] at he'
        exact absurd he' List.not_mem_nil
      rw [lookup_retain, Option.filter_eq_none_iff] at hnone
      simp [by simpa using hnone e he]
    · have : ¬ lastCommittedRound ≤ r + gcDepth := by simpa using h
      simp [this]
  · have hgc : lastCommittedRound ≤ r + gcDepth := by
      simp only [Bool.or_eq_true, decide_eq_true_eq, not_or, not_lt] at h
      exact h.2
    simp only [Option.bind_some, lookup_retain, hgc, decide_true, Bool.and_true]

theorem Dag.get_foldl_retainFor (lastCommittedRound gcDepth r : ℕ) (n : PublicKey) :
    ∀ (es : List (Sigma fun _ : PublicKey => ℕ)) (dag : Dag),
      Dag.get (es.foldl (fun dag e => dag.retainFor e.1 e.2 lastCommittedRound gcDepth) dag) r n =
        (dag.get r n).filter fun _ => decide (∀ e ∈ es, n ≠ e.1 ∨ e.2 ≤ r) &&
          decide (es ≠ [] → lastCommittedRound ≤ r + gcDepth)
  | [], dag => by
    rcases h : dag.get r n with _ | e <;> simp [h, Option.filter]
  | e :: es, dag => by
    rw [List.foldl_cons, get_foldl_retainFor lastCommittedRound gcDepth r n es, get_retainFor,
      Option.filter_filter]
    congr 1
    funext _
    by_cases h₁ : n ≠ e.1 ∨ e.2 ≤ r <;> by_cases h₂ : lastCommittedRound ≤ r + gcDepth <;>
      by_cases h₃ : ∀ e ∈ es, n ≠ e.1 ∨ e.2 ≤ r <;> simp [h₁, h₂, h₃]

end Dag

theorem foldr_max_le_iff {a n : ℕ} : ∀ {l : List ℕ}, l.foldr max a ≤ n ↔ a ≤ n ∧ ∀ x ∈ l, x ≤ n
  | [] => by simp
  | b :: l => by
    rw [List.foldr_cons, max_le_iff, foldr_max_le_iff, List.forall_mem_cons]
    tauto

theorem foldr_max_zero_le_iff {n : ℕ} {l : List ℕ} : l.foldr max 0 ≤ n ↔ ∀ x ∈ l, x ≤ n := by
  rw [foldr_max_le_iff]
  exact and_iff_right (Nat.zero_le n)

/-- The start of a maximum can be taken from a pair. -/
theorem foldr_max_max (a b : ℕ) (l : List ℕ) : l.foldr max (max a b) = max a (l.foldr max b) := by
  refine eq_of_forall_ge_iff fun n => ?_
  rw [foldr_max_le_iff, max_le_iff, max_le_iff, foldr_max_le_iff, and_assoc]

/-- A member that bounds the others is the maximum. -/
theorem foldr_max_of_mem {a b : ℕ} {l : List ℕ} (hm : b ∈ l) (hle : ∀ x ∈ l, x ≤ b) :
    l.foldr max a = max b a := by
  refine eq_of_forall_ge_iff fun n => ?_
  rw [foldr_max_le_iff, max_le_iff, and_comm]
  exact and_congr_left' ⟨fun h => h b hm, fun h x hx => (hle x hx).trans h⟩

theorem Certificate.genesis_parents {committee : Committee} {c : Certificate}
    (h : c ∈ Certificate.genesis committee) : c.header.parents = ∅ ∧ c.round = 0 := by
  obtain ⟨name, -, rfl⟩ := List.mem_map.1 h
  exact ⟨rfl, rfl⟩

theorem Certificate.genesis_votes {committee : Committee} {c : Certificate}
    (h : c ∈ Certificate.genesis committee) : c.votes = [] := by
  obtain ⟨name, -, rfl⟩ := List.mem_map.1 h
  rfl

namespace State

variable {s : State} {c : Certificate} {gcDepth : ℕ}

theorem get_eq (s : State) (r : ℕ) (n : PublicKey) : s.get r n = s.dag.get r n := rfl

/-- The highest committed round. -/
def Coherent (s : State) : Prop := s.lastCommittedRound = s.lastCommitted.values.foldr max 0

theorem lookup_commitRound (m : FinMap PublicKey ℕ) (c : Certificate) (n : PublicKey) :
    (commitRound m c).lookup n =
      if n = c.origin then some ((m.lookup c.origin).elim c.round (max c.round))
      else m.lookup n := lookup_alter m c.origin n _

theorem foldr_max_commitRound (m : FinMap PublicKey ℕ) (c : Certificate) :
    (commitRound m c).values.foldr max 0 = max c.round (m.values.foldr max 0) := by
  refine eq_of_forall_ge_iff fun n => ?_
  rw [foldr_max_zero_le_iff, max_le_iff, foldr_max_zero_le_iff]
  simp only [mem_values, forall_exists_index]
  constructor
  · intro h
    have hc := h _ c.origin (by rw [lookup_commitRound, if_pos rfl])
    constructor
    · refine le_trans ?_ hc
      rcases m.lookup c.origin with _ | q
      · exact le_rfl
      · exact le_max_left _ _
    · intro v k hk
      by_cases hkc : k = c.origin
      · subst hkc
        rw [hk] at hc
        exact (le_max_right _ _).trans hc
      · exact h v k (by rw [lookup_commitRound, if_neg hkc, hk])
  · rintro ⟨hc, hm⟩ v k hk
    rw [lookup_commitRound] at hk
    split_ifs at hk with hkc
    · rw [← Option.some.inj hk]
      rcases hq : m.lookup c.origin with _ | q
      · exact hc
      · exact max_le hc (hm q _ hq)
    · exact hm v k hk

@[simp] theorem lastCommitted_update : (s.update c gcDepth).lastCommitted =
    commitRound s.lastCommitted c := rfl

theorem coherent_update : (s.update c gcDepth).Coherent := rfl

theorem lastCommittedRound_update (hs : s.Coherent) :
    (s.update c gcDepth).lastCommittedRound = max c.round s.lastCommittedRound := by
  rw [hs]
  exact foldr_max_commitRound _ _

/-- A clean-up keeps the entries that `keeps` accepts afterwards, and no others. -/
theorem get_update (r : ℕ) (n : PublicKey) : (s.update c gcDepth).get r n =
    (s.get r n).filter fun _ => (s.update c gcDepth).keeps gcDepth r n := by
  have hne : (commitRound s.lastCommitted c).entries ≠ [] := by
    intro h
    have hc : (commitRound s.lastCommitted c).lookup c.origin =
        some ((s.lastCommitted.lookup c.origin).elim c.round (max c.round)) := by
      rw [lookup_commitRound, if_pos rfl]
    rw [ext_lookup_iff, h] at hc
    exact absurd hc List.not_mem_nil
  have hall : (∀ e ∈ (commitRound s.lastCommitted c).entries, n ≠ e.1 ∨ e.2 ≤ r) ↔
      ((commitRound s.lastCommitted c).lookup n).all (fun q => decide (q ≤ r)) = true := by
    rw [Option.all_eq_true]
    constructor
    · intro h q hq
      simpa using (h _ (ext_lookup_iff.1 hq)).resolve_left (by simp)
    · rintro h ⟨k, q⟩ he
      by_cases hk : n = k
      · subst hk
        exact .inr (by simpa using h q (ext_lookup_iff.2 he))
      · exact .inl hk
  change Dag.get _ r n = _
  unfold update
  rw [Dag.get_foldl_retainFor, get_eq]
  congr 1
  funext _
  simp only [keeps, ne_eq, hne, not_false_eq_true, forall_const]
  rw [Bool.eq_iff_iff]
  simp only [Bool.and_eq_true, decide_eq_true_eq]
  exact and_congr_left' hall

theorem keeps_iff {r : ℕ} {n : PublicKey} : s.keeps gcDepth r n = true ↔
    (∀ q, s.lastCommitted.lookup n = some q → q ≤ r) ∧ s.lastCommittedRound ≤ r + gcDepth := by
  simp [keeps, Option.all_eq_true]

/-- What a later clean-up keeps, the earlier ones kept. -/
theorem keeps_of_keeps_update (hs : s.Coherent) {r : ℕ} {n : PublicKey}
    (h : (s.update c gcDepth).keeps gcDepth r n = true) : s.keeps gcDepth r n = true := by
  rw [keeps_iff] at h ⊢
  rw [lastCommittedRound_update hs] at h
  refine ⟨fun q hq => ?_, (le_max_right _ _).trans h.2⟩
  by_cases hn : n = c.origin
  · have := h.1 _ (by rw [lastCommitted_update, lookup_commitRound, if_pos hn])
    rw [← hn, hq] at this
    exact (le_max_right _ _).trans this
  · exact h.1 q (by rw [lastCommitted_update, lookup_commitRound, if_neg hn, hq])

theorem le_lastCommittedRound (hs : s.Coherent) {q : ℕ} {n : PublicKey}
    (hq : s.lastCommitted.lookup n = some q) : q ≤ s.lastCommittedRound := by
  rw [hs]
  exact foldr_max_zero_le_iff.1 le_rfl q (mem_values.2 ⟨n, hq⟩)

/-- Everything above the last committed round is kept. -/
theorem keeps_of_lt (hs : s.Coherent) {r : ℕ} (h : s.lastCommittedRound ≤ r) (n : PublicKey) :
    s.keeps gcDepth r n = true := by
  rw [keeps_iff]
  exact ⟨fun q hq => (le_lastCommittedRound hs hq).trans h, h.trans (Nat.le_add_right _ _)⟩

theorem lastCommittedRound_foldl_update (gcDepth : ℕ) : ∀ (l : List Certificate) {s : State},
    s.Coherent → (l.foldl (fun s x => s.update x gcDepth) s).lastCommittedRound =
      (l.map Certificate.round).foldr max s.lastCommittedRound
  | [], _, _ => rfl
  | c :: l, s, h => by
    rw [List.foldl_cons, lastCommittedRound_foldl_update gcDepth l coherent_update,
      lastCommittedRound_update h, List.map_cons, List.foldr_cons, foldr_max_max]

theorem coherent_foldl_update (gcDepth : ℕ) : ∀ (l : List Certificate) {s : State},
    s.Coherent → (l.foldl (fun s x => s.update x gcDepth) s).Coherent
  | [], _, h => h
  | _ :: l, _, _ => coherent_foldl_update gcDepth l coherent_update

theorem get_insertCertificate [Crypto] (r : ℕ) (n : PublicKey) :
    (s.insertCertificate c).get r n =
      if r = c.round ∧ n = c.origin then some (c.digest, c) else s.get r n := by
  unfold insertCertificate get
  simp only [lookup_alter]
  by_cases hr : r = c.round
  · subst hr
    rw [if_pos rfl, Option.bind_some, lookup_insert_ite]
    by_cases hn : n = c.origin
    · simp [hn]
    · rw [if_neg hn, if_neg (by simp [hn])]
      rcases s.dag.lookup c.round with _ | m <;> simp
  · rw [if_neg hr, if_neg (by simp [hr])]

@[simp] theorem lastCommitted_insertCertificate [Crypto] :
    (s.insertCertificate c).lastCommitted = s.lastCommitted := rfl

@[simp] theorem lastCommittedRound_insertCertificate [Crypto] :
    (s.insertCertificate c).lastCommittedRound = s.lastCommittedRound := rfl

/-! ## The first state -/

section New

variable [Crypto] {committee : Committee}

theorem lookup_lastCommitted_new {n : PublicKey} {q : ℕ}
    (h : (new (Certificate.genesis committee)).lastCommitted.lookup n = some q) : q = 0 := by
  obtain ⟨g, hg, he⟩ := List.mem_map.1 (mem_of_lookup_ofList h)
  rw [← (Prod.mk.inj he).2]
  exact (Certificate.genesis_parents hg).2

theorem get_new {r : ℕ} {n : PublicKey} {e : Digest × Certificate} :
    (new (Certificate.genesis committee)).get r n = some e ↔
      r = 0 ∧ e.1 = e.2.digest ∧ e.2 ∈ (Certificate.genesis committee) ∧ e.2.origin = n := by
  have hdag : (new (Certificate.genesis committee)).dag.lookup r = if r = 0 then
      some (ofList ((Certificate.genesis committee).map fun x => (x.origin, (x.digest, x))))
      else none := by
    change (AList.insert 0 _ (∅ : Dag)).lookup r = _
    rw [lookup_insert_ite, AList.lookup_empty]
  unfold get
  rw [hdag]
  split_ifs with hr
  · rw [Option.bind_some]
    constructor
    · intro h
      obtain ⟨g, hg, he⟩ := List.mem_map.1 (mem_of_lookup_ofList h)
      obtain ⟨rfl, rfl⟩ := Prod.mk.inj he
      exact ⟨hr, rfl, hg, rfl⟩
    · rintro ⟨-, hd, hg, rfl⟩
      refine lookup_ofList_of_mem ?_ (List.mem_map.2 ⟨e.2, hg, by rw [← hd]⟩)
      have : ((Certificate.genesis committee).map fun x => (x.origin, (x.digest, x))).map Prod.fst =
          committee.names := by
        simp [Certificate.genesis, Certificate.origin, Function.comp_def]
      rw [this]
      exact committee.names_nodup
  · simp [hr]

theorem coherent_new : (new (Certificate.genesis committee)).Coherent :=
  le_antisymm (Nat.zero_le _) <| foldr_max_zero_le_iff.2 fun v hv => by
    obtain ⟨k, hk⟩ := mem_values.1 hv
    exact (lookup_lastCommitted_new hk).le

end New

end State

end NovelDag
