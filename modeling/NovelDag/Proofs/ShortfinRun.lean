import NovelDag.Proofs.ShortfinWave

/-!
# Runs of Shortfin

What one received record can do to the state, and what follows for whole runs: a wave outputs
records above the last committed rounds, and these rounds only grow.
-/

namespace NovelDag

namespace Shortfin

open PrefixLog Fallible

variable [Crypto]

/-! ## What a step does -/

section Steps

variable {consensus : Consensus} {s t : ShortfinState} {x : Certificate}

omit [Crypto] in
theorem upgrade_cases (stored certificate : Certificate) :
    upgrade stored certificate = stored ∨ upgrade stored certificate = certificate := by
  unfold upgrade
  split_ifs
  · exact .inr rfl
  · exact .inl rfl

theorem lookup_insertRecord (state : State) (records : ShortfinRecords) (d : Digest) :
    (insertRecord state records x).2.lookup d =
      if d = x.digest then
        some ((records.lookup x.digest).elim x fun stored => upgrade stored x)
      else records.lookup d := FinMap.lookup_alter _ _ _ _

/-- A record received is dropped, or put in; a boundary that commits is the round of the record and
comes with the chain of its leader. -/
theorem receive_cases {chain : Option (ℕ × Certificate × Certificate × Certificate)}
    (h : receive consensus s x = .ok (t, chain)) :
    t.state.lastCommitted = s.state.lastCommitted ∧
      t.state.lastCommittedRound = s.state.lastCommittedRound ∧
      ((uncommitted s.state.lastCommitted x = false ∧ t.records = s.records ∧ chain = none) ∨
        (uncommitted s.state.lastCommitted x = true ∧
          t.records = (insertRecord s.state s.records x).2 ∧
          ∀ r b3 b2 b1, chain = some (r, b3, b2, b1) → r = x.round ∧
            s.state.lastCommittedRound < r - 3 ∧
            verifyLeaderChain consensus r t.state t.records = .ok (.ok (b3, b2, b1)))) := by
  unfold receive at h
  by_cases hu : uncommitted s.state.lastCommitted x = true
  · simp only [hu, Bool.not_true, Bool.false_eq_true, if_false] at h
    split_ifs at h with hb he hl
    · cases h
      exact ⟨rfl, rfl, .inr ⟨hu, rfl, fun _ _ _ _ hc => by cases hc⟩⟩
    · cases h
      exact ⟨rfl, rfl, .inr ⟨hu, rfl, fun _ _ _ _ hc => by cases hc⟩⟩
    · cases h
      exact ⟨rfl, rfl, .inr ⟨hu, rfl, fun _ _ _ _ hc => by cases hc⟩⟩
    · obtain ⟨result, hv, h⟩ := bind_eq_ok.1 h
      rcases result with e | ⟨b3, b2, b1⟩
      · cases h
        exact ⟨rfl, rfl, .inr ⟨hu, rfl, fun _ _ _ _ hc => by cases hc⟩⟩
      · cases h
        refine ⟨rfl, rfl, .inr ⟨hu, rfl, fun r c3 c2 c1 hc => ?_⟩⟩
        cases hc
        exact ⟨rfl, not_le.1 hl, hv⟩
  · simp only [hu, Bool.not_false, if_true] at h
    cases h
    exact ⟨rfl, rfl, .inl ⟨by simpa using hu, rfl, rfl⟩⟩

theorem step_cases {out : List Certificate} (h : step consensus s x = .ok (t, out)) :
    (receive consensus s x = .ok (t, none) ∧ out = []) ∨
      ∃ u r b3 b2 b1, receive consensus s x = .ok (u, some (r, b3, b2, b1)) ∧
        commitWave consensus u r b3 b2 b1 = (t, out) := by
  obtain ⟨⟨u, chain⟩, hu, h⟩ := bind_eq_ok.1 h
  rcases chain with _ | ⟨r, b3, b2, b1⟩
  · cases h
    exact .inl ⟨hu, rfl⟩
  · exact .inr ⟨u, r, b3, b2, b1, hu, Except.ok.inj h⟩

end Steps

/-! ## Committed rounds -/

section Committed

omit [Crypto] in
theorem lookup_commitRound_le {m : FinMap PublicKey ℕ} {c : Certificate} {n : PublicKey} {q : ℕ}
    (h : m.lookup n = some q) : ∃ q', (State.commitRound m c).lookup n = some q' ∧ q ≤ q' := by
  rw [State.lookup_commitRound]
  split_ifs with hn
  · subst hn
    exact ⟨_, rfl, by rw [h]; exact le_max_right _ _⟩
  · exact ⟨q, h, le_rfl⟩

omit [Crypto] in
theorem lookup_commitRound_self (m : FinMap PublicKey ℕ) (c : Certificate) :
    ∃ q, (State.commitRound m c).lookup c.origin = some q ∧ c.round ≤ q := by
  rw [State.lookup_commitRound, if_pos rfl]
  refine ⟨_, rfl, ?_⟩
  rcases m.lookup c.origin with _ | q
  · exact le_rfl
  · exact le_max_left _ _

omit [Crypto] in
theorem lastCommitted_foldl_update (gcDepth : ℕ) : ∀ (l : List Certificate) (s : State),
    (l.foldl (fun s x => s.update x gcDepth) s).lastCommitted =
      l.foldl State.commitRound s.lastCommitted
  | [], _ => rfl
  | c :: l, s => lastCommitted_foldl_update gcDepth l (s.update c gcDepth)

omit [Crypto] in
/-- The committed rounds only grow. -/
theorem lookup_foldl_commitRound_le : ∀ (l : List Certificate) {m : FinMap PublicKey ℕ}
    {n : PublicKey} {q : ℕ}, m.lookup n = some q →
      ∃ q', (l.foldl State.commitRound m).lookup n = some q' ∧ q ≤ q'
  | [], _, _, q, h => ⟨q, h, le_rfl⟩
  | c :: l, _, _, _, h => by
    obtain ⟨q', h', hle⟩ := lookup_commitRound_le (c := c) h
    obtain ⟨q'', h'', hle'⟩ := lookup_foldl_commitRound_le l h'
    exact ⟨q'', h'', hle.trans hle'⟩

omit [Crypto] in
/-- What has been committed is not above the committed round of its author. -/
theorem lookup_foldl_commitRound_mem {c : Certificate} : ∀ (l : List Certificate)
    (m : FinMap PublicKey ℕ), c ∈ l →
      ∃ q, (l.foldl State.commitRound m).lookup c.origin = some q ∧ c.round ≤ q
  | d :: l, m, hc => by
    rcases List.mem_cons.1 hc with rfl | hc
    · obtain ⟨q, hq, hle⟩ := lookup_commitRound_self m c
      obtain ⟨q', hq', hle'⟩ := lookup_foldl_commitRound_le l hq
      exact ⟨q', hq', hle.trans hle'⟩
    · exact lookup_foldl_commitRound_mem l (State.commitRound m d) hc

end Committed

/-! ## What a wave outputs -/

section Output

variable {consensus : Consensus} {s t : ShortfinState}

/-- The records are kept under their digests. -/
def Keyed (s : ShortfinState) : Prop := ∀ d c, s.records.lookup d = some c → c.digest = d

omit [Crypto] in
theorem lastCommitted_commitWave (consensus : Consensus) (s : ShortfinState) (r : ℕ)
    (b3 b2 b1 : Certificate) [Crypto] :
    (commitWave consensus s r b3 b2 b1).1.state.lastCommitted =
      (commitWave consensus s r b3 b2 b1).2.foldl State.commitRound s.state.lastCommitted :=
  lastCommitted_foldl_update _ _ _

theorem mem_commitWave {r : ℕ} {b3 b2 b1 c : Certificate}
    (h : c ∈ (commitWave consensus s r b3 b2 b1).2) : c ∈ s.records.values ∧ c.round < r ∧
      uncommitted s.state.lastCommitted c = true := by
  have hc := (List.perm_insertionSort _ _).mem_iff.1 h
  exact mem_values_indexOf.1 (List.mem_of_mem_filter hc)

theorem Keyed.nodup_commitWave (h : Keyed s) (consensus : Consensus) (r : ℕ)
    (b3 b2 b1 : Certificate) :
    ((commitWave consensus s r b3 b2 b1).2.map Certificate.digest).Nodup := by
  have hvalues : (s.records.values.map Certificate.digest).Nodup := by
    rw [FinMap.values, List.map_map]
    have hkeys : s.records.entries.map (Certificate.digest ∘ fun e => e.2) = s.records.keys :=
      List.map_congr_left fun e he => h e.1 e.2 (FinMap.ext_lookup_iff.2 he)
    rw [hkeys]
    exact s.records.keys_nodup
  refine (((List.perm_insertionSort _ _).map _).nodup_iff).2 ?_
  refine hvalues.sublist (List.Sublist.map _ (List.filter_sublist.trans ?_))
  exact List.Sublist.map _ List.filter_sublist

theorem Keyed.receive (h : Keyed s) {x : Certificate}
    {chain : Option (ℕ × Certificate × Certificate × Certificate)}
    (hr : Shortfin.receive consensus s x = .ok (t, chain)) : Keyed t := by
  obtain ⟨-, -, ⟨-, hrecords, -⟩ | ⟨-, hrecords, -⟩⟩ := receive_cases hr
  · rwa [Keyed, hrecords]
  · intro d c hc
    rw [hrecords, lookup_insertRecord] at hc
    split_ifs at hc with hd
    · rw [hd, ← Option.some.inj hc]
      rcases hl : s.records.lookup x.digest with _ | stored
      · rfl
      · rcases upgrade_cases stored x with hu | hu
        · rw [Option.elim_some, hu]
          exact h _ _ hl
        · rw [Option.elim_some, hu]
    · exact h d c hc

theorem Keyed.commitWave (h : Keyed s) (consensus : Consensus) (r : ℕ)
    (b3 b2 b1 : Certificate) :
    Keyed (Shortfin.commitWave consensus s r b3 b2 b1).1 := fun d c hc =>
  h d c (FinMap.lookup_retain_eq_some.1 hc).1

theorem Keyed.new (genesis : List Certificate) : Keyed (ShortfinState.new genesis) := by
  intro d c hc
  obtain ⟨g, -, he⟩ := List.mem_map.1 (FinMap.mem_of_lookup_ofList hc)
  cases he
  rfl

theorem Keyed.step (h : Keyed s) {x : Certificate} {out : List Certificate}
    (hs : Shortfin.step consensus s x = .ok (t, out)) : Keyed t := by
  rcases step_cases hs with ⟨hr, -⟩ | ⟨u, r, b3, b2, b1, hr, hw⟩
  · exact h.receive hr
  · have := (h.receive hr).commitWave consensus r b3 b2 b1
    rwa [hw] at this

theorem Keyed.nodup_step (h : Keyed s) {x : Certificate} {out : List Certificate}
    (hs : Shortfin.step consensus s x = .ok (t, out)) : (out.map Certificate.digest).Nodup := by
  rcases step_cases hs with ⟨-, rfl⟩ | ⟨u, r, b3, b2, b1, hr, hw⟩
  · exact List.nodup_nil
  · have := (h.receive hr).nodup_commitWave consensus r b3 b2 b1
    rwa [hw] at this

/-- A step outputs records above the last committed rounds, and these become the rounds of what is
output where they were lower. -/
theorem step_output {x : Certificate} {out : List Certificate}
    (hs : step consensus s x = .ok (t, out)) :
    (∀ c ∈ out, uncommitted s.state.lastCommitted c = true) ∧
      t.state.lastCommitted = out.foldl State.commitRound s.state.lastCommitted := by
  rcases step_cases hs with ⟨hr, rfl⟩ | ⟨u, r, b3, b2, b1, hr, hw⟩
  · exact ⟨by simp, (receive_cases hr).1⟩
  · have hu := (receive_cases hr).1
    have hl := lastCommitted_commitWave consensus u r b3 b2 b1
    rw [hw, hu] at hl
    refine ⟨fun c hc => ?_, hl⟩
    have hc' : c ∈ (commitWave consensus u r b3 b2 b1).2 := by rwa [hw]
    have := (mem_commitWave hc').2.2
    rwa [hu] at this

end Output

/-! ## Records are output once -/

section Once

variable {consensus : Consensus}

/-- What is stored was delivered, and what was output is not above the last committed round of its
author. -/
structure Committed (delivered : List Certificate) (s : ShortfinState) (log : List Certificate) :
    Prop where
  keyed : Keyed s
  records : ∀ c ∈ s.records.values, c ∈ delivered
  output : ∀ c ∈ log, c ∈ delivered
  committed : ∀ c ∈ log, uncommitted s.state.lastCommitted c = false

theorem receive_mem {s t : ShortfinState} {x c : Certificate}
    {chain : Option (ℕ × Certificate × Certificate × Certificate)}
    (hr : receive consensus s x = .ok (t, chain)) (hc : c ∈ t.records.values) :
    c ∈ s.records.values ∨ c = x := by
  obtain ⟨-, -, ⟨-, hrecords, -⟩ | ⟨-, hrecords, -⟩⟩ := receive_cases hr
  · exact .inl (hrecords ▸ hc)
  · obtain ⟨d, hd⟩ := FinMap.mem_values.1 hc
    rw [hrecords, lookup_insertRecord] at hd
    split_ifs at hd with hx
    · rcases hl : s.records.lookup x.digest with _ | stored
      · rw [hl] at hd
        exact .inr (Option.some.inj hd).symm
      · rw [hl, Option.elim_some] at hd
        rcases upgrade_cases stored x with hu | hu
        · rw [hu] at hd
          exact .inl (FinMap.mem_values.2 ⟨x.digest, hl.trans hd⟩)
        · rw [hu] at hd
          exact .inr (Option.some.inj hd).symm
    · exact .inl (FinMap.mem_values.2 ⟨d, hd⟩)

/-- A wave takes its output from the records and keeps no others. -/
theorem step_mem {s t : ShortfinState} {x c : Certificate} {out : List Certificate}
    (hs : step consensus s x = .ok (t, out)) (hc : c ∈ t.records.values ∨ c ∈ out) :
    c ∈ s.records.values ∨ c = x := by
  rcases step_cases hs with ⟨hr, rfl⟩ | ⟨u, r, b3, b2, b1, hr, hw⟩
  · exact receive_mem hr (hc.resolve_right (List.not_mem_nil))
  · refine receive_mem hr (hc.elim (fun hc => ?_) fun hc => ?_)
    · obtain ⟨d, hd⟩ := FinMap.mem_values.1 hc
      have ht : t.records = (commitWave consensus u r b3 b2 b1).1.records := by rw [hw]
      rw [ht] at hd
      exact FinMap.mem_values.2 ⟨d, (FinMap.lookup_retain_eq_some.1 hd).1⟩
    · have hc' : c ∈ (commitWave consensus u r b3 b2 b1).2 := by rwa [hw]
      exact (mem_commitWave hc').1

omit [Crypto] in
theorem uncommitted_eq_false {m : FinMap PublicKey ℕ} {c : Certificate} :
    uncommitted m c = false ↔ ∃ q, m.lookup c.origin = some q ∧ c.round ≤ q := by
  unfold uncommitted
  rcases m.lookup c.origin with _ | q
  · simp
  · simp

theorem Committed.step {delivered log out : List Certificate} {s t : ShortfinState}
    {x : Certificate} (h : Committed delivered s log)
    (hs : Shortfin.step consensus s x = .ok (t, out)) :
    Committed (delivered ++ [x]) t (log ++ out) := by
  obtain ⟨-, hl⟩ := step_output hs
  have hmem : ∀ c, c ∈ s.records.values ∨ c = x → c ∈ delivered ++ [x] := fun c hc =>
    List.mem_append.2 (hc.imp (h.records c) List.mem_singleton.2)
  refine ⟨h.keyed.step hs, fun c hc => hmem c (step_mem hs (.inl hc)), fun c hc => ?_,
    fun c hc => uncommitted_eq_false.2 ?_⟩
  · rcases List.mem_append.1 hc with hc | hc
    · exact List.mem_append_left _ (h.output c hc)
    · exact hmem c (step_mem hs (.inr hc))
  · rw [hl]
    rcases List.mem_append.1 hc with hc | hc
    · obtain ⟨q, hq, hle⟩ := uncommitted_eq_false.1 (h.committed c hc)
      obtain ⟨q', hq', hle'⟩ := lookup_foldl_commitRound_le out hq
      exact ⟨q', hq', hle.trans hle'⟩
    · exact lookup_foldl_commitRound_mem out _ hc

theorem Committed.new : Committed consensus.genesis (ShortfinState.new consensus.genesis) [] where
  keyed := Keyed.new _
  records c hc := by
    obtain ⟨d, hd⟩ := FinMap.mem_values.1 hc
    obtain ⟨g, hg, he⟩ := List.mem_map.1 (FinMap.mem_of_lookup_ofList hd)
    exact (Prod.mk.inj he).2 ▸ hg
  output _ hc := by cases hc
  committed _ hc := by cases hc

/-- No digest is sent twice; what a step sends is above the last committed rounds of its authors,
and these never fall. -/
theorem output_once (xs : List Certificate)
    (hbind : ∀ c ∈ consensus.genesis ++ xs, ∀ c' ∈ consensus.genesis ++ xs,
      c.digest = c'.digest → c.origin = c'.origin ∧ c.round = c'.round) :
    ((run consensus xs).2.map Certificate.digest).Nodup ∧
      ∀ ys x s t out, ys ++ [x] <+: xs → (run consensus ys).1 = some s →
        step consensus s x = .ok (t, out) →
          (∀ c ∈ out, ∀ r, s.state.lastCommitted.lookup c.origin = some r → r < c.round) ∧
            ∀ a r, s.state.lastCommitted.lookup a = some r →
              ∃ r', t.state.lastCommitted.lookup a = some r' ∧ r ≤ r' := by
  constructor
  · obtain ⟨ys, s, hys, hs, hlog⟩ := exists_running
      (fun s x => (step consensus s x).toOption) (ShortfinState.new consensus.genesis) xs
    rw [run, ← hlog]
    refine (run_induction _ (P := fun ys s log => Committed (consensus.genesis ++ ys) s log ∧
      (log.map Certificate.digest).Nodup) ⟨?_, List.nodup_nil⟩ ys ?_ s hs).2
    · rw [List.append_nil]
      exact Committed.new
    · rintro zs x s t out hzs - ⟨h, hnodup⟩ hstep
      set log := (PrefixLog.run (fun s x => (step consensus s x).toOption)
        (ShortfinState.new consensus.genesis) zs).2
      have hstep := toOption_eq_some.1 hstep
      have hout := (step_output hstep).1
      have ht := h.step hstep
      rw [← List.append_assoc]
      refine ⟨ht, ?_⟩
      rw [List.map_append]
      refine List.Nodup.append hnodup (h.keyed.nodup_step hstep) ?_
      rintro d hd hd'
      obtain ⟨c, hc, rfl⟩ := List.mem_map.1 hd
      obtain ⟨c', hc', heq⟩ := List.mem_map.1 hd'
      have hsub : ∀ e ∈ log ++ out, e ∈ consensus.genesis ++ xs := fun e he => by
        have he := ht.output e he
        rw [List.append_assoc] at he
        exact ((List.prefix_append_right_inj _).2 (hzs.trans hys)).subset he
      obtain ⟨ho, hr⟩ := hbind c' (hsub c' (List.mem_append_right _ hc')) c
        (hsub c (List.mem_append_left _ hc)) heq
      have hc' := hout c' hc'
      rw [uncommitted, ho, hr] at hc'
      exact Bool.false_ne_true ((h.committed c hc).symm.trans hc')
  · rintro ys x s t out - - hstep
    obtain ⟨hout, hl⟩ := step_output hstep
    refine ⟨fun c hc r hr => ?_, fun a r ha => ?_⟩
    · simpa [uncommitted, hr] using hout c hc
    · rw [hl]
      exact lookup_foldl_commitRound_le out ha

end Once

end Shortfin

/-! ## A wave -/

namespace Shortfin

/-- The record with the votes of three authors. -/
def certify [Crypto] (c : Certificate) : Certificate :=
  { c with votes := [0, 1, 2].map fun a => Vote.new c.header c.round a }

/-- A record of an author on parents by their authors; it embeds the QC of its predecessor. -/
def record [Crypto] (known : List Certificate) (round author : ℕ) (parents : List ℕ) :
    Certificate :=
  let qc := (known.find? fun p =>
    decide (p.round + 1 = round ∧ p.origin.val.val = author ∧ 0 < p.round)).map fun p =>
      ({ target := p.header.id, round := p.round, votes := (certify p).votes } : EmbeddedQc)
  let header : Header :=
    { author := ⟨Fin.ofNat _ author⟩, round, qc
      parents := SortedSet.ofList ((known.filter fun p =>
        decide (p.round + 1 = round ∧ p.origin.val.val ∈ parents)).map Certificate.digest) }
  { header := { header with id := header.digest } }

/-- The genesis certificates and then one record for each row of round, author and parents. -/
def ofTable [Crypto] (committee : Committee) (rows : List (ℕ × ℕ × List ℕ)) : List Certificate :=
  rows.foldl (fun known row => known ++ [record known row.1 row.2.1 row.2.2])
    (Certificate.genesis committee)

/-- One of four authorities under the round-robin schedule. -/
def fourNodes (name : PublicKey) : Consensus where
  committee := Committee.uniform 4
  gcDepth := 50
  dagProtocol := .shortfin
  consensusProtocol := .roundRobin
  name := name
  coinCommittee := ⟨[0, 1, 2, 3], CoinCommittee.four_ne_nil⟩
  thresholdCoin := none

/-- Every record references every record of the round before. -/
def fullDag : List Certificate :=
  letI := toyCrypto
  ofTable (Committee.uniform 4) <| (List.range 4).flatMap fun r =>
    (List.range 4).map fun a => (r + 1, a, [0, 1, 2, 3])

/-- The records of three rounds, and then again with their votes. -/
def lowerRecords : List Certificate :=
  letI := toyCrypto
  (fullDag.drop 4).take 12 ++ ((fullDag.drop 4).take 12).map certify

/-- A wave of eleven records. -/
theorem output_once_fullDag :
    letI := toyCrypto
    let xs := lowerRecords ++ (fullDag.drop 16).take 3
    (run (fourNodes 0) xs).2.length = 11 ∧
      ((run (fourNodes 0) xs).2.map Certificate.digest).Nodup := by
  let _ := toyCrypto
  let xs := lowerRecords ++ (fullDag.drop 16).take 3
  have h : (run (fourNodes 0) xs).2.length = 11 ∧
      ∀ c ∈ (fourNodes 0).genesis ++ xs, ∀ c' ∈ (fourNodes 0).genesis ++ xs,
        c.digest = c'.digest → c.origin = c'.origin ∧ c.round = c'.round := by decide +kernel
  exact ⟨h.1, (output_once xs h.2).1⟩

end Shortfin

end NovelDag
