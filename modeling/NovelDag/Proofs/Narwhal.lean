import NovelDag.Narwhal
import NovelDag.Lib.LeaderChain
import NovelDag.Proofs.ConsensusState

/-!
# Agreement of Narwhal consensus

Two nodes receive certificates of one certified DAG. A leader with support among its children is
linked to every later leader, so both nodes commit the same chain of leaders, one further than the
other. What a leader emits depends on the sequence before it and on the certificates of its history
that the clean-up has left in the DAG. As long as no certificate the DAG references arrives after
the clean-up has passed its round, those are the same at both nodes, and the sequences agree.

A certificate that arrives later is in the DAG of the one node and not of the other. `order_dag`
skips only the certificate at the last committed round of its author, so the first node emits it.
-/

namespace NovelDag

namespace Narwhal

open PrefixLog LeaderChain FinMap

variable [Crypto]

/-! ## Certified DAGs and deliveries -/

section Setting

/-- One certificate for a round and an author and for a digest; above round zero, references to
certificates of the round before with the stake of a quorum. -/
structure CertifiedDag (committee : Committee) (V : Set Certificate) : Prop where
  genesis : ∀ c ∈ Certificate.genesis committee, c ∈ V
  slot : ∀ c ∈ V, ∀ d ∈ V, c.round = d.round → c.origin = d.origin → c = d
  digest : ∀ c ∈ V, ∀ d ∈ V, c.digest = d.digest → c = d
  quorum : ∀ c ∈ V, 0 < c.round → ∃ S : Finset PublicKey,
    committee.quorumThreshold ≤ Weighted.weight committee.stake S ∧
      ∀ a ∈ S, ∃ p ∈ V, p.origin = a ∧ p.round + 1 = c.round ∧ p.digest ∈ c.header.parents

/-- The certificates a node has after it received `ys`. -/
def Received (committee : Committee) (ys : List Certificate) (c : Certificate) : Prop :=
  c ∈ Certificate.genesis committee ∨ c ∈ ys

/-- Certificates of the DAG, each at most once, parents before children. -/
structure Delivery (committee : Committee) (V : Set Certificate) (xs : List Certificate) :
    Prop where
  mem : ∀ c ∈ xs, c ∈ V
  once : xs.Nodup
  causal : ∀ ys x, ys ++ [x] <+: xs → ∀ d ∈ x.header.parents,
    ∃ p, Received committee ys p ∧ p.digest = d

/-- No certificate arrives that the clean-up would have dropped by then, except such that no
certificate of the DAG references. -/
def Timely (consensus : Consensus) (V : Set Certificate) (xs : List Certificate) : Prop :=
  ∀ (ys : List Certificate) (x : Certificate) (s : State), ys ++ [x] <+: xs →
    (run consensus ys).1 = some s →
      s.keeps consensus.gcDepth x.round x.origin = true ∨ ∀ c ∈ V, x.digest ∉ c.header.parents

/-- The leader of a round under the round-robin schedule. -/
def slotLeader (consensus : Consensus) (r : ℕ) : PublicKey :=
  consensus.coinCommittee.leader ((r - 2) / 2) 0

/-- The certificate of the leader of an even round. -/
def IsLeader (consensus : Consensus) (V : Set Certificate) (r : ℕ) (p : Certificate) : Prop :=
  p ∈ V ∧ p.round = r ∧ p.origin = slotLeader consensus r ∧ 2 ∣ r ∧ 2 ≤ r

/-- `d` is a parent of `c` one round below. -/
def Edge (V : Set Certificate) (c d : Certificate) : Prop :=
  d ∈ V ∧ d.round + 1 = c.round ∧ d.digest ∈ c.header.parents

/-- A path of parents, one round down at each step. -/
abbrev Path (V : Set Certificate) : Certificate → Certificate → Prop :=
  Relation.ReflTransGen (Edge V)

variable {committee : Committee} {V : Set Certificate} {xs ys : List Certificate}

omit [Crypto] in
theorem Received.mono {c : Certificate} (h : Received committee ys c) (hp : ys <+: xs) :
    Received committee xs c := h.imp_right fun h => hp.subset h

theorem Received.mem (hV : CertifiedDag committee V) (hd : Delivery committee V xs)
    {c : Certificate} (h : Received committee xs c) : c ∈ V := h.elim (hV.genesis c) (hd.mem c)

theorem Delivery.initial (hd : Delivery committee V xs) (h : ys <+: xs) :
    Delivery committee V ys where
  mem c hc := hd.mem c (h.subset hc)
  once := hd.once.sublist h.sublist
  causal zs x hz := hd.causal zs x (hz.trans h)

/-- A node has every parent of what it has. -/
theorem Received.parent (hV : CertifiedDag committee V) (hd : Delivery committee V xs)
    {c p : Certificate} (h : Received committee xs c) (hp : p ∈ V)
    (hm : p.digest ∈ c.header.parents) : Received committee xs p := by
  rcases h with h | h
  · rw [(Certificate.genesis_parents h).1] at hm
    exact absurd hm (SortedSet.notMem_empty _)
  · obtain ⟨ys, zs, rfl⟩ := List.append_of_mem h
    have hpre : ys ++ [c] <+: ys ++ c :: zs := ⟨zs, by simp⟩
    obtain ⟨q, hq, hqd⟩ := hd.causal ys c hpre _ hm
    have hys : ys <+: ys ++ c :: zs := List.prefix_append _ _
    obtain rfl := hV.digest _ (hq.mono hys |>.mem hV hd) _ hp hqd
    exact hq.mono hys

theorem Received.path (hV : CertifiedDag committee V) (hd : Delivery committee V xs)
    {c p : Certificate} (h : Received committee xs c) (hp : Path V c p) :
    Received committee xs p := by
  induction hp with
  | refl => exact h
  | tail _ he ih => exact ih.parent hV hd he.1 he.2.2

omit [Crypto] in
theorem slot_unique {consensus : Consensus}
    (hslot : ∀ c ∈ V, ∀ d ∈ V, c.round = d.round → c.origin = d.origin → c = d) (r : ℕ)
    (p q : Certificate) (hp : IsLeader consensus V r p) (hq : IsLeader consensus V r q) : p = q :=
  hslot p hp.1 q hq.1 (hp.2.1.trans hq.2.1.symm) (hp.2.2.1.trans hq.2.2.1.symm)

theorem Path.round_le {c p : Certificate} (h : Path V c p) : p.round ≤ c.round := by
  induction h with
  | refl => exact le_rfl
  | tail _ he ih => have := he.2.1; omega

end Setting

/-! ## Supported leaders -/

section Support

variable {committee : Committee} {V : Set Certificate}

/-- Certificates of the next round from authors of the validity threshold reference the leader. -/
def Supported (committee : Committee) (V : Set Certificate) (c : Certificate) : Prop :=
  ∃ S : Finset PublicKey, committee.validityThreshold ≤ Weighted.weight committee.stake S ∧
    ∀ a ∈ S, ∃ q ∈ V, q.origin = a ∧ q.round = c.round + 1 ∧ c.digest ∈ q.header.parents

/-- Every certificate two or more rounds above a supported leader has a path to it: a quorum of its
parents' round meets the supporters, or lies above them itself. -/
theorem Supported.path (hV : CertifiedDag committee V) {c : Certificate} (hc : c ∈ V)
    (hs : Supported committee V c) :
    ∀ (n : ℕ) (d : Certificate), d ∈ V → d.round = c.round + 2 + n → Path V d c
  | 0, d, hd, hr => by
    obtain ⟨T, hT, hsup⟩ := hs
    obtain ⟨S, hS, hpar⟩ := hV.quorum d hd (by omega)
    obtain ⟨a, haS, haT⟩ := committee.quorum_inter_validity hS hT
    obtain ⟨p, hp, hpa, hpr, hpd⟩ := hpar a haS
    obtain ⟨q, hq, hqa, hqr, hqd⟩ := hsup a haT
    obtain rfl := hV.slot p hp q hq (by omega) (hpa.trans hqa.symm)
    exact .head ⟨hp, hpr, hpd⟩ (.single ⟨hc, by omega, hqd⟩)
  | n + 1, d, hd, hr => by
    obtain ⟨S, hS, hpar⟩ := hV.quorum d hd (by omega)
    obtain ⟨a, ha⟩ := Weighted.nonempty_of_pos committee.stake
      (committee.quorumThreshold_pos.trans_le hS)
    obtain ⟨p, hp, -, hpr, hpd⟩ := hpar a ha
    exact .head ⟨hp, hpr, hpd⟩ (hs.path hV hc n p hp (by omega))

/-- A supported leader of an even round is linked to every later leader. -/
theorem Supported.fixed (hV : CertifiedDag committee V) {consensus : Consensus} {c : Certificate}
    (hc : c ∈ V) (heven : 2 ∣ c.round) (hs : Supported committee V c) :
    Fixed (Path V) (IsLeader consensus V) Certificate.round c := fun r p hp hlt => by
  obtain ⟨hpV, hpr, -, hpe, -⟩ := hp
  exact hs.path hV hc (p.round - (c.round + 2)) p hpV (by omega)

end Support

/-! ## The DAG in memory -/

section Memory

variable (consensus : Consensus) (V : Set Certificate)

/-- Some certificate of the DAG references `c`. -/
def Referenced (c : Certificate) : Prop := ∃ x ∈ V, c.digest ∈ x.header.parents

/-- What the state holds once `ys` have been received and `out` has been emitted. -/
structure Inv (ys : List Certificate) (s : State) (out : List Certificate) : Prop where
  coherent : s.Coherent
  committed : s.lastCommitted =
    out.foldl State.commitRound (State.new consensus.genesis).lastCommitted
  sound : ∀ r n e, s.get r n = some e →
    e.1 = e.2.digest ∧ e.2.round = r ∧ e.2.origin = n ∧ Received consensus.committee ys e.2
  present : ∀ c, Received consensus.committee ys c →
    (Referenced V c ∨ s.lastCommittedRound < c.round) →
    s.keeps consensus.gcDepth c.round c.origin = true →
    s.get c.round c.origin = some (c.digest, c)
  gone : ∀ r n e, s.get r n = some e → Referenced V e.2 → s.keeps consensus.gcDepth r n = true

variable {consensus V} {xs ys : List Certificate} {s : State} {out : List Certificate}
  {c x : Certificate}

theorem inv_new : Inv consensus V [] (State.new consensus.genesis) [] where
  coherent := State.coherent_new
  committed := rfl
  sound r n e h := by
    obtain ⟨rfl, hd, hg, rfl⟩ := State.get_new.1 h
    exact ⟨hd, (Certificate.genesis_parents hg).2, rfl, .inl hg⟩
  present c hc _ _ := by
    have hg : c ∈ consensus.genesis := hc.resolve_right List.not_mem_nil
    rw [(Certificate.genesis_parents hg).2]
    exact State.get_new.2 ⟨rfl, rfl, hg, rfl⟩
  gone r n e h _ := by
    obtain ⟨rfl, -, -, rfl⟩ := State.get_new.1 h
    exact State.keeps_iff.2 ⟨fun q hq => (State.lookup_lastCommitted_new hq).le, Nat.zero_le _⟩

/-- A certificate that the clean-up would still keep, or that nothing references, is received. -/
theorem Inv.insert (hV : CertifiedDag consensus.committee V)
    (hd : Delivery consensus.committee V (ys ++ [x])) (h : Inv consensus V ys s out)
    (ht : s.keeps consensus.gcDepth x.round x.origin = true ∨ ∀ c ∈ V, x.digest ∉ c.header.parents) :
    Inv consensus V (ys ++ [x]) (s.insertCertificate x) out where
  coherent := h.coherent
  committed := h.committed
  sound r n e he := by
    rw [State.get_insertCertificate] at he
    split_ifs at he with hx
    · obtain rfl := Option.some.inj he
      exact ⟨rfl, hx.1.symm, hx.2.symm, .inr (by simp)⟩
    · obtain ⟨h₁, h₂, h₃, h₄⟩ := h.sound r n e he
      exact ⟨h₁, h₂, h₃, h₄.mono (List.prefix_append _ _)⟩
  present c hc hr hk := by
    rw [State.get_insertCertificate]
    split_ifs with hx
    · rw [hV.slot c (hc.mem hV hd) x (hd.mem x (by simp)) hx.1 hx.2]
    · refine h.present c (hc.imp_right fun hc => ?_) hr hk
      rcases List.mem_append.1 hc with hc | hc
      · exact hc
      · rw [List.mem_singleton.1 hc] at hx
        exact absurd ⟨rfl, rfl⟩ hx
  gone r n e he hr := by
    rw [State.get_insertCertificate] at he
    split_ifs at he with hx
    · obtain rfl := Option.some.inj he
      obtain ⟨y, hy, hxy⟩ := hr
      rw [hx.1, hx.2]
      exact ht.resolve_right fun hno => hno y hy hxy
    · exact h.gone r n e he hr

/-- A certificate is emitted and the clean-up runs. -/
theorem Inv.update (h : Inv consensus V ys s out) (c : Certificate) :
    Inv consensus V ys (s.update c consensus.gcDepth) (out ++ [c]) where
  coherent := State.coherent_update
  committed := by rw [State.lastCommitted_update, h.committed, List.foldl_append]; rfl
  sound r n e he := by
    rw [State.get_update] at he
    exact h.sound r n e (Option.filter_eq_some_iff.1 he).1
  present d hd hr hk := by
    rw [State.get_update, h.present d hd ?_ (State.keeps_of_keeps_update h.coherent hk)]
    · exact Option.filter_eq_some_iff.2 ⟨rfl, hk⟩
    · refine hr.imp_right fun hr => lt_of_le_of_lt ?_ hr
      rw [State.lastCommittedRound_update h.coherent]
      exact le_max_right _ _
  gone r n e he _ := by
    rw [State.get_update] at he
    exact (Option.filter_eq_some_iff.1 he).2

theorem Inv.foldl_update (h : Inv consensus V ys s out) : ∀ l : List Certificate,
    Inv consensus V ys (l.foldl (fun s x => s.update x consensus.gcDepth) s) (out ++ l) := by
  intro l
  induction l generalizing s out with
  | nil => simpa using h
  | cons c l ih => simpa using ih (h.update c)

/-- The clean-up at two nodes that have emitted the same certificates. -/
theorem Inv.keeps_eq {ys' : List Certificate} {s' : State} (h : Inv consensus V ys s out)
    (h' : Inv consensus V ys' s' out) : s.lastCommitted = s'.lastCommitted ∧
      ∀ r n, s.keeps consensus.gcDepth r n = s'.keeps consensus.gcDepth r n := by
  have hl : s.lastCommitted = s'.lastCommitted := h.committed.trans h'.committed.symm
  have hr : s.lastCommittedRound = s'.lastCommittedRound := by
    rw [h.coherent, h'.coherent, hl]
  exact ⟨hl, fun r n => by rw [State.keeps, State.keeps, hl, hr]⟩

end Memory

/-! ## What a leader emits -/

section Emission

variable {consensus : Consensus} {V : Set Certificate} {ys ys' : List Certificate} {s s' : State}
  {out : List Certificate} {x leader : Certificate}

/-- All entries of a DAG. -/
def entries (dag : Dag) : List (Digest × Certificate) := dag.values.flatMap FinMap.values

omit [Crypto] in
theorem mem_entries {s : State} {e : Digest × Certificate} :
    e ∈ entries s.dag ↔ ∃ r n, s.get r n = some e := by
  unfold entries State.get
  simp only [List.mem_flatMap, mem_values, Option.bind_eq_some_iff]
  exact ⟨fun ⟨m, ⟨r, hr⟩, n, hn⟩ => ⟨r, n, m, hr, hn⟩, fun ⟨r, n, m, hr, hn⟩ => ⟨m, ⟨r, hr⟩, n, hn⟩⟩

omit [Crypto] in
theorem length_entries (dag : Dag) : (entries dag).length = dagSize dag := by
  simp [entries, dagSize, List.length_flatMap, FinMap.values]

/-- The lookup of a parent by its digest finds the entry with that digest, if there is one. -/
theorem Inv.find_eq_some (hV : CertifiedDag consensus.committee V)
    (hd : Delivery consensus.committee V ys) (h : Inv consensus V ys s out) {r : ℕ} {d : Digest}
    {e : Digest × Certificate} :
    ((s.dag.lookup r).bind fun authorities =>
      authorities.values.find? fun e => decide (e.1 = d)) = some e ↔
        e.1 = d ∧ ∃ n, s.get r n = some e := by
  unfold State.get
  rcases hl : s.dag.lookup r with _ | m
  · simp
  simp only [Option.bind_some]
  constructor
  · intro hf
    obtain ⟨n, hn⟩ := mem_values.1 (List.mem_of_find?_eq_some hf)
    exact ⟨by simpa using List.find?_some hf, n, hn⟩
  · rintro ⟨he, n, hn⟩
    have hget : ∀ {n e}, m.lookup n = some e → s.get r n = some e := fun h => by
      rw [State.get, hl, Option.bind_some, h]
    rcases hf : m.values.find? fun e => decide (e.1 = d) with _ | e'
    · have := List.find?_eq_none.1 hf e (mem_values.2 ⟨n, hn⟩)
      simp [he] at this
    · have he' : e'.1 = d := by simpa using List.find?_some hf
      obtain ⟨n', hn'⟩ := mem_values.1 (List.mem_of_find?_eq_some hf)
      obtain ⟨h₁, -, -, h₂⟩ := h.sound r n e (hget hn)
      obtain ⟨h₁', -, -, h₂'⟩ := h.sound r n' e' (hget hn')
      have hc : e'.2 = e.2 := hV.digest _ (h₂'.mem hV hd) _ (h₂.mem hV hd)
        (by rw [← h₁, ← h₁', he, he'])
      exact hf.trans (congrArg some (Prod.ext (he'.trans he.symm) hc))

/-- What `order_dag` pushes for a certificate the node has. -/
theorem Inv.mem_next (hV : CertifiedDag consensus.committee V)
    (hd : Delivery consensus.committee V ys) (h : Inv consensus V ys s out)
    {e : Digest × Certificate} (he : e ∈ orderDagNext s x) : e ∈ entries s.dag ∧
      e.2.round + 1 = x.round ∧ Received consensus.committee ys e.2 := by
  unfold orderDagNext at he
  split at he
  · simp at he
  · rename_i r hr
    obtain ⟨d, -, hf⟩ := List.mem_filterMap.1 he
    obtain ⟨-, n, hn⟩ := (h.find_eq_some hV hd).1 (Option.filter_eq_some_iff.1 hf).1
    obtain ⟨-, hround, -, hrec⟩ := h.sound r n e hn
    exact ⟨mem_entries.2 ⟨r, n, hn⟩, by rw [hround, hr], hrec⟩

/-- Two nodes that have emitted the same look up the same parents of a certificate both have. -/
theorem Inv.next_eq (hV : CertifiedDag consensus.committee V)
    (hd : Delivery consensus.committee V ys) (hd' : Delivery consensus.committee V ys')
    (h : Inv consensus V ys s out) (h' : Inv consensus V ys' s' out)
    (hx : Received consensus.committee ys x) (hx' : Received consensus.committee ys' x) :
    orderDagNext s x = orderDagNext s' x := by
  -- an entry of the one node that `x` references is an entry of the other
  have key : ∀ {ys ys' : List Certificate} {s s' : State}, Delivery consensus.committee V ys →
      Delivery consensus.committee V ys' → Inv consensus V ys s out → Inv consensus V ys' s' out →
      Received consensus.committee ys x → Received consensus.committee ys' x →
      ∀ {r n e}, e.1 ∈ x.header.parents → s.get r n = some e → s'.get r n = some e := by
    intro ys ys' s s' hd hd' h h' hx hx' r n e hm he
    obtain ⟨h₁, h₂, h₃, h₄⟩ := h.sound r n e he
    rw [h₁] at hm
    have hV' := h₄.mem hV hd
    have hkeep := h.gone r n e he ⟨x, hx.mem hV hd, hm⟩
    have := h'.present e.2 (hx'.parent hV hd' hV' hm) (.inl ⟨x, hx.mem hV hd, hm⟩)
      (by rw [h₂, h₃, ← (h.keeps_eq h').2, hkeep])
    rw [h₂, h₃] at this
    rw [this, ← h₁]
  unfold orderDagNext
  split
  · rfl
  · rename_i r hr
    refine List.filterMap_congr fun d hm => ?_
    rw [(h.keeps_eq h').1]
    refine congrArg (Option.filter _) (Option.ext fun e => ?_)
    rw [h.find_eq_some hV hd, h'.find_eq_some hV hd']
    refine and_congr_right fun hed => exists_congr fun n => ⟨fun he => ?_, fun he => ?_⟩
    · exact key hd hd' h h' hx hx' (hed ▸ hm) he
    · exact key hd' hd h' h hx' hx (hed ▸ hm) he

/-- Two nodes that have emitted the same emit the same for a leader both have. -/
theorem Inv.orderDag_eq (hV : CertifiedDag consensus.committee V)
    (hd : Delivery consensus.committee V ys) (hd' : Delivery consensus.committee V ys')
    (h : Inv consensus V ys s out) (h' : Inv consensus V ys' s' out)
    (hl : Received consensus.committee ys leader) (hl' : Received consensus.committee ys' leader) :
    orderDag leader s = orderDag leader s' := by
  have hfuel : ∀ s : State, Worklist.measure ((entries s.dag).map Prod.fst).toFinset [leader] [] ≤
      dagSize s.dag + 1 := fun s => by
    have := List.toFinset_card_le ((entries s.dag).map Prod.fst)
    rw [List.length_map, length_entries] at this
    simp only [Worklist.measure, List.length_singleton, List.toFinset_nil, Finset.sdiff_empty]
    omega
  have hK : ∀ {ys s}, Delivery consensus.committee V ys → Inv consensus V ys s out → ∀ x,
      ∀ e ∈ orderDagNext s x, e.1 ∈ ((entries s.dag).map Prod.fst).toFinset :=
    fun hd h x e he => List.mem_toFinset.2 (List.mem_map_of_mem (h.mem_next hV hd he).1)
  refine congrArg (List.insertionSort _) (Worklist.dfs_congr
    (P := fun x => Received consensus.committee ys x ∧ Received consensus.committee ys' x)
    ?_ (fun x hx => h.next_eq hV hd hd' h' hx.1 hx.2) (fun x _ => hK hd h x) ?_ _ _ ?_
    (hfuel s) (hfuel s'))
  · intro x hx e he
    have he' := he
    rw [h.next_eq hV hd hd' h' hx.1 hx.2] at he'
    exact ⟨(h.mem_next hV hd he).2.2, (h'.mem_next hV hd' he').2.2⟩
  · intro x hx e he
    rw [h.next_eq hV hd hd' h' hx.1 hx.2] at he
    exact hK hd' h' x e he
  · simpa using ⟨hl, hl'⟩

/-- A leader emits itself and certificates of lower rounds. -/
theorem Inv.mem_orderDag (hV : CertifiedDag consensus.committee V)
    (hd : Delivery consensus.committee V ys) (h : Inv consensus V ys s out) :
    leader ∈ orderDag leader s ∧ ∀ x ∈ orderDag leader s, x.round ≤ leader.round := by
  unfold orderDag
  refine ⟨(List.mem_insertionSort _).2 List.mem_cons_self, fun x hx => ?_⟩
  refine Worklist.forall_mem_dfs (P := fun x => x.round ≤ leader.round) ?_ _ ?_ x
    ((List.mem_insertionSort _).1 hx)
  · intro x hx e he
    have := (h.mem_next hV hd he).2.1
    omega
  · simp

end Emission

/-! ## Past leaders -/

section Past

variable {consensus : Consensus} {V : Set Certificate} {ys : List Certificate} {s : State}
  {out : List Certificate}

theorem Inv.mem_linkedStep (h : Inv consensus V ys s out) {r : ℕ}
    {ps qs : List Certificate} (hstep : linkedStep s.dag ps r = .ok qs) (q : Certificate) :
    q ∈ qs ↔ s.get r q.origin = some (q.digest, q) ∧ ∃ x ∈ ps, q.digest ∈ x.header.parents := by
  unfold linkedStep at hstep
  unfold State.get
  rcases hl : s.dag.lookup r with _ | m
  · simp [hl] at hstep
  rw [hl] at hstep
  obtain rfl := Except.ok.inj hstep
  simp only [List.mem_map, List.mem_filter, List.any_eq_true, decide_eq_true_eq, mem_values,
    Option.bind_some]
  constructor
  · rintro ⟨e, ⟨⟨n, hn⟩, hx⟩, rfl⟩
    obtain ⟨h₁, -, rfl, -⟩ := h.sound r n e (by rw [State.get, hl, Option.bind_some, hn])
    rw [← h₁]
    exact ⟨hn, hx⟩
  · rintro ⟨hn, hx⟩
    exact ⟨_, ⟨⟨_, hn⟩, hx⟩, rfl⟩

/-- After `k` rounds `linked` holds the certificates `k` rounds below that have a path. -/
theorem Inv.mem_linked (hV : CertifiedDag consensus.committee V)
    (hd : Delivery consensus.committee V ys) (h : Inv consensus V ys s out) {c : Certificate}
    (hc : Received consensus.committee ys c) : ∀ (k : ℕ) {qs : List Certificate},
    s.lastCommittedRound + k < c.round →
    (List.range' (c.round - k) k).reverse.foldlM (linkedStep s.dag) [c] = .ok qs →
      ∀ q, q ∈ qs ↔ Path V c q ∧ q.round + k = c.round
  | 0, qs, _, hf, q => by
    obtain rfl : [c] = qs := Except.ok.inj hf
    rw [List.mem_singleton]
    constructor
    · rintro rfl
      exact ⟨.refl, rfl⟩
    · rintro ⟨hp, hr⟩
      rcases hp.cases_head with rfl | ⟨d, he, hp⟩
      · rfl
      · have := Path.round_le hp
        have := he.2.1
        omega
  | k + 1, qs, hk, hf, q => by
    have hrange : List.range' (c.round - (k + 1)) (k + 1) =
        (c.round - (k + 1)) :: List.range' (c.round - k) k := by
      rw [List.range'_succ]
      congr 2
      omega
    rw [hrange, List.reverse_cons, List.foldlM_append, Fallible.bind_eq_ok] at hf
    obtain ⟨ps, hps, hf⟩ := hf
    have ih := h.mem_linked hV hd hc k (by omega) hps
    rw [List.foldlM_cons, Fallible.bind_eq_ok] at hf
    obtain ⟨qs', hstep, hf⟩ := hf
    obtain rfl : qs' = qs := Except.ok.inj hf
    rw [h.mem_linkedStep hstep]
    constructor
    · rintro ⟨hget, x, hx, hm⟩
      obtain ⟨hp, hr⟩ := (ih x).1 hx
      obtain ⟨-, hround, -, hrec⟩ := h.sound _ _ _ hget
      exact ⟨hp.tail ⟨hrec.mem hV hd, by simp only at hround; omega, hm⟩, by
        simp only at hround; omega⟩
    · rintro ⟨hp, hr⟩
      rcases hp.cases_tail with rfl | ⟨x, hx, he⟩
      · omega
      have hq : Received consensus.committee ys q := hc.path hV hd hp
      have hlt : s.lastCommittedRound < q.round := by omega
      have hget := h.present q hq (.inr hlt) (State.keeps_of_lt h.coherent hlt.le _)
      have hround : q.round = c.round - (k + 1) := by omega
      rw [← hround]
      exact ⟨hget, x, (ih x).2 ⟨hx, by have := he.2.1; omega⟩, he.2.2⟩

/-- `linked` decides whether there is a path, for a past leader that is not yet committed. -/
theorem Inv.linked_iff (hV : CertifiedDag consensus.committee V)
    (hd : Delivery consensus.committee V ys) (h : Inv consensus V ys s out) {c p : Certificate}
    (hc : Received consensus.committee ys c) (hp : p ∈ V) (hle : p.round ≤ c.round)
    (hlt : s.lastCommittedRound < p.round) {b : Bool} (hb : linked c p s.dag = .ok b) :
    b = true ↔ Path V c p := by
  unfold linked at hb
  rw [Fallible.bind_eq_ok] at hb
  obtain ⟨ps, hps, hb⟩ := hb
  obtain rfl : (ps.any fun x => x.partialEq p) = b := Except.ok.inj hb
  have hk : p.round = c.round - (c.round - p.round) := by omega
  rw [hk, show c.round - (c.round - (c.round - p.round)) = c.round - p.round by omega] at hps
  have hmem := h.mem_linked hV hd hc (c.round - p.round) (by omega) hps
  simp only [List.any_eq_true, Certificate.partialEq, decide_eq_true_eq]
  constructor
  · rintro ⟨x, hx, -, hr, ho⟩
    have hpath := ((hmem x).1 hx).1
    rwa [← hV.slot x ((hc.path hV hd hpath).mem hV hd) p hp hr ho]
  · intro hpath
    exact ⟨p, (hmem p).2 ⟨hpath, by omega⟩, rfl, rfl, rfl⟩

theorem leader_eq (hdp : consensus.dagProtocol = .narwhal)
    (hcp : consensus.consensusProtocol = .roundRobin) {r k : ℕ} (hr : 2 ≤ r) :
    consensus.leader r k s.dag = .ok (s.get r (slotLeader consensus r)) := by
  unfold Consensus.leader State.get
  rcases s.dag.lookup r with _ | m
  · rfl
  · simp only [Consensus.leaderAuthority, Consensus.roundRobinCoin, hcp, hdp, roundRobinSlot,
      if_neg (Nat.not_lt.2 hr), slotLeader, if_neg (two_ne_zero), Option.bind_some]
    rfl

/-- `order_leaders` follows the chain of leaders down the given rounds. -/
theorem Inv.pastLeaders (hV : CertifiedDag consensus.committee V)
    (hdp : consensus.dagProtocol = .narwhal) (hcp : consensus.consensusProtocol = .roundRobin)
    (hd : Delivery consensus.committee V ys) (h : Inv consensus V ys s out) :
    ∀ {rounds : List ℕ} {c : Certificate} {l : List Certificate},
      Received consensus.committee ys c → (c.round :: rounds).Pairwise (· > ·) →
      (∀ r ∈ rounds, s.lastCommittedRound < r ∧ 2 ≤ r ∧ 2 ∣ r) →
      pastLeaders consensus s.dag c rounds = .ok l →
        Past (Path V) (IsLeader consensus V) c rounds l ∧
          ∀ p ∈ l, Received consensus.committee ys p ∧ p.round < c.round
  | [], c, l, _, _, _, hl => by
    obtain rfl : [] = l := Except.ok.inj hl
    exact ⟨.nil c, by simp⟩
  | r :: rounds, c, l, hc, hpw, hr, hl => by
    obtain ⟨hcr, hpw'⟩ := List.pairwise_cons.1 hpw
    obtain ⟨hlt, h2, heven⟩ := hr r List.mem_cons_self
    have hr' := fun q hq => hr q (List.mem_cons_of_mem _ hq)
    have hskip : (c.round :: rounds).Pairwise (· > ·) :=
      List.pairwise_cons.2 ⟨fun q hq => hcr q (List.mem_cons_of_mem _ hq),
        (List.pairwise_cons.1 hpw').2⟩
    rw [Narwhal.pastLeaders, leader_eq hdp hcp h2, Fallible.bind_eq_ok] at hl
    obtain ⟨e, he, hl⟩ := hl
    obtain rfl := Except.ok.inj he
    -- a leader with a path from `c` has been received, and is in the DAG above the last commit
    have hfind : ∀ p, IsLeader consensus V r p → Path V c p →
        s.get r (slotLeader consensus r) = some (p.digest, p) := by
      rintro p ⟨hp, hpr, hpo, -⟩ hpath
      rw [← hpo, ← hpr]
      have hltp : s.lastCommittedRound < p.round := by omega
      exact h.present p (hc.path hV hd hpath) (.inr hltp)
        (State.keeps_of_lt h.coherent hltp.le _)
    split at hl
    · rename_i hnone
      obtain ⟨hpast, hrec⟩ := h.pastLeaders hV hdp hcp hd hc hskip hr' hl
      exact ⟨.skip (fun p hp hpath => by simp [hfind p hp hpath] at hnone) hpast, hrec⟩
    · rename_i d p hsome
      obtain ⟨-, hpr, hpo, hrec⟩ := h.sound _ _ _ hsome
      simp only at hpr hpo hrec
      have hleader : IsLeader consensus V r p := ⟨hrec.mem hV hd, hpr, hpo, heven, h2⟩
      have hrc : r < c.round := hcr r List.mem_cons_self
      rw [Fallible.bind_eq_ok] at hl
      obtain ⟨b, hb, hl⟩ := hl
      have hiff := h.linked_iff hV hd hc hleader.1 (by omega) (by omega) hb
      split at hl
      · rename_i hbt
        rw [Fallible.bind_eq_ok] at hl
        obtain ⟨l', hl', hl⟩ := hl
        obtain rfl : p :: l' = l := Except.ok.inj hl
        obtain ⟨hpast, hrec'⟩ := h.pastLeaders hV hdp hcp hd hrec (hpr ▸ hpw') hr' hl'
        refine ⟨.link hleader (hiff.1 hbt) hpast, List.forall_mem_cons.2 ⟨⟨hrec, by omega⟩, ?_⟩⟩
        exact fun q hq => ⟨(hrec' q hq).1, by have := (hrec' q hq).2; omega⟩
      · rename_i hbf
        obtain ⟨hpast, hrec'⟩ := h.pastLeaders hV hdp hcp hd hc hskip hr' hl
        refine ⟨.skip (fun q hq hpath => hbf (hiff.2 ?_)) hpast, hrec'⟩
        rwa [← slot_unique hV.slot r q p hq hleader]

end Past

/-! ## The rounds of past leaders -/

section Rounds

omit [Crypto] in
theorem everyOther_evens (a : ℕ) : ∀ k : ℕ,
    everyOther (List.range' (2 * a) (2 * k + 1)).reverse =
      ((List.range' a (k + 1)).map (2 * ·)).reverse
  | 0 => by simp [everyOther]
  | k + 1 => by
    rw [show 2 * (k + 1) + 1 = (2 * k + 1) + 1 + 1 by ring, List.range'_1_concat,
      List.range'_1_concat, List.range'_1_concat (n := k + 1), List.map_append,
      List.reverse_append, List.reverse_append, List.reverse_append]
    simp only [List.reverse_cons, List.reverse_nil, List.nil_append, List.cons_append, everyOther,
      List.map_cons, List.map_nil]
    rw [everyOther_evens a k]
    congr 1
    omega

omit [Crypto] in
/-- The even rounds between two even rounds. -/
theorem pastRounds_evens {a b : ℕ} (h : a ≤ b) (hb : 0 < b) :
    pastRounds (2 * a) (2 * b - 2) = ((List.range' a (b - a)).map (2 * ·)).reverse := by
  unfold pastRounds
  rcases h.eq_or_lt with rfl | hlt
  · rw [show 2 * a - 2 + 1 - 2 * a = 0 by omega, Nat.sub_self]
    rfl
  · rw [show 2 * b - 2 + 1 - 2 * a = 2 * (b - a - 1) + 1 by omega, everyOther_evens]
    congr 3
    omega

omit [Crypto] in
theorem mem_pastRounds_evens {a b r : ℕ} (h : a ≤ b) (hb : 0 < b)
    (hr : r ∈ pastRounds (2 * a) (2 * b - 2)) : 2 * a ≤ r ∧ r < 2 * b ∧ 2 ∣ r := by
  rw [pastRounds_evens h hb] at hr
  simp only [List.mem_reverse, List.mem_map, List.mem_range'_1] at hr
  obtain ⟨k, hk, rfl⟩ := hr
  exact ⟨by omega, by omega, Dvd.intro _ rfl⟩

omit [Crypto] in
theorem pairwise_pastRounds_evens {a b : ℕ} (h : a ≤ b) (hb : 0 < b) :
    (2 * b :: pastRounds (2 * a) (2 * b - 2)).Pairwise (· > ·) := by
  refine List.pairwise_cons.2 ⟨fun r hr => (mem_pastRounds_evens h hb hr).2.1, ?_⟩
  rw [pastRounds_evens h hb, List.pairwise_reverse, List.pairwise_map]
  exact (List.pairwise_lt_range' _).imp fun hlt => by omega

omit [Crypto] in
/-- The rounds below a leader go on below an earlier leader as that one's own. -/
theorem pastRounds_append {a b : ℕ} (ha : 0 < a) (h : a < b) : pastRounds 2 (2 * b - 2) =
    pastRounds (2 * a + 2) (2 * b - 2) ++ 2 * a :: pastRounds 2 (2 * a - 2) := by
  have h₁ := pastRounds_evens (a := 1) (b := b) (by omega) (by omega)
  have h₂ := pastRounds_evens (a := a + 1) (b := b) (by omega) (by omega)
  have h₃ := pastRounds_evens (a := 1) (b := a) (by omega) (by omega)
  rw [show 2 * 1 = 2 by rfl] at h₁ h₃
  rw [show 2 * (a + 1) = 2 * a + 2 by ring] at h₂
  rw [h₁, h₂, h₃]
  have hsplit : List.range' 1 (b - 1) =
      List.range' 1 (a - 1) ++ a :: List.range' (a + 1) (b - (a + 1)) := by
    have happ := List.range'_append_1 (s := 1) (m := a - 1) (n := b - a)
    rw [show 1 + (a - 1) = a by omega, show a - 1 + (b - a) = b - 1 by omega,
      show b - a = b - (a + 1) + 1 by omega, List.range'_succ] at happ
    exact happ.symm
  rw [hsplit, List.map_append, List.reverse_append, List.map_cons, List.reverse_cons,
    List.append_assoc, List.singleton_append]

end Rounds

/-! ## Committing -/

section Commit

variable {consensus : Consensus} {V : Set Certificate} {ys : List Certificate} {s : State}
  {out : List Certificate}

variable (consensus V) in
/-- What a node has emitted once the leaders of a list, latest first, are committed. -/
inductive Committed : List Certificate → List Certificate → Prop
  | nil : Committed [] []
  | cons {leader : Certificate} {leaders out ys : List Certificate} {s : State}
      (h : Committed leaders out) (hd : Delivery consensus.committee V ys)
      (hs : Inv consensus V ys s out) (hl : Received consensus.committee ys leader) :
      Committed (leader :: leaders) (out ++ orderDag leader s)

/-- The leaders determine what has been emitted. -/
theorem Committed.unique (hV : CertifiedDag consensus.committee V)
    {leaders out out' : List Certificate}
    (h : Committed consensus V leaders out) (h' : Committed consensus V leaders out') :
    out = out' := by
  induction h generalizing out' with
  | nil => cases h'; rfl
  | cons _ hd hs hl ih =>
    cases h' with
    | cons h' hd' hs' hl' =>
      obtain rfl := ih h'
      rw [hs.orderDag_eq hV hd hd' hs' hl hl']

theorem Committed.of_suffix {earlier : List Certificate} : ∀ {later out : List Certificate},
    Committed consensus V (later ++ earlier) out →
      ∃ out', Committed consensus V earlier out' ∧ out' <+: out
  | [], out, h => ⟨out, h, List.prefix_refl _⟩
  | _ :: later, _, h => by
    cases h with
    | cons h _ _ _ =>
      obtain ⟨out', h', hp⟩ := of_suffix h
      exact ⟨out', h', hp.trans (List.prefix_append _ _)⟩

/-- Committing leaders from the oldest to the latest. -/
theorem Inv.commitLeaders (hV : CertifiedDag consensus.committee V)
    (hd : Delivery consensus.committee V ys) : ∀ {leaders past out : List Certificate} {s : State},
    Inv consensus V ys s out → Committed consensus V past out →
    (∀ p ∈ leaders, Received consensus.committee ys p) →
      Inv consensus V ys (commitLeaders consensus leaders s).1
        (out ++ (commitLeaders consensus leaders s).2) ∧
      Committed consensus V (leaders.reverse ++ past)
        (out ++ (commitLeaders consensus leaders s).2) ∧
      (commitLeaders consensus leaders s).1.lastCommittedRound =
        (leaders.map Certificate.round).foldr max s.lastCommittedRound
  | [], past, out, s, h, hc, _ => by simpa [Narwhal.commitLeaders] using ⟨h, hc⟩
  | leader :: leaders, past, out, s, h, hc, hrec => by
    obtain ⟨hl, hrec⟩ := List.forall_mem_cons.1 hrec
    have hs := h.foldl_update (orderDag leader s)
    obtain ⟨hinv, hcom, hround⟩ := Inv.commitLeaders hV hd hs (hc.cons hd h hl) hrec
    rw [Narwhal.commitLeaders]
    simp only
    rw [← List.append_assoc]
    refine ⟨hinv, by simpa using hcom, ?_⟩
    rw [hround, State.lastCommittedRound_foldl_update _ _ h.coherent, List.map_cons,
      List.foldr_cons]
    have ⟨hmem, hle⟩ : leader ∈ orderDag leader s ∧ ∀ x ∈ orderDag leader s, x.round ≤ leader.round :=
      h.mem_orderDag hV hd
    rw [foldr_max_of_mem (List.mem_map_of_mem hmem) (by simpa using hle), foldr_max_max]

variable (consensus V) in
/-- The state of a node that has committed the leaders `ls`, the oldest first. -/
structure Reached (ys : List Certificate) (s : State) (out ls : List Certificate) : Prop where
  inv : Inv consensus V ys s out
  committed : Committed consensus V ls.reverse out
  backbone : Backbone (Path V) (IsLeader consensus V) Certificate.round
    (fun r => pastRounds 2 (r - 2)) ls
  last : ∀ c, ls.getLast? = some c → s.lastCommittedRound = c.round
  first : ls = [] → s.lastCommittedRound = 0

theorem reached_new : Reached consensus V [] (State.new consensus.genesis) [] [] where
  inv := inv_new
  committed := .nil
  backbone := .inl rfl
  last := by simp
  first _ := rfl

/-- The round committed last is that of a leader, or zero. -/
theorem Reached.last_even {ls : List Certificate} (h : Reached consensus V ys s out ls)
    {c : Certificate} (hc : ls.getLast? = some c) : 2 ∣ c.round ∧ 2 ≤ c.round := by
  rcases h.backbone with rfl | ⟨d, l, hl, hd, -, -⟩
  · simp at hc
  · rw [← List.head?_reverse, hl, List.head?_cons] at hc
    rw [← Option.some.inj hc]
    exact hd.2.2.2

/-- What `run` adds up as support is the stake of a set of authors. -/
theorem Inv.supported (hV : CertifiedDag consensus.committee V)
    (hd : Delivery consensus.committee V ys) (h : Inv consensus V ys s out) {r : ℕ}
    {n : PublicKey} {d : Digest} {c : Certificate} (hc : s.get r n = some (d, c))
    {m : FinMap PublicKey (Digest × Certificate)} (hm : s.dag.lookup (r + 1) = some m)
    (hs : consensus.committee.validityThreshold ≤ support consensus m d) :
    Supported consensus.committee V c := by
  obtain ⟨hcd, hcr, -, -⟩ := h.sound r n _ hc
  simp only at hcd hcr
  have hget : ∀ n e, m.lookup n = some e → s.get (r + 1) n = some e := fun n e he => by
    rw [State.get, hm, Option.bind_some, he]
  set voters := m.entries.filter fun e => decide (d ∈ e.2.2.header.parents) with hvoters
  have horigin : ∀ e ∈ voters, e.2.2.origin = e.1 := fun e he =>
    (h.sound _ _ _ (hget _ _ (ext_lookup_iff.2 (List.mem_of_mem_filter he)))).2.2.1
  have hnodup : (voters.map Sigma.fst).Nodup :=
    List.Nodup.sublist (List.filter_sublist.map Sigma.fst) m.nodupKeys
  refine ⟨(voters.map Sigma.fst).toFinset, ?_, fun a ha => ?_⟩
  · rw [← Weighted.sum_map_eq_weight _ hnodup, List.map_map]
    refine hs.trans_eq ?_
    rw [support, FinMap.values, List.filter_map, List.map_map]
    refine congrArg List.sum (List.map_congr_left fun e he => ?_)
    rw [Function.comp_apply, Function.comp_apply, horigin e he]
  · obtain ⟨e, he, rfl⟩ := List.mem_map.1 (List.mem_toFinset.1 ha)
    obtain ⟨-, hr, -, hrec⟩ := h.sound _ _ _
      (hget _ _ (ext_lookup_iff.2 (List.mem_of_mem_filter he)))
    refine ⟨e.2.2, hrec.mem hV hd, horigin e he, by rw [hr, hcr], ?_⟩
    rw [← hcd]
    simpa using List.of_mem_filter he

/-- A supported leader and the past leaders linked to it are committed. -/
theorem Reached.commit (hV : CertifiedDag consensus.committee V)
    (hdp : consensus.dagProtocol = .narwhal) (hcp : consensus.consensusProtocol = .roundRobin)
    (hd : Delivery consensus.committee V ys) {leader : Certificate} {ls past : List Certificate}
    (h : Reached consensus V ys s out ls) (hrec : Received consensus.committee ys leader)
    (hleader : IsLeader consensus V leader.round leader)
    (hsup : Supported consensus.committee V leader) (hlt : s.lastCommittedRound < leader.round)
    (hpast : pastLeaders consensus s.dag leader
      (pastRounds (s.lastCommittedRound + 2) (leader.round - 2)) = .ok past) :
    Reached consensus V ys (commitLeaders consensus (leader :: past).reverse s).1
      (out ++ (commitLeaders consensus (leader :: past).reverse s).2)
      (ls ++ (leader :: past).reverse) := by
  -- the last committed round is `2 * a` and the leader's is `2 * b`
  obtain ⟨b, hb⟩ := hleader.2.2.2.1
  obtain ⟨a, ha⟩ : 2 ∣ s.lastCommittedRound := by
    rcases hl : ls.getLast? with _ | c
    · rw [h.first (List.getLast?_eq_none_iff.1 hl)]
      exact dvd_zero 2
    · rw [h.last c hl]
      exact (h.last_even hl).1
  have hrounds : pastRounds (s.lastCommittedRound + 2) (leader.round - 2) =
      pastRounds (2 * (a + 1)) (2 * b - 2) := by rw [ha, hb, Nat.mul_add_one]
  have hab : a + 1 ≤ b := by omega
  obtain ⟨hchain, hpastRec⟩ := h.inv.pastLeaders hV hdp hcp hd hrec
    (by rw [hrounds, hb]; exact pairwise_pastRounds_evens hab (by omega))
    (fun r hr => by
      rw [hrounds] at hr
      have := mem_pastRounds_evens hab (by omega) hr
      exact ⟨by omega, by omega, this.2.2⟩) hpast
  have hall : ∀ p ∈ (leader :: past).reverse, Received consensus.committee ys p := by
    simp only [List.mem_reverse, List.forall_mem_cons]
    exact ⟨hrec, fun p hp => (hpastRec p hp).1⟩
  obtain ⟨hinv, hcom, hround⟩ := h.inv.commitLeaders hV hd h.committed hall
  refine ⟨hinv, by simpa using hcom, ?_, ?_, ?_⟩
  · refine h.backbone.extend (fun r p hp => hp.2.1) hleader
      (hsup.fixed hV hleader.1 hleader.2.2.2.1) hchain ?_
    rcases hl : ls.getLast? with _ | c
    · have hnil := List.getLast?_eq_none_iff.1 hl
      exact .inl ⟨hnil, by rw [h.first hnil]⟩
    · have hc := h.last_even hl
      have hlc := h.last c hl
      refine .inr ⟨c, rfl, by omega, ?_, fun r hr => ?_⟩
      · rw [hlc] at ha
        simp only [hlc, hb, ha]
        exact pastRounds_append (by omega) (by omega)
      · rw [hrounds] at hr
        have := mem_pastRounds_evens hab (by omega) hr
        omega
  · intro c hc
    obtain rfl : leader = c := by simpa using hc
    rw [hround, foldr_max_of_mem (b := leader.round) (by simp)]
    · exact max_eq_left hlt.le
    · simp only [List.map_reverse, List.mem_reverse, List.map_cons, List.forall_mem_cons, le_refl,
        List.forall_mem_map, true_and]
      exact fun p hp => (hpastRec p hp).2.le
  · simp

/-- The body of the loop keeps a node in the states described by `Reached`. -/
theorem Reached.step (hV : CertifiedDag consensus.committee V)
    (hdp : consensus.dagProtocol = .narwhal) (hcp : consensus.consensusProtocol = .roundRobin)
    {x : Certificate} {ls o : List Certificate} {s' : State}
    (hd : Delivery consensus.committee V (ys ++ [x])) (h : Reached consensus V ys s out ls)
    (ht : s.keeps consensus.gcDepth x.round x.origin = true ∨ ∀ c ∈ V, x.digest ∉ c.header.parents)
    (hstep : step consensus s x = .ok (s', o)) :
    ∃ ls', Reached consensus V (ys ++ [x]) s' (out ++ o) ls' := by
  have hx : Reached consensus V (ys ++ [x]) (s.insertCertificate x) out ls :=
    ⟨h.inv.insert hV hd ht, h.committed, h.backbone, h.last, h.first⟩
  have hstay : ∀ {s' o}, (.ok (s.insertCertificate x, []) : Except String _) = .ok (s', o) →
      ∃ ls', Reached consensus V (ys ++ [x]) s' (out ++ o) ls' := fun he => by
    obtain ⟨rfl, rfl⟩ := Prod.mk.inj (Except.ok.inj he)
    exact ⟨ls, by rwa [List.append_nil]⟩
  unfold Narwhal.step at hstep
  simp only at hstep
  split at hstep
  · exact hstay hstep
  rename_i r hr
  split_ifs at hstep with h₁ h₂
  · exact hstay hstep
  · exact hstay hstep
  simp only [State.lastCommittedRound_insertCertificate, not_or, not_not, not_lt, not_le] at h₁ h₂
  rw [leader_eq hdp hcp (by omega), Fallible.bind_eq_ok] at hstep
  obtain ⟨e, he, hstep⟩ := hstep
  obtain rfl := Except.ok.inj he
  split at hstep
  · exact hstay hstep
  rename_i d leader hleader
  split at hstep
  · cases hstep
  rename_i m hm
  split_ifs at hstep with h₃
  · exact hstay hstep
  rw [Fallible.bind_eq_ok] at hstep
  obtain ⟨leaders, hleaders, hstep⟩ := hstep
  unfold orderLeaders at hleaders
  rw [Fallible.bind_eq_ok] at hleaders
  obtain ⟨past, hpast, hleaders⟩ := hleaders
  obtain rfl : leader :: past = leaders := Except.ok.inj hleaders
  obtain ⟨rfl, rfl⟩ := Prod.mk.inj (Except.ok.inj hstep)
  obtain ⟨-, hlr, hlo, hrec⟩ := hx.inv.sound _ _ _ hleader
  simp only at hlr hlo hrec
  have hm' : (s.insertCertificate x).dag.lookup (r - 2 + 1) = some m := by
    rw [← hm]
    congr 1
    omega
  exact ⟨_, hx.commit hV hdp hcp hd hrec
    ⟨hrec.mem hV hd, rfl, by rw [hlo, hlr], by rw [hlr]; omega, by omega⟩
    (hx.inv.supported hV hd hleader hm' (not_lt.1 h₃))
    (by rw [hlr, State.lastCommittedRound_insertCertificate]; exact h₂) hpast⟩

/-- Every state of a run without late certificates. -/
theorem reached_run (hV : CertifiedDag consensus.committee V)
    (hdp : consensus.dagProtocol = .narwhal) (hcp : consensus.consensusProtocol = .roundRobin)
    {xs : List Certificate} (hd : Delivery consensus.committee V xs)
    (ht : Timely consensus V xs) (hs : (run consensus xs).1 = some s) :
    ∃ ls, Reached consensus V xs s (run consensus xs).2 ls := by
  refine run_induction _ (P := fun ys s out => ∃ ls, Reached consensus V ys s out ls)
    ⟨[], reached_new⟩ xs ?_ s hs
  rintro ys x s s' o hy hys ⟨ls, hls⟩ hstep
  rcases hst : step consensus s x with e | r
  · simp [hst, Except.toOption] at hstep
  · rw [hst, Except.toOption, Option.some.injEq] at hstep
    exact hls.step hV hdp hcp (hd.initial hy) (ht ys x s hy hys) (hst.trans (congrArg _ hstep))

end Commit

/-! ## Agreement -/

section Agreement

variable {consensus : Consensus} {V : Set Certificate}

/-- Two nodes that receive certificates of one certified DAG, none late, send sequences that agree
at every two moments. -/
theorem runs_comparable (hdp : consensus.dagProtocol = .narwhal)
    (hcp : consensus.consensusProtocol = .roundRobin) (hV : CertifiedDag consensus.committee V)
    {xs xs' : List Certificate} (hd : Delivery consensus.committee V xs)
    (hd' : Delivery consensus.committee V xs') (ht : Timely consensus V xs)
    (ht' : Timely consensus V xs') :
    Comparable (run consensus xs).2 (run consensus xs').2 := by
  -- a node that has panicked has sent what it had before
  obtain ⟨ys, s, hy, hs, hout⟩ := exists_running
    (fun state certificate => (step consensus state certificate).toOption)
    (State.new consensus.genesis) xs
  obtain ⟨ys', s', hy', hs', hout'⟩ := exists_running
    (fun state certificate => (step consensus state certificate).toOption)
    (State.new consensus.genesis) xs'
  obtain ⟨ls, h⟩ := reached_run hV hdp hcp (hd.initial hy)
    (fun zs z s hz => ht zs z s (hz.trans hy)) hs
  obtain ⟨ls', h'⟩ := reached_run hV hdp hcp ( hd'.initial hy')
    (fun zs z s hz => ht' zs z s (hz.trans hy')) hs'
  have hslots : ∀ c d : Certificate, IsLeader consensus V c.round c →
      IsLeader consensus V d.round d → c.round < d.round → ∃ rs, pastRounds 2 (d.round - 2) =
        rs ++ c.round :: pastRounds 2 (c.round - 2) ∧ ∀ r ∈ rs, c.round < r := by
    rintro c d ⟨-, -, -, ⟨a, ha⟩, h2⟩ ⟨-, -, -, ⟨b, hb⟩, -⟩ hlt
    rw [ha, hb] at hlt ⊢
    refine ⟨_, pastRounds_append (by omega) (by omega), fun r hr => ?_⟩
    have := mem_pastRounds_evens (a := a + 1) (by omega) (by omega) hr
    omega
  have hcommitted : ∀ {ls ls' out out' : List Certificate}, ls <+: ls' →
      Committed consensus V ls.reverse out → Committed consensus V ls'.reverse out' →
        out <+: out' := by
    rintro ls _ out out' ⟨t, rfl⟩ hc hc'
    rw [List.reverse_append] at hc'
    obtain ⟨out'', hc'', hp⟩ := hc'.of_suffix
    rwa [hc.unique hV hc'']
  unfold run
  rw [← hout, ← hout']
  exact (h.backbone.comparable (slot_unique hV.slot) (fun r p hp => hp.2.1) hslots
    h'.backbone).imp (fun hp => hcommitted hp h.committed h'.committed)
    fun hp => hcommitted hp h'.committed h.committed

end Agreement

/-! ## Runs on lists -/

section Lists

theorem CertifiedDag.of_list {committee : Committee} {L : List Certificate}
    (h : (∀ c ∈ Certificate.genesis committee, c ∈ L) ∧
      (∀ c ∈ L, ∀ d ∈ L, c.round = d.round → c.origin = d.origin → c = d) ∧
      (∀ c ∈ L, ∀ d ∈ L, c.digest = d.digest → c = d) ∧
      ∀ c ∈ L, 0 < c.round → ((L.filter fun p =>
        decide (p.round + 1 = c.round ∧ p.digest ∈ c.header.parents)).map Certificate.origin).Nodup ∧
        committee.quorumThreshold ≤ (((L.filter fun p => decide (p.round + 1 = c.round ∧
          p.digest ∈ c.header.parents)).map Certificate.origin).map committee.stake).sum) :
    CertifiedDag committee {c | c ∈ L} where
  genesis := h.1
  slot := h.2.1
  digest := h.2.2.1
  quorum c hc hr := by
    obtain ⟨hn, hw⟩ := h.2.2.2 c hc hr
    refine ⟨_, hw.trans_eq (Weighted.sum_map_eq_weight _ hn), fun a ha => ?_⟩
    obtain ⟨p, hp, rfl⟩ := List.mem_map.1 (List.mem_toFinset.1 ha)
    have hpc := List.of_mem_filter hp
    rw [decide_eq_true_eq] at hpc
    exact ⟨p, List.mem_of_mem_filter hp, rfl, hpc⟩

/-- The certificates are distinct, and those they refer to come before them. -/
def InOrder (committee : Committee) (xs : List Certificate) : Prop :=
  xs.Nodup ∧ ∀ i < xs.length, ∀ x ∈ xs[i]?, ∀ d ∈ x.header.parents.toList,
    ∃ p ∈ Certificate.genesis committee ++ xs.take i, p.digest = d

instance (committee : Committee) (xs : List Certificate) : Decidable (InOrder committee xs) :=
  inferInstanceAs (Decidable (_ ∧ _))

theorem Delivery.of_list {committee : Committee} {V : Set Certificate} {xs : List Certificate}
    (hm : ∀ c ∈ xs, c ∈ V) (h : InOrder committee xs) : Delivery committee V xs where
  mem := hm
  once := h.1
  causal := by
    refine forall_prefix_concat fun i hi x hx d hd => ?_
    obtain ⟨p, hp, hpd⟩ := h.2 i hi x hx d hd
    exact ⟨p, List.mem_append.1 hp, hpd⟩

/-- No certificate is late. -/
def InTime (consensus : Consensus) (xs : List Certificate) : Prop :=
  ∀ i < xs.length, ∀ x ∈ xs[i]?, ∀ s ∈ (run consensus (xs.take i)).1,
    s.keeps consensus.gcDepth x.round x.origin = true

instance (consensus : Consensus) (xs : List Certificate) : Decidable (InTime consensus xs) :=
  inferInstanceAs (Decidable (∀ i < xs.length, ∀ x ∈ xs[i]?, ∀ s ∈ (run consensus (xs.take i)).1,
    s.keeps consensus.gcDepth x.round x.origin = true))

theorem Timely.of_list {consensus : Consensus} {V : Set Certificate} {xs : List Certificate}
    (h : InTime consensus xs) : Timely consensus V xs := by
  have hkeeps := forall_prefix_concat (P := fun ys x => ∀ s ∈ (run consensus ys).1,
    s.keeps consensus.gcDepth x.round x.origin = true) h
  exact fun ys x s hp hs => .inl (hkeeps ys x hp s hs)

end Lists

end Narwhal

/-! ## A run with a late certificate -/

namespace Narwhal

open PrefixLog

/-- Four authorities under the round-robin schedule. -/
def fourNodes : Consensus where
  committee := Committee.uniform 4
  gcDepth := 50
  dagProtocol := .narwhal
  consensusProtocol := .roundRobin
  name := 0
  coinCommittee := ⟨[0, 1, 2, 3], CoinCommittee.four_ne_nil⟩
  thresholdCoin := none

/-- The leader of round 2 does not reference the first certificate. The leader of round 4 does
through author 1, who is slow. -/
def lateDag : List Certificate :=
  letI := toyCrypto
  Certificate.ofTable (Committee.uniform 4)
    [(1, 0, [0, 1, 2]), (1, 1, [0, 1, 2]), (1, 2, [0, 1, 2]), (1, 3, [0, 1, 2]),
      (2, 0, [1, 2, 3]), (2, 2, [1, 2, 3]), (2, 3, [1, 2, 3]),
      (3, 0, [0, 2, 3]), (3, 2, [0, 2, 3]), (3, 3, [0, 2, 3]),
      (4, 0, [0, 2, 3]), (4, 2, [0, 2, 3]), (4, 3, [0, 2, 3]), (5, 0, [0, 2, 3]),
      (2, 1, [0, 1, 2]), (3, 1, [0, 1, 2]), (4, 1, [0, 1, 2]),
      (5, 1, [0, 1, 2]), (5, 2, [0, 1, 2]), (5, 3, [0, 1, 2]),
      (6, 1, [1, 2, 3]), (6, 2, [1, 2, 3]), (6, 3, [1, 2, 3]), (7, 1, [1, 2, 3])]

/-- The order of the table. -/
def promptOrder : List Certificate := lateDag.drop 4

/-- Another order of the first round. -/
def reversedOrder : List Certificate := ((lateDag.drop 4).take 4).reverse ++ lateDag.drop 8

/-- The first certificate arrives once the leader of round 2 is committed. -/
def lateOrder : List Certificate :=
  (lateDag.drop 5).take 13 ++ ((lateDag.drop 4).take 1 ++ lateDag.drop 18)

theorem lateDag_certified :
    @CertifiedDag toyCrypto fourNodes.committee {c | c ∈ lateDag} :=
  letI := toyCrypto
  .of_list (by decide +kernel)

theorem promptOrder_delivery :
    @Delivery toyCrypto fourNodes.committee {c | c ∈ lateDag} promptOrder :=
  letI := toyCrypto
  .of_list (fun _ h => List.mem_of_mem_drop h) (by decide +kernel)

theorem mem_lateDag_of_reversedOrder {c : Certificate} (h : c ∈ reversedOrder) : c ∈ lateDag :=
  (List.mem_append.1 h).elim
    (fun h => List.mem_of_mem_drop (List.mem_of_mem_take (List.mem_reverse.1 h)))
    List.mem_of_mem_drop

theorem mem_lateDag_of_lateOrder {c : Certificate} (h : c ∈ lateOrder) : c ∈ lateDag := by
  rcases List.mem_append.1 h with h | h
  · exact List.mem_of_mem_drop (List.mem_of_mem_take h)
  · exact (List.mem_append.1 h).elim (fun h => List.mem_of_mem_drop (List.mem_of_mem_take h))
      List.mem_of_mem_drop

/-- Two prompt nodes send the same eleven certificates. -/
theorem runs_comparable_promptOrder :
    letI := toyCrypto
    (run fourNodes promptOrder).2.length = 11 ∧
      Comparable (run fourNodes promptOrder).2 (run fourNodes reversedOrder).2 := by
  let _ := toyCrypto
  have h : (run fourNodes promptOrder).2.length = 11 ∧
      InOrder fourNodes.committee reversedOrder ∧
      InTime fourNodes promptOrder ∧ InTime fourNodes reversedOrder := by decide +kernel
  obtain ⟨hlength, horder, htime, htime'⟩ := h
  exact ⟨hlength, runs_comparable rfl rfl lateDag_certified promptOrder_delivery
    (.of_list (fun _ => mem_lateDag_of_reversedOrder) horder) (.of_list htime) (.of_list htime')⟩

/-- The prompt node and the late node send different fifth certificates. -/
theorem not_runs_comparable : ¬ ∀ [Crypto] (consensus : Consensus) (V : Set Certificate)
    (xs xs' : List Certificate), consensus.dagProtocol = .narwhal →
    consensus.consensusProtocol = .roundRobin → CertifiedDag consensus.committee V →
    Delivery consensus.committee V xs → Delivery consensus.committee V xs' →
    Comparable (run consensus xs).2 (run consensus xs').2 := by
  intro h
  let _ := toyCrypto
  have hrun : InOrder fourNodes.committee lateOrder ∧
      ¬ Comparable (run fourNodes promptOrder).2 (run fourNodes lateOrder).2 := by decide +kernel
  exact hrun.2 (h fourNodes {c | c ∈ lateDag} promptOrder lateOrder rfl rfl lateDag_certified
    promptOrder_delivery (.of_list (fun _ => mem_lateDag_of_lateOrder) hrun.1))

end Narwhal

end NovelDag
