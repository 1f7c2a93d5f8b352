import NovelDag.Bullshark
import NovelDag.Proofs.Narwhal

/-!
# Narwhal and Bullshark send no certificate twice

A certificate that was sent and is still in the DAG is at the last committed round of its author, so
`order_dag` skips it. This stays so as long as no certificate that was sent comes again once a later
one of its author has been committed: it would be put in the DAG again, below that round.
-/

namespace NovelDag

open PrefixLog Fallible
open Narwhal (orderDagNext dagSize)

variable [Crypto]

/-- Certificates of rounds above zero, one for a round and an author, parents before children. A
certificate can come several times. -/
structure Redelivery (committee : Committee) (xs : List Certificate) : Prop where
  round : ∀ c ∈ xs, 0 < c.round
  slot : ∀ c ∈ xs, ∀ d ∈ xs, c.round = d.round → c.origin = d.origin → c = d
  digest : ∀ c ∈ Certificate.genesis committee ++ xs, ∀ d ∈ Certificate.genesis committee ++ xs,
    c.digest = d.digest → c.round = d.round ∧ c.origin = d.origin
  causal : ∀ ys x, ys ++ [x] <+: xs → ∀ d ∈ x.header.parents,
    ∃ p ∈ Certificate.genesis committee ++ ys, p.digest = d

/-- No certificate that was sent comes again below the last committed round of its author. -/
def NonePassed (run : List Certificate → Option State × List Certificate)
    (xs : List Certificate) : Prop :=
  ∀ ys x s, ys ++ [x] <+: xs → (run ys).1 = some s → x ∈ (run ys).2 →
    ∀ q, s.lastCommitted.lookup x.origin = some q → q ≤ x.round

omit [Crypto] in
theorem Certificate.genesis_injective {committee : Committee} {c d : Certificate}
    (hc : c ∈ Certificate.genesis committee) (hd : d ∈ Certificate.genesis committee)
    (h : c.origin = d.origin) : c = d := by
  obtain ⟨n, -, rfl⟩ := List.mem_map.1 hc
  obtain ⟨m, -, rfl⟩ := List.mem_map.1 hd
  obtain rfl : n = m := h
  rfl

theorem Redelivery.eq_of_digest {committee : Committee} {xs : List Certificate}
    (h : Redelivery committee xs) {c d : Certificate} (hc : c ∈ Certificate.genesis committee ++ xs)
    (hd : d ∈ Certificate.genesis committee ++ xs) (hcd : c.digest = d.digest) : c = d := by
  obtain ⟨hr, ho⟩ := h.digest c hc d hd hcd
  rcases List.mem_append.1 hc with hc | hc <;> rcases List.mem_append.1 hd with hd | hd
  · exact Certificate.genesis_injective hc hd ho
  · have := h.round d hd
    rw [← hr, (Certificate.genesis_parents hc).2] at this
    exact absurd this (lt_irrefl 0)
  · have := h.round c hc
    rw [hr, (Certificate.genesis_parents hd).2] at this
    exact absurd this (lt_irrefl 0)
  · exact h.slot c hc d hd hr ho

/-! ## What has been sent -/

section Memory

/-- The state once the certificates of `log` have been sent: those of them that are in the DAG are
at the last committed rounds of their authors. -/
structure Once (known : List Certificate) (s : State) (log : List Certificate) : Prop where
  coherent : s.Coherent
  sound : ∀ r n e, s.get r n = some e →
    e.1 = e.2.digest ∧ e.2.round = r ∧ e.2.origin = n ∧ e.2 ∈ known
  output : ∀ c ∈ log, c ∈ known ∧ ∃ q, s.lastCommitted.lookup c.origin = some q ∧ c.round ≤ q
  current : ∀ r n e, s.get r n = some e → e.2 ∈ log → s.lastCommitted.lookup n = some r
  nodup : (log.map Certificate.digest).Nodup

variable {known : List Certificate} {s : State} {log : List Certificate} {c x : Certificate}

theorem once_new {committee : Committee} :
    Once (Certificate.genesis committee) (State.new (Certificate.genesis committee)) [] where
  coherent := State.coherent_new
  sound r n e h := by
    obtain ⟨rfl, hd, hg, rfl⟩ := State.get_new.1 h
    exact ⟨hd, (Certificate.genesis_parents hg).2, rfl, hg⟩
  output _ hc := absurd hc List.not_mem_nil
  current _ _ _ _ hc := absurd hc List.not_mem_nil
  nodup := List.nodup_nil

theorem Once.insert (h : Once known s log)
    (hx : x ∈ log → ∀ q, s.lastCommitted.lookup x.origin = some q → q ≤ x.round) :
    Once (known ++ [x]) (s.insertCertificate x) log where
  coherent := h.coherent
  sound r n e he := by
    rw [State.get_insertCertificate] at he
    split_ifs at he with hr
    · obtain rfl := Option.some.inj he
      exact ⟨rfl, hr.1.symm, hr.2.symm, by simp⟩
    · obtain ⟨h₁, h₂, h₃, h₄⟩ := h.sound r n e he
      exact ⟨h₁, h₂, h₃, List.mem_append_left _ h₄⟩
  output c hc := (h.output c hc).imp_left (List.mem_append_left _)
  current r n e he hlog := by
    rw [State.get_insertCertificate] at he
    split_ifs at he with hr
    · obtain rfl := Option.some.inj he
      obtain ⟨-, q, hq, hle⟩ := h.output x hlog
      rw [State.lastCommitted_insertCertificate, hr.1, hr.2, hq, le_antisymm (hx hlog q hq) hle]
    · exact h.current r n e he hlog
  nodup := h.nodup

theorem Once.update (h : Once known s log) (gcDepth : ℕ) (hc : c ∈ known)
    (hnodup : ((log ++ [c]).map Certificate.digest).Nodup) :
    Once known (s.update c gcDepth) (log ++ [c]) := by
  have houtput : ∀ d ∈ log ++ [c], d ∈ known ∧
      ∃ q, (s.update c gcDepth).lastCommitted.lookup d.origin = some q ∧ d.round ≤ q := by
    intro d hd
    rw [State.lastCommitted_update, State.lookup_commitRound]
    rcases List.mem_append.1 hd with hd | hd
    · obtain ⟨hd, q, hq, hle⟩ := h.output d hd
      split_ifs with ho
      · rw [← ho, hq]
        exact ⟨hd, _, rfl, hle.trans (le_max_right _ _)⟩
      · exact ⟨hd, q, hq, hle⟩
    · obtain rfl := List.mem_singleton.1 hd
      rw [if_pos rfl]
      refine ⟨hc, _, rfl, ?_⟩
      rcases s.lastCommitted.lookup d.origin with _ | q
      · exact le_rfl
      · exact le_max_left _ _
  have hsound : ∀ r n e, (s.update c gcDepth).get r n = some e →
      s.get r n = some e ∧ (s.update c gcDepth).keeps gcDepth r n = true := fun r n e he => by
    rw [State.get_update] at he
    exact Option.filter_eq_some_iff.1 he
  refine ⟨State.coherent_update, fun r n e he => h.sound r n e (hsound r n e he).1, houtput,
    fun r n e he hlog => ?_, hnodup⟩
  -- what the clean-up has kept is not below the committed round of its author
  obtain ⟨hget, hkeep⟩ := hsound r n e he
  obtain ⟨-, hr, hn, -⟩ := h.sound r n e hget
  obtain ⟨-, q, hq, hle⟩ := houtput e.2 hlog
  rw [hn] at hq
  rw [hr] at hle
  rw [hq, le_antisymm ((State.keeps_iff.1 hkeep).1 q hq) hle]

theorem Once.foldl_update (gcDepth : ℕ) : ∀ (out : List Certificate) {s : State}
    {log : List Certificate}, Once known s log → (∀ c ∈ out, c ∈ known) →
      ((log ++ out).map Certificate.digest).Nodup →
        Once known (out.foldl (fun s x => s.update x gcDepth) s) (log ++ out)
  | [], s, log, h, _, _ => by simpa using h
  | c :: out, s, log, h, hout, hnodup => by
    obtain ⟨hc, hout⟩ := List.forall_mem_cons.1 hout
    have heq : log ++ c :: out = (log ++ [c]) ++ out := by simp
    rw [heq] at hnodup ⊢
    refine Once.foldl_update gcDepth out (h.update gcDepth hc ?_) hout hnodup
    rw [List.map_append] at hnodup
    exact (List.nodup_append.1 hnodup).1

end Memory

/-! ## What a leader sends -/

section Emission

variable {known : List Certificate} {s : State} {log : List Certificate} {leader x : Certificate}

/-- The DAG has the certificate, and it is not at the last committed round of its author. -/
def Pending (s : State) (c : Certificate) : Prop :=
  ∃ d, s.get c.round c.origin = some (d, c) ∧ s.lastCommitted.lookup c.origin ≠ some c.round

theorem Once.mem_next (h : Once known s log) {e : Digest × Certificate}
    (he : e ∈ orderDagNext s x) :
    e.2.digest = e.1 ∧ e.2 ∈ known ∧ e.2.round < x.round ∧ Pending s e.2 := by
  unfold orderDagNext at he
  split at he
  · exact absurd he List.not_mem_nil
  · rename_i r hr
    obtain ⟨d, -, hf⟩ := List.mem_filterMap.1 he
    obtain ⟨hf, hne⟩ := Option.filter_eq_some_iff.1 hf
    obtain ⟨m, hm, hf⟩ := Option.bind_eq_some_iff.1 hf
    obtain ⟨n, hn⟩ := FinMap.mem_values.1 (List.mem_of_find?_eq_some hf)
    have hget : s.get r n = some e := by rw [State.get, hm, Option.bind_some, hn]
    obtain ⟨h₁, h₂, h₃, h₄⟩ := h.sound r n e hget
    refine ⟨h₁.symm, h₄, by omega, e.1, by rw [h₂, h₃, hget], by simpa using hne⟩

/-- A leader walks to itself and to certificates that have not been sent, to each once. -/
theorem Once.dfs (hk : ∀ c ∈ known, ∀ d ∈ known, c.digest = d.digest → c = d)
    (h : Once known s log) (hl : leader ∈ known) (n : ℕ) :
    ((Worklist.dfs (orderDagNext s) (n + 1) [leader] []).map Certificate.digest).Nodup ∧
      ∀ c ∈ Worklist.dfs (orderDagNext s) (n + 1) [leader] [], c ∈ known ∧ c.round ≤ leader.round ∧
        (c = leader ∨ Pending s c) := by
  have hnext : ∀ x, x.round ≤ leader.round → ∀ e ∈ orderDagNext s x,
      e.2 ∈ known ∧ e.2.round < leader.round ∧ Pending s e.2 := fun x hx e he => by
    obtain ⟨-, h₁, h₂, h₃⟩ := h.mem_next he
    exact ⟨h₁, h₂.trans_le hx, h₃⟩
  obtain ⟨h₁, h₂, -, -⟩ := @Worklist.nodup_push _ _ _ Certificate.digest _ [] []
    (fun e he => (h.mem_next (x := leader) he).1) List.nodup_nil (fun _ hy => by cases hy)
  obtain ⟨hnodup, -⟩ := Worklist.nodup_dfs (P := fun _ => True) (fun _ _ _ _ => trivial)
    (fun x _ e he => (h.mem_next (x := x) he).1) n (fun _ _ => trivial) h₁ h₂
  have hrest : ∀ c ∈ Worklist.dfs (orderDagNext s) n (Worklist.push (orderDagNext s leader) [] []).1
      (Worklist.push (orderDagNext s leader) [] []).2,
      c ∈ known ∧ c.round < leader.round ∧ Pending s c :=
    Worklist.forall_mem_dfs (fun x hx => hnext x hx.2.1.le) n fun y hy => by
      rcases Worklist.mem_push hy with hy | ⟨k, hk⟩
      · cases hy
      · exact hnext leader le_rfl _ hk
  rw [Worklist.dfs, List.map_cons, List.nodup_cons]
  refine ⟨⟨fun hmem => ?_, hnodup⟩, fun c hc => ?_⟩
  · obtain ⟨c, hc, hd⟩ := List.mem_map.1 hmem
    obtain ⟨hc, hlt, -⟩ := hrest c hc
    rw [hk c hc leader hl hd] at hlt
    exact lt_irrefl _ hlt
  · rcases List.mem_cons.1 hc with rfl | hc
    · exact ⟨hl, le_rfl, .inl rfl⟩
    · obtain ⟨h₁, h₂, h₃⟩ := hrest c hc
      exact ⟨h₁, h₂.le, .inr h₃⟩

/-- What `order_dag` lists is a part of what the leader walks to. -/
def Orders (order : Certificate → State → List Certificate) : Prop :=
  ∀ leader s, ∃ l, l.Sublist (Worklist.dfs (orderDagNext s) (dagSize s.dag + 1) [leader] []) ∧
    (order leader s).Perm l

omit [Crypto] in
theorem orders_narwhal : Orders Narwhal.orderDag := fun _ _ =>
  ⟨_, List.Sublist.refl _, List.perm_insertionSort _ _⟩

omit [Crypto] in
theorem orders_bullshark (gcDepth : ℕ) :
    Orders fun leader s => Bullshark.orderDag leader s gcDepth := fun _ _ =>
  ⟨_, List.filter_sublist, List.perm_insertionSort _ _⟩

/-- A leader above the last committed round is committed. -/
theorem Once.commit {order : Certificate → State → List Certificate} (ho : Orders order)
    (hk : ∀ c ∈ known, ∀ d ∈ known, c.digest = d.digest → c = d) (h : Once known s log)
    (gcDepth : ℕ) (hl : leader ∈ known) (hr : s.lastCommittedRound < leader.round) :
    Once known ((order leader s).foldl (fun s x => s.update x gcDepth) s)
        (log ++ order leader s) ∧
      ((order leader s).foldl (fun s x => s.update x gcDepth) s).lastCommittedRound ≤
        leader.round := by
  obtain ⟨l, hsub, hperm⟩ := ho leader s
  obtain ⟨hnodup, hmem⟩ := h.dfs hk hl (dagSize s.dag)
  have hmem : ∀ c ∈ order leader s, c ∈ known ∧ c.round ≤ leader.round ∧
      (c = leader ∨ Pending s c) := fun c hc => hmem c (hsub.subset (hperm.subset hc))
  constructor
  · refine Once.foldl_update gcDepth _ h (fun c hc => (hmem c hc).1) ?_
    rw [List.map_append]
    refine List.Nodup.append h.nodup ((hperm.map _).nodup_iff.2 (hnodup.sublist (hsub.map _))) ?_
    intro d hd hd'
    obtain ⟨c, hc, rfl⟩ := List.mem_map.1 hd
    obtain ⟨c', hc', heq⟩ := List.mem_map.1 hd'
    obtain ⟨hknown, q, hq, hle⟩ := h.output c hc
    obtain ⟨hknown', -, hcase⟩ := hmem c' hc'
    obtain rfl := hk c' hknown' c hknown heq
    rcases hcase with rfl | ⟨d, hget, hne⟩
    · -- the leader is above everything that was committed
      have := foldr_max_zero_le_iff.1 h.coherent.ge q (FinMap.mem_values.2 ⟨_, hq⟩)
      omega
    · exact hne (h.current _ _ _ hget hc)
  · rw [State.lastCommittedRound_foldl_update gcDepth _ h.coherent, foldr_max_le_iff]
    refine ⟨hr.le, fun r hr => ?_⟩
    obtain ⟨c, hc, rfl⟩ := List.mem_map.1 hr
    exact (hmem c hc).2.1

end Emission

/-! ## The leaders -/

section Leaders

variable {consensus : Consensus} {known : List Certificate} {s : State} {log : List Certificate}

/-- `order_leaders`, its coin round a parameter. -/
def pastLeaders (coin : ℕ → ℕ) (consensus : Consensus) (dag : Dag) :
    Certificate → List ℕ → Except String (List Certificate)
  | _, [] => .ok []
  | current, r :: rounds => do
    match ← consensus.leader r (coin r) dag with
    | none => pastLeaders coin consensus dag current rounds
    | some (_, prevLeader) =>
      if ← Narwhal.linked current prevLeader dag then
        let toCommit ← pastLeaders coin consensus dag prevLeader rounds
        return prevLeader :: toCommit
      else pastLeaders coin consensus dag current rounds

theorem pastLeaders_narwhal (dag : Dag) : ∀ (rounds : List ℕ) (current : Certificate),
    Narwhal.pastLeaders consensus dag current rounds =
      pastLeaders (· + 2) consensus dag current rounds
  | [], _ => rfl
  | r :: rounds, current => by
    unfold Narwhal.pastLeaders pastLeaders
    refine bind_congr fun leader => ?_
    rcases leader with _ | ⟨_, prevLeader⟩
    · exact pastLeaders_narwhal dag rounds current
    · refine bind_congr fun linked => ?_
      cases linked with
      | false => exact pastLeaders_narwhal dag rounds current
      | true =>
        exact congrArg (· >>= fun toCommit => pure (prevLeader :: toCommit))
          (pastLeaders_narwhal dag rounds prevLeader)

theorem pastLeaders_bullshark (dag : Dag) : ∀ (rounds : List ℕ) (current : Certificate),
    Bullshark.pastLeaders consensus dag current rounds =
      pastLeaders id consensus dag current rounds
  | [], _ => rfl
  | r :: rounds, current => by
    unfold Bullshark.pastLeaders pastLeaders
    refine bind_congr fun leader => ?_
    rcases leader with _ | ⟨_, prevLeader⟩
    · exact pastLeaders_bullshark dag rounds current
    · refine bind_congr fun linked => ?_
      cases linked with
      | false => exact pastLeaders_bullshark dag rounds current
      | true =>
        exact congrArg (· >>= fun toCommit => pure (prevLeader :: toCommit))
          (pastLeaders_bullshark dag rounds prevLeader)

/-- The leader of a round is in the DAG. -/
theorem get_of_leader {r coinRound : ℕ} {e : Digest × Certificate}
    (h : consensus.leader r coinRound s.dag = .ok (some e)) : ∃ n, s.get r n = some e := by
  unfold Consensus.leader at h
  split at h
  · cases h
  · rename_i m hm
    obtain ⟨l, -, h⟩ := bind_eq_ok.1 h
    obtain ⟨n, -, hn⟩ := Option.bind_eq_some_iff.1 (Except.ok.inj h)
    exact ⟨n, by rw [State.get, hm, Option.bind_some, hn]⟩

/-- The past leaders are in the DAG, at the rounds looked at. -/
theorem mem_pastLeaders {coin : ℕ → ℕ} (h : Once known s log) : ∀ (rounds : List ℕ)
    {current : Certificate} {ls : List Certificate},
    pastLeaders coin consensus s.dag current rounds = .ok ls →
      (∀ p ∈ ls, p ∈ known) ∧ (ls.map Certificate.round).Sublist rounds
  | [], _, _, hls => by
    cases hls
    exact ⟨fun _ hp => absurd hp List.not_mem_nil, List.Sublist.refl _⟩
  | r :: rounds, current, ls, hls => by
    unfold pastLeaders at hls
    obtain ⟨l, hl, hls⟩ := bind_eq_ok.1 hls
    rcases l with _ | ⟨d, prevLeader⟩
    · exact (mem_pastLeaders h rounds hls).imp_right (List.Sublist.cons r)
    · obtain ⟨b, -, hls⟩ := bind_eq_ok.1 hls
      split_ifs at hls with hb
      · obtain ⟨rest, hrest, hls⟩ := bind_eq_ok.1 hls
        cases hls
        obtain ⟨hmem, hsub⟩ := mem_pastLeaders h rounds hrest
        obtain ⟨n, hn⟩ := get_of_leader hl
        obtain ⟨-, hr, -, hp⟩ := h.sound r n _ hn
        refine ⟨List.forall_mem_cons.2 ⟨hp, hmem⟩, ?_⟩
        rw [List.map_cons, hr]
        exact hsub.cons_cons r
      · exact (mem_pastLeaders h rounds hls).imp_right (List.Sublist.cons r)

/-- The sub-dags of the leaders are committed one after the other. -/
def commitWith (gcDepth : ℕ) (order : Certificate → State → List Certificate) :
    List Certificate → State → State × List Certificate
  | [], state => (state, [])
  | leader :: leaders, state =>
    let ordered := order leader state
    let rest := commitWith gcDepth order leaders
      (ordered.foldl (fun state x => state.update x gcDepth) state)
    (rest.1, ordered ++ rest.2)

omit [Crypto] in
theorem commitWith_narwhal : ∀ (ls : List Certificate) (s : State),
    Narwhal.commitLeaders consensus ls s = commitWith consensus.gcDepth Narwhal.orderDag ls s
  | [], _ => rfl
  | l :: ls, s => by simp only [Narwhal.commitLeaders, commitWith, commitWith_narwhal ls]

omit [Crypto] in
theorem commitWith_bullshark : ∀ (ls : List Certificate) (s : State),
    Bullshark.commitLeaders consensus ls s = commitWith consensus.gcDepth
      (fun leader s => Bullshark.orderDag leader s consensus.gcDepth) ls s
  | [], _ => rfl
  | l :: ls, s => by simp only [Bullshark.commitLeaders, commitWith, commitWith_bullshark ls]

/-- Leaders of increasing rounds, the first above the last committed round. -/
theorem Once.commitWith {order : Certificate → State → List Certificate} (ho : Orders order)
    (hk : ∀ c ∈ known, ∀ d ∈ known, c.digest = d.digest → c = d) (gcDepth : ℕ) :
    ∀ (ls : List Certificate) {s : State} {log : List Certificate}, Once known s log →
      (∀ l ∈ ls, l ∈ known) → (s.lastCommittedRound :: ls.map Certificate.round).Pairwise (· < ·) →
        Once known (NovelDag.commitWith gcDepth order ls s).1
          (log ++ (NovelDag.commitWith gcDepth order ls s).2)
  | [], s, log, h, _, _ => by simpa [NovelDag.commitWith] using h
  | l :: ls, s, log, h, hls, hrounds => by
    obtain ⟨hl, hls⟩ := List.forall_mem_cons.1 hls
    obtain ⟨hlt, hrounds⟩ := List.pairwise_cons.1 hrounds
    obtain ⟨hcommit, hle⟩ := h.commit ho hk gcDepth hl (hlt l.round List.mem_cons_self)
    obtain ⟨hnext, hrest⟩ := List.pairwise_cons.1 hrounds
    have := Once.commitWith ho hk gcDepth ls hcommit hls
      (List.pairwise_cons.2 ⟨fun r hr => hle.trans_lt (hnext r hr), hrest⟩)
    rwa [List.append_assoc] at this

omit [Crypto] in
theorem everyOther_sublist {α : Type*} : ∀ l : List α, (Narwhal.everyOther l).Sublist l
  | [] => List.Sublist.refl _
  | [_] => List.Sublist.refl _
  | a :: b :: l => ((everyOther_sublist l).cons b).cons_cons a

/-- A leader and its past leaders, from the oldest up. -/
theorem Once.commitLeaders {order : Certificate → State → List Certificate} (ho : Orders order)
    (hk : ∀ c ∈ known, ∀ d ∈ known, c.digest = d.digest → c = d) (h : Once known s log)
    {coin : ℕ → ℕ} {leader : Certificate} {past : List Certificate} (gcDepth : ℕ)
    (hl : leader ∈ known) (hr : s.lastCommittedRound < leader.round)
    (hpast : pastLeaders coin consensus s.dag leader
      (Narwhal.pastRounds (s.lastCommittedRound + 2) (leader.round - 2)) = .ok past) :
    Once known (NovelDag.commitWith gcDepth order (leader :: past).reverse s).1
      (log ++ (NovelDag.commitWith gcDepth order (leader :: past).reverse s).2) := by
  obtain ⟨hmem, hsub⟩ := mem_pastLeaders h _ hpast
  have hrounds := hsub.trans (everyOther_sublist _)
  refine Once.commitWith ho hk gcDepth _ h (fun l hl' => ?_) ?_
  · rcases List.mem_cons.1 (List.mem_reverse.1 hl') with rfl | hl'
    · exact hl
    · exact hmem l hl'
  · have hbound : ∀ r ∈ past.map Certificate.round, s.lastCommittedRound < r ∧ r < leader.round :=
      fun r hr => by
        have := List.mem_range'_1.1 (List.mem_reverse.1 (hrounds.subset hr))
        omega
    have hdecr : ((leader :: past).map Certificate.round).Pairwise (· > ·) := by
      rw [List.map_cons]
      refine List.pairwise_cons.2 ⟨fun r hr => (hbound r hr).2, List.Pairwise.sublist hrounds ?_⟩
      exact List.pairwise_reverse.2 (List.pairwise_lt_range' ..)
    rw [List.map_reverse]
    refine List.pairwise_cons.2 ⟨fun r hr' => ?_, List.pairwise_reverse.2 hdecr⟩
    rcases List.mem_cons.1 (List.mem_reverse.1 hr') with rfl | hr'
    · exact hr
    · exact (hbound r hr').1

end Leaders

/-! ## Runs -/

section Runs

variable {consensus : Consensus} {known : List Certificate} {s t : State}
  {log out : List Certificate} {x : Certificate}

theorem Once.narwhal_step (hk : ∀ c ∈ known, ∀ d ∈ known, c.digest = d.digest → c = d)
    (h : Once known (s.insertCertificate x) log)
    (hs : Narwhal.step consensus s x = .ok (t, out)) : Once known t (log ++ out) := by
  have hskip : ∀ {u}, (.ok (u, []) : Except String (State × List Certificate)) = .ok (t, out) →
      u = s.insertCertificate x → Once known t (log ++ out) := by
    rintro u heq rfl
    cases heq
    rwa [List.append_nil]
  unfold Narwhal.step at hs
  split at hs
  · exact hskip hs rfl
  · rename_i r hr
    dsimp only at hs
    split_ifs at hs with h₁ h₂
    · exact hskip hs rfl
    · exact hskip hs rfl
    · obtain ⟨l, hl, hs⟩ := bind_eq_ok.1 hs
      rcases l with _ | ⟨d, leader⟩
      · exact hskip hs rfl
      · dsimp only at hs
        split at hs
        · cases hs
        · split_ifs at hs with h₃
          · exact hskip hs rfl
          · obtain ⟨leaders, hleaders, hs⟩ := bind_eq_ok.1 hs
            obtain ⟨past, hpast, hleaders⟩ := bind_eq_ok.1 hleaders
            obtain rfl := Except.ok.inj hleaders
            obtain ⟨n, hn⟩ := get_of_leader hl
            obtain ⟨-, hround, -, hmem⟩ := h.sound _ n _ hn
            rw [pastLeaders_narwhal] at hpast
            have := h.commitLeaders orders_narwhal hk consensus.gcDepth hmem
              (by rw [hround]; exact not_le.1 h₂) hpast
            rw [← commitWith_narwhal, Except.ok.inj hs] at this
            exact this

theorem Once.bullshark_step (hk : ∀ c ∈ known, ∀ d ∈ known, c.digest = d.digest → c = d)
    (h : Once known (s.insertCertificate x) log)
    (hs : Bullshark.step consensus s x = .ok (t, out)) : Once known t (log ++ out) := by
  have hskip : ∀ {u}, (.ok (u, []) : Except String (State × List Certificate)) = .ok (t, out) →
      u = s.insertCertificate x → Once known t (log ++ out) := by
    rintro u heq rfl
    cases heq
    rwa [List.append_nil]
  unfold Bullshark.step at hs
  split at hs
  · exact hskip hs rfl
  · rename_i r hr
    dsimp only at hs
    split_ifs at hs with h₁ h₂
    · exact hskip hs rfl
    · exact hskip hs rfl
    · obtain ⟨l, hl, hs⟩ := bind_eq_ok.1 hs
      rcases l with _ | ⟨d, leader⟩
      · exact hskip hs rfl
      · dsimp only at hs
        split at hs
        · cases hs
        · split_ifs at hs with h₃
          · exact hskip hs rfl
          · obtain ⟨leaders, hleaders, hs⟩ := bind_eq_ok.1 hs
            obtain ⟨past, hpast, hleaders⟩ := bind_eq_ok.1 hleaders
            obtain rfl := Except.ok.inj hleaders
            obtain ⟨n, hn⟩ := get_of_leader hl
            obtain ⟨-, hround, -, hmem⟩ := h.sound _ n _ hn
            rw [pastLeaders_bullshark] at hpast
            have := h.commitLeaders (orders_bullshark consensus.gcDepth) hk consensus.gcDepth hmem
              (by rw [hround]; exact not_le.1 h₂) hpast
            rw [← commitWith_bullshark, Except.ok.inj hs] at this
            exact this

/-- A machine whose steps keep the invariant sends no digest twice. -/
theorem nodup_run {step : State → Certificate → Option (State × List Certificate)}
    {xs : List Certificate} (hd : Redelivery consensus.committee xs)
    (hpassed : NonePassed (PrefixLog.run step (State.new consensus.genesis)) xs)
    (hstep : ∀ known s t x log out,
      (∀ c ∈ known, ∀ d ∈ known, Certificate.digest c = Certificate.digest d → c = d) →
      Once known (State.insertCertificate s x) log → step s x = some (t, out) →
        Once known t (log ++ out)) :
    ((PrefixLog.run step (State.new consensus.genesis) xs).2.map Certificate.digest).Nodup := by
  obtain ⟨ys, s, hys, hs, hlog⟩ := exists_running step (State.new consensus.genesis) xs
  rw [← hlog]
  refine (run_induction step (P := fun ys s log => Once (consensus.genesis ++ ys) s log)
    ?_ ys ?_ s hs).nodup
  · rw [List.append_nil]
    exact once_new
  · intro zs x s t out hzs hrun h hs
    rw [← List.append_assoc]
    refine hstep _ s t x _ out (fun c hc d hd' => ?_)
      (h.insert (hpassed zs x s (hzs.trans hys) hrun)) hs
    have hsub : consensus.genesis ++ zs ++ [x] <+: consensus.genesis ++ xs := by
      rw [List.append_assoc]
      exact (List.prefix_append_right_inj _).2 (hzs.trans hys)
    exact hd.eq_of_digest (hsub.subset hc) (hsub.subset hd')

/-- Neither protocol sends a digest twice, unless a certificate it has sent comes again below the
last committed round of its author. -/
theorem sent_once {xs : List Certificate} (hd : Redelivery consensus.committee xs) :
    (NonePassed (Narwhal.run consensus) xs →
      ((Narwhal.run consensus xs).2.map Certificate.digest).Nodup) ∧
    (NonePassed (Bullshark.run consensus) xs →
      ((Bullshark.run consensus xs).2.map Certificate.digest).Nodup) :=
  ⟨fun h => nodup_run hd h fun _ _ _ _ _ _ hk hone hs =>
      hone.narwhal_step hk (toOption_eq_some.1 hs),
    fun h => nodup_run hd h fun _ _ _ _ _ _ hk hone hs =>
      hone.bullshark_step hk (toOption_eq_some.1 hs)⟩

end Runs

section Lists

/-- The conditions on a delivery, each for the places of the list. -/
def Redelivered (committee : Committee) (xs : List Certificate) : Prop :=
  (∀ c ∈ xs, 0 < c.round) ∧
    (∀ c ∈ xs, ∀ d ∈ xs, c.round = d.round → c.origin = d.origin → c = d) ∧
    (∀ c ∈ Certificate.genesis committee ++ xs, ∀ d ∈ Certificate.genesis committee ++ xs,
      c.digest = d.digest → c.round = d.round ∧ c.origin = d.origin) ∧
    ∀ i < xs.length, ∀ x ∈ xs[i]?, ∀ d ∈ x.header.parents.toList,
      ∃ p ∈ Certificate.genesis committee ++ xs.take i, p.digest = d

instance (committee : Committee) (xs : List Certificate) : Decidable (Redelivered committee xs) :=
  inferInstanceAs (Decidable (_ ∧ _ ∧ _ ∧ _))

theorem Redelivery.of_list {committee : Committee} {xs : List Certificate}
    (h : Redelivered committee xs) : Redelivery committee xs where
  round := h.1
  slot := h.2.1
  digest := h.2.2.1
  causal := forall_prefix_concat h.2.2.2

/-- What a run has sent does not come again below the last committed round of its author. -/
def KeptAbove (run : List Certificate → Option State × List Certificate) (xs : List Certificate) :
    Prop :=
  ∀ i < xs.length, ∀ x ∈ xs[i]?, ∀ s ∈ (run (xs.take i)).1,
    x ∈ (run (xs.take i)).2 → ∀ q ∈ s.lastCommitted.lookup x.origin, q ≤ x.round

instance (run : List Certificate → Option State × List Certificate) (xs : List Certificate) :
    Decidable (KeptAbove run xs) :=
  inferInstanceAs (Decidable (∀ i < xs.length, ∀ x ∈ xs[i]?, ∀ s ∈ (run (xs.take i)).1,
    x ∈ (run (xs.take i)).2 → ∀ q ∈ s.lastCommitted.lookup x.origin, q ≤ x.round))

omit [Crypto] in
theorem NonePassed.of_list {run : List Certificate → Option State × List Certificate}
    {xs : List Certificate} (h : KeptAbove run xs) : NonePassed run xs := by
  have habove := forall_prefix_concat (P := fun ys x => ∀ s ∈ (run ys).1,
    x ∈ (run ys).2 → ∀ q ∈ s.lastCommitted.lookup x.origin, q ≤ x.round) h
  exact fun ys x s hp => habove ys x hp s

end Lists

end NovelDag

/-! ## Certificates that come again -/

namespace NovelDag

/-- Nobody references author 3 before the leader of round 4 does. -/
def slowDag : List Certificate :=
  letI := toyCrypto
  Certificate.ofTable (Committee.uniform 4)
    [(1, 0, [0, 1, 2]), (1, 1, [0, 1, 2]), (1, 2, [0, 1, 2]),
      (2, 0, [0, 1, 2]), (2, 1, [0, 1, 2]), (2, 2, [0, 1, 2]), (2, 3, [0, 1, 2]),
      (3, 0, [0, 1, 2]), (3, 1, [0, 1, 2]), (3, 2, [0, 1, 2]), (3, 3, [1, 2, 3]),
      (4, 0, [0, 1, 2]), (4, 1, [1, 2, 3]), (4, 2, [0, 1, 2]), (5, 0, [0, 1, 2]),
      (5, 1, [0, 1, 2]), (5, 2, [0, 1, 2]),
      (6, 0, [0, 1, 2]), (6, 1, [0, 1, 2]), (6, 2, [0, 1, 2]), (7, 0, [0, 1, 2])]

/-- The certificate in place `i` comes again once the leader of round 2 is committed. -/
def redelivered (i : ℕ) : List Certificate :=
  (slowDag.drop 4).take 15 ++ (slowDag.drop (4 + i)).take 1 ++ slowDag.drop 19

/-- The leader of round 2, which is at the last committed round, comes again. -/
theorem sent_once_leader :
    letI := toyCrypto
    ((Narwhal.run Narwhal.fourNodes (redelivered 3)).2.map Certificate.digest).Nodup ∧
      ((Bullshark.run Narwhal.fourNodes (redelivered 3)).2.map Certificate.digest).Nodup := by
  let _ := toyCrypto
  have h : Redelivered Narwhal.fourNodes.committee (redelivered 3) ∧
      KeptAbove (Narwhal.run Narwhal.fourNodes) (redelivered 3) ∧
      KeptAbove (Bullshark.run Narwhal.fourNodes) (redelivered 3) := by decide +kernel
  have hsent := sent_once (.of_list h.1)
  exact ⟨hsent.1 (.of_list h.2.1), hsent.2 (.of_list h.2.2)⟩

/-- A certificate of round 1 comes again, and the leader of round 4 sends it a second time. -/
theorem not_sent_once :
    (¬ ∀ [Crypto] (consensus : Consensus) (xs : List Certificate),
      consensus.dagProtocol = .narwhal → Redelivery consensus.committee xs →
        ((Narwhal.run consensus xs).2.map Certificate.digest).Nodup) ∧
      ¬ ∀ [Crypto] (consensus : Consensus) (xs : List Certificate),
        consensus.dagProtocol = .bullshark → Redelivery consensus.committee xs →
          ((Bullshark.run consensus xs).2.map Certificate.digest).Nodup := by
  let _ := toyCrypto
  have hrun : Redelivered Narwhal.fourNodes.committee (redelivered 0) ∧
      ¬ ((Narwhal.run Narwhal.fourNodes (redelivered 0)).2.map Certificate.digest).Nodup ∧
      ¬ ((Bullshark.run { Narwhal.fourNodes with dagProtocol := .bullshark }
        (redelivered 0)).2.map Certificate.digest).Nodup := by decide +kernel
  refine ⟨fun h => hrun.2.1 ?_, fun h => hrun.2.2 ?_⟩
  · exact h Narwhal.fourNodes (redelivered 0) rfl (.of_list hrun.1)
  · exact h { Narwhal.fourNodes with dagProtocol := .bullshark } (redelivered 0) rfl
      (.of_list hrun.1)

end NovelDag
