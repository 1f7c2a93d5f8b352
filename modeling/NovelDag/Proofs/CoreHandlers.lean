import NovelDag.Proofs.CoreTrace

/-!
# The handlers follow the steps

Every function of the core follows the steps of a call, from the functions that call no other up to
the calls themselves, given that the calls they make do.
-/

namespace NovelDag

open Handler

namespace CoreConfig

variable [Crypto] {c : CoreConfig} {g : Given} {mayFail : Prop} {x y : Moment} {n : ℕ}
  {call : CoreCall → CoreTask Unit}

/-- What a call relies on. -/
def CallOk (c : CoreConfig) (g : Given) (x : Moment) : CoreCall → Prop
  | .header h => g.Handles x.core h ∧ (x.core.Own h ∨
      x.core.store = g.start.store ∧ x.core.certificateCache = g.start.certificateCache)
  | .vote v => g.Received v ∨ v ∈ x.core.signedVotes ∧
      ∃ h, (g.Handles x.core h ∨ h ∈ x.targets) ∧ v.id = h.id ∧ c.headerReady x.core h = true
  | .certificate certificate => g.Certifies x certificate ∧ g.Handles x.core certificate.header ∧
      (x.core.Own certificate.header ∨
        x.core.store = g.start.store ∧ x.core.certificateCache = g.start.certificateCache)

/-- When a call may fail with an error of the protocol. -/
def MayFail (c : CoreConfig) (x : Moment) : CoreCall → Prop
  | .header _ => True
  | .vote v => x.core.ownHeaders.lookup v.id = none
  | .certificate certificate => c.headerReady x.core certificate.header = false

/-- The fuel a call needs. -/
def callCost (c : CoreConfig) (s : Core) : CoreCall → ℕ
  | .vote _ => 3 * unused c s + 1
  | .header _ => 3 * unused c s + 2
  | .certificate _ => 3 * unused c s + 3

def CallSpec (c : CoreConfig) (g : Given) (n : ℕ) (call : CoreCall → CoreTask Unit) : Prop :=
  ∀ k x, Tidy c g x.core → CallOk c g x k → callCost c x.core k ≤ n →
    (c.tracing g (MayFail c x k)).Traces x (call k) fun _ _ => True

/-- A moment from which votes can be processed. -/
structure Fit (c : CoreConfig) (g : Given) (n : ℕ) (x : Moment) : Prop where
  tidy : Tidy c g x.core
  cost : 3 * unused c x.core + 1 ≤ n

theorem Fit.steps (h : Fit c g n x) (hs : c.Steps g x y) : Fit c g n y where
  tidy := hs.tidy h.tidy
  cost := by
    have := hs.grows.unused_le
    have := h.cost
    omega

theorem handles_of_steps {h : Header} (hh : g.Handles x.core h) (hs : c.Steps g x y) :
    g.Handles y.core h := by
  unfold Given.Handles Core.Own at *
  rwa [hs.grows.own]

theorem headerReady_of_steps {h : Header} (hr : c.headerReady x.core h = true)
    (hs : c.Steps g x y) : c.headerReady y.core h = true := by
  unfold headerReady at *
  split_ifs at *
  · exact hs.grows.states _ hr
  · exact hs.grows.processing _ hr

omit [Crypto] in
theorem headerReady_of_state {s : Core} {h : Header} (hp : c.dagProtocol = .shortfin)
    (hs : (s.shortfinStates.lookup h.id).isSome) : c.headerReady s h = true := by
  rw [headerReady, if_pos hp]
  exact hs

@[simp] theorem tracing_proj : (c.tracing g mayFail).proj x = x.core := rfl

/-! ## The store -/

theorem iterate_traces {α : Type} (l : List α) :
    (c.tracing g mayFail).Traces x (c.iterate l) fun l' y =>
      (∀ a, a ∈ l' ↔ a ∈ l) ∧ y = x.set { x.core with iterations := x.core.iterations + 1 } :=
  traces_frame (.of_eq rfl) ⟨fun _ => HashOrder.mem_order _, rfl⟩

omit [Crypto] in
/-- A payload is missing only from a header of another node that has one. -/
theorem missingPayloadFor_wp {payloadHeader deliver : Header} {s : Core} {Q : Bool → Core → Prop}
    {E : CoreFault → Core → Prop}
    (hno : ∀ batches iterations, s.batches ⊆ batches →
      c.Paid { s with batches, iterations } payloadHeader → Q false { s with batches, iterations })
    (hyes : payloadHeader.author ≠ c.name → payloadHeader.payload.toList ≠ [] →
      ∀ batches iterations (m : WaiterMessage), s.batches ⊆ batches → m.deliver = deliver →
        Q true (({ s with batches, iterations } : Core).sendHeaderWaiter m)) :
    wp (c.missingPayloadFor payloadHeader deliver) Q E s := by
  unfold missingPayloadFor receivePayloads
  split_ifs with ha
  · exact hno s.batches s.iterations (Finset.Subset.refl _) (.inl ha)
  simp only [wp_bind, wp_modify, wp_get]
  split
  · next hm =>
    refine hno _ _ Finset.subset_union_left (.inr fun batch hb => ?_)
    by_contra hn
    exact List.filter_eq_nil_iff.1 (List.isEmpty_iff.1 hm) batch hb (decide_eq_true hn)
  · next hm =>
    refine hyes ha (fun he => hm ?_) _ _ _ Finset.subset_union_left rfl
    rw [he]
    rfl

theorem missingPayloadFor_traces {payloadHeader deliver : Header}
    (hd : g.Handles x.core deliver) :
    (c.tracing g mayFail).Traces x (c.missingPayloadFor payloadHeader deliver) fun missing y =>
      y.core.headersById = x.core.headersById ∧ y.core.shortfinStates = x.core.shortfinStates ∧
        (missing = false → c.Paid y.core payloadHeader) := by
  refine missingPayloadFor_wp (fun batches iterations hb hpaid => ?_)
    fun _ _ batches iterations m hb hm => ?_
  · exact ⟨x.set { x.core with batches, iterations }, rfl, rel_of_prim (.frame ⟨rfl, hb⟩) rfl, rfl,
      rfl, fun _ => hpaid⟩
  · have hframe : c.Prim g x (x.set { x.core with batches, iterations }) := .frame ⟨rfl, hb⟩
    have hwait : c.Prim g (x.set { x.core with batches, iterations }) (x.set
        (({ x.core with batches, iterations } : Core).sendHeaderWaiter m)) :=
      .waitHeader (by rw [hm]; exact hd)
    exact ⟨_, rfl, ⟨.tail (.single hframe) hwait, settled_of_recorded rfl⟩, rfl, rfl, by simp⟩

/-- The certificates read into the cache, and the parents found. -/
structure ReadFrom (x y : Core) (digests : List Digest) (found : List Certificate)
    (missing : List Digest) : Prop where
  store : y.store = x.store
  cache : ∀ d, y.certificateCache.lookup d = x.certificateCache.lookup d ∨ d ∈ digests ∧
    ∃ certificate, x.store.lookup d = some (.certificate certificate) ∧
      y.certificateCache.lookup d = some certificate
  found : ∀ certificate ∈ found, ∃ d ∈ digests, y.certificateCache.lookup d = some certificate
  complete : missing = [] → ∀ d ∈ digests, (x.store.lookup d).isSome

omit [Crypto] in
theorem ReadFrom.cons {s s' : Core} {digest : Digest} {digests : List Digest}
    {found : List Certificate} {missing : List Digest} {certificate : Certificate}
    (hs : s.store.lookup digest = some (.certificate certificate))
    (h : ReadFrom (s.cacheAt digest certificate) s' digests found missing) :
    ReadFrom s s' (digest :: digests) (certificate :: found) missing := by
  have hcache : ∀ d, (s.cacheAt digest certificate).certificateCache.lookup d =
      if d = digest then some certificate else s.certificateCache.lookup d :=
    fun d => FinMap.lookup_insert_ite _ _ _ _
  have hdigest : s'.certificateCache.lookup digest = some certificate := by
    rcases h.cache digest with hd | ⟨-, certificate', hs', hd⟩
    · rw [hd, hcache, if_pos rfl]
    · have he : s.store.lookup digest = some (.certificate certificate') := hs'
      rw [hs] at he
      cases he
      exact hd
  refine ⟨h.store, fun d => ?_, fun cert hc => ?_, fun hm d hd => ?_⟩
  · by_cases he : d = digest
    · exact .inr ⟨he ▸ List.mem_cons_self, certificate, he ▸ hs, he ▸ hdigest⟩
    · rcases h.cache d with hd | ⟨hd, hs'⟩
      · exact .inl (hd.trans ((hcache d).trans (if_neg he)))
      · exact .inr ⟨List.mem_cons_of_mem _ hd, hs'⟩
  · rcases List.mem_cons.1 hc with rfl | hc
    · exact ⟨digest, List.mem_cons_self, hdigest⟩
    · obtain ⟨d, hd, hl⟩ := h.found cert hc
      exact ⟨d, List.mem_cons_of_mem _ hd, hl⟩
  · rcases List.mem_cons.1 hd with rfl | hd
    · rw [hs, Option.isSome_some]
    · exact h.complete hm d hd

theorem readParents_traces : ∀ (digests : List Digest) {x : Moment},
    (c.tracing g True).Traces x (c.readParents digests) fun r y =>
      ReadFrom x.core y.core digests r.1 r.2
  | [], x => Tracing.pure ⟨rfl, fun _ => .inl rfl, by simp, by simp⟩
  | digest :: digests, x => by
    unfold readParents
    refine traces_get_bind ?_
    rcases hs : x.core.store.lookup digest with _ | header | certificate
    · simp only []
      refine Tracing.bind (readParents_traces digests) fun r y _ hy => ?_
      refine Tracing.pure ⟨hy.store, fun d => ?_, fun cert hc => ?_, by simp⟩
      · exact (hy.cache d).imp_right fun h => ⟨List.mem_cons_of_mem _ h.1, h.2⟩
      · obtain ⟨d, hd, hl⟩ := hy.found cert hc
        exact ⟨d, List.mem_cons_of_mem _ hd, hl⟩
    · simp only []
      exact Tracing.ofThrow ⟨trivial, x, rfl, .refl, settled_of_recorded rfl⟩
    · simp only []
      unfold CoreTask.check
      rcases hv : certificate.verify c.committee c.dagProtocol with e | u
      · exact Tracing.ofThrow ⟨trivial, x, rfl, .refl, settled_of_recorded rfl⟩
      · refine Tracing.bind (P := fun _ y => y = x) (Tracing.pure rfl) fun _ y _ hy => ?_
        rw [hy]
        refine traces_modify_bind (.cache hs hv) ?_
        exact Tracing.bind (readParents_traces digests) fun r z hr hz =>
          Tracing.pure (.cons hs hz)

/-- A certificate that `get_parents` finds outside the store. -/
def Cached (c : CoreConfig) (s : Core) (certificate : Certificate) : Prop :=
  certificate ∈ c.genesis ∨ ∃ d, s.certificateCache.lookup d = some certificate

theorem getParentsOf_traces {digests : List Digest} :
    (c.tracing g True).Traces x (c.getParentsOf digests) fun r y =>
      (∀ certificate, Cached c x.core certificate → Cached c y.core certificate) ∧
      (∀ certificate ∈ r.1, Cached c y.core certificate) ∧
      (r.2 = [] → ∀ d ∈ digests, c.available x.core d) := by
  unfold getParentsOf
  refine traces_get_bind (Tracing.bind (readParents_traces _) fun r y _ hy => Tracing.pure ?_)
  have hkeep : ∀ d certificate, x.core.certificateCache.lookup d = some certificate →
      y.core.certificateCache.lookup d = some certificate := by
    intro d certificate hd
    rcases hy.cache d with h | ⟨hm, -⟩
    · rw [h, hd]
    · have hn := (List.mem_filter.1 hm).2
      simp [cachedParent, hd] at hn
  have hcached : ∀ certificate, Cached c x.core certificate → Cached c y.core certificate :=
    fun certificate => Or.imp_right fun ⟨d, hd⟩ => ⟨d, hkeep d certificate hd⟩
  refine ⟨hcached, fun certificate hc => ?_, fun hm d hd => ?_⟩
  · rcases List.mem_append.1 hc with hc | hc
    · obtain ⟨d, -, hp⟩ := List.mem_filterMap.1 hc
      refine hcached certificate ?_
      rcases Option.or_eq_some_iff.1 hp with h | ⟨-, h⟩
      · exact .inl (List.mem_of_find?_eq_some h)
      · exact .inr ⟨d, h⟩
    · obtain ⟨d, -, hl⟩ := hy.found certificate hc
      exact .inr ⟨d, hl⟩
  · unfold available
    by_cases hp : c.cachedParent x.core d = none
    · have hs := hy.complete hm d (List.mem_filter.2 ⟨hd, by simp [hp]⟩)
      simp [hs]
    · rcases Option.ne_none_iff_exists'.1 hp with ⟨certificate, hp⟩
      rcases Option.or_eq_some_iff.1 hp with h | ⟨-, h⟩
      · have : c.isGenesis d := List.any_eq_true.2 ⟨certificate, List.mem_of_find?_eq_some h,
          by simpa using List.find?_some h⟩
        simp [this]
      · simp [h]

theorem getParents_traces {header : Header} (hh : g.Handles x.core header) :
    (c.tracing g True).Traces x (c.getParents header) fun r y =>
      (∀ certificate ∈ r.1, Cached c y.core certificate) ∧
      (r.1 = [] ∨ ∀ p ∈ header.parents.toList, c.available x.core p) := by
  unfold getParents
  refine Tracing.bind getParentsOf_traces fun r1 y hr hy => ?_
  refine Tracing.bind getParentsOf_traces fun r2 z hr' hz => ?_
  simp only []
  split
  · next hm =>
    have hm : r1.2 = [] := (List.append_eq_nil_iff.1 (List.isEmpty_iff.1 hm)).1
    exact Tracing.pure ⟨fun cert hc => hz.1 cert (hy.2.1 cert hc), .inr (hy.2.2 hm)⟩
  · exact traces_modify_bind (.waitHeader (handles_of_steps hh (hr.1.trans hr'.1)))
      (Tracing.pure ⟨by simp, .inl rfl⟩)

theorem deliverCertificate_traces {certificate : Certificate}
    (hc : g.Certifies x certificate) :
    (c.tracing g mayFail).Traces x (c.deliverCertificate certificate) fun delivered y =>
      y.core.certificateCache = x.core.certificateCache ∧
      (delivered → ∀ p ∈ certificate.header.parents.toList, c.available y.core p) := by
  unfold deliverCertificate
  refine traces_get_bind ?_
  simp only []
  generalize hd : certificate.header.parents.toList ++ _ = digests
  split_ifs with h
  · refine Tracing.pure ⟨rfl, fun _ p hp => ?_⟩
    exact List.all_eq_true.1 h p (hd ▸ List.mem_append_left _ hp)
  · exact traces_modify_bind (.waitCertificate hc) (Tracing.pure ⟨rfl, by simp⟩)

/-! ## Checks -/

theorem check_traces {α : Type} (e : Except DagError α) :
    (c.tracing g True).Traces x (CoreTask.check e) fun _ y => y = x := by
  rcases e with e | a
  · exact Tracing.ofThrow ⟨trivial, x, rfl, .refl, settled_of_recorded rfl⟩
  · exact Tracing.pure rfl

theorem indexRoots_steps : ∀ {roots : List Certificate} {x : Moment},
    (∀ r ∈ roots, Cached c x.core r) → c.Steps g x (x.set (x.core.indexRoots roots))
  | [], _, _ => .refl
  | r :: roots, x, h => by
    have hr : c.Held x.core r := (h r List.mem_cons_self).elim .inl (.inr ∘ .inl)
    have hroots : ∀ r' ∈ roots, Cached c (x.core.indexCertificate r) r' :=
      fun r' hr' => h r' (List.mem_cons_of_mem _ hr')
    exact .head (.index hr) (indexRoots_steps (x := x.set (x.core.indexCertificate r)) hroots)

/-- A query indexes its roots and fills a cache. -/
theorem traces_query {α : Type} {f : Core → α × Core} {roots : List Certificate}
    (hroots : ∀ r ∈ roots, Cached c x.core r)
    (hf : (x.core.indexRoots roots).Frame (f x.core).2) :
    (c.tracing g mayFail).Traces x (modifyGet f) fun _ y =>
      y.core.certificateCache = x.core.certificateCache := by
  have hcache : ∀ (roots : List Certificate) (s : Core),
      (s.indexRoots roots).certificateCache = s.certificateCache := by
    intro roots
    induction roots with
    | nil => exact fun _ => rfl
    | cons r roots ih => exact fun s => ih (s.indexCertificate r)
  refine Tracing.ofModifyGet (T := c.tracing g mayFail) (x.set (f x.core).2) rfl
    ⟨.tail (indexRoots_steps hroots) (.frame hf), settled_of_recorded rfl⟩ ?_
  obtain ⟨_, _, _, _, _, he⟩ := hf.eq
  simp only [Moment.set, he, hcache]

theorem historyAuthors_traces {roots : List Certificate} {round : ℕ}
    (hroots : ∀ r ∈ roots, Cached c x.core r) :
    (c.tracing g mayFail).Traces x
      (modifyGet fun s => s.historyAuthorsAtRoundFromRoots roots round) fun _ y =>
      y.core.certificateCache = x.core.certificateCache := traces_query hroots (.of_eq rfl)

theorem historySupport_traces {roots : List Certificate} {round : ℕ}
    (hroots : ∀ r ∈ roots, Cached c x.core r) :
    (c.tracing g mayFail).Traces x
      (modifyGet fun s => s.historySupportWeightFromRoots c.committee roots round) fun _ y =>
      y.core.certificateCache = x.core.certificateCache := traces_query hroots (.of_eq rfl)

theorem historyContains_frame (s : Core) (roots : List Certificate) (id : Digest)
    (origin : PublicKey) (round : ℕ) :
    (s.indexRoots roots).Frame (s.historyContainsHeaderFromRoots roots id origin round).2 := by
  unfold Core.historyContainsHeaderFromRoots
  simp only []
  split <;> exact .of_eq rfl

theorem checkVoters_traces {header : Header} {parents1 : List Certificate}
    {entry : ℕ × Finset PublicKey} (hroots : ∀ r ∈ parents1, Cached c x.core r) :
    (c.tracing g True).Traces x (c.checkVoters header parents1 entry) fun _ y =>
      y.core.certificateCache = x.core.certificateCache := by
  unfold checkVoters
  refine Tracing.bind (historyAuthors_traces hroots) fun _ y _ hy => ?_
  refine Tracing.bind (check_traces _) fun _ y' _ hy' => ?_
  subst hy'
  have hroots' : ∀ r ∈ parents1, Cached c y'.core r := fun r hr => by
    rw [Cached, hy]
    exact hroots r hr
  refine Tracing.bind (historySupport_traces hroots') fun _ z _ hz => ?_
  refine Tracing.mono (check_traces _) fun _ w _ hw => ?_
  rw [hw, hz, hy]

theorem checkQcHistory_traces {header : Header} {parents1 : List Certificate}
    (hroots : ∀ r ∈ parents1, Cached c x.core r) :
    (c.tracing g True).Traces x (c.checkQcHistory header parents1) fun _ _ => True := by
  unfold checkQcHistory
  split
  · exact Tracing.ofThrow ⟨trivial, x, rfl, .refl, settled_of_recorded rfl⟩
  · refine Tracing.bind (check_traces _) fun _ y _ hy => ?_
    subst hy
    refine Tracing.bind (traces_query hroots (historyContains_frame ..)) fun _ y' _ hy' => ?_
    refine Tracing.bind (check_traces _) fun _ y _ hy => ?_
    subst hy
    refine Tracing.bind (check_traces _) fun _ y _ hy => ?_
    subst hy
    refine Tracing.bind (iterate_traces _) fun entries z _ hz => ?_
    have hroots' : z.core.certificateCache = y.core.certificateCache := by rw [hz.2]; rfl
    refine Tracing.mono (Tracing.forM (P := fun _ w => ∀ r ∈ parents1, Cached c w.core r)
      (fun entry _ w hw => ?_) fun r hr => ?_) fun _ _ _ _ => trivial
    · refine Tracing.mono (checkVoters_traces hw) fun _ v _ hv r hr => ?_
      rw [Cached, hv]
      exact hw r hr
    · rw [Cached, hroots', hy']
      exact hroots r hr

theorem checkParents_traces {header : Header} {parents1 parents2 : List Certificate}
    (hroots : ∀ r ∈ parents1, Cached c x.core r) :
    (c.tracing g True).Traces x (c.checkParents header parents1 parents2) fun _ _ => True := by
  unfold checkParents
  split_ifs
  · exact Tracing.pure trivial
  · split
    · unfold checkShortfin
      refine Tracing.bind (historySupport_traces hroots) fun _ y _ hy => ?_
      refine Tracing.bind (check_traces _) fun _ z _ hz => ?_
      subst hz
      refine Tracing.bind (check_traces _) fun _ w _ hw => ?_
      subst hw
      split_ifs
      · refine checkQcHistory_traces fun r hr => ?_
        rw [Cached, hy]
        exact hroots r hr
      · exact Tracing.pure trivial
    all_goals exact Tracing.mono (check_traces _) fun _ _ _ _ => trivial

/-! ## Voting -/

omit [Crypto] in
theorem wp_expect {Q : Unit → Core → Prop} {E : CoreFault → Core → Prop} {m : CoreTask Unit}
    {msg : String} {s : Core}
    (h : wp m Q (fun e s' => match e with
      | .dag _ => E (.panic msg) s'
      | e => E e s') s) : wp (CoreTask.expect msg m) Q E s := by
  unfold CoreTask.expect
  rw [wp_tryCatch]
  refine wp_mono h (fun _ _ h => h) fun e s' h => ?_
  cases e <;> exact h

/-- What is expected to end well does, or the moments before it tell why not. -/
theorem expect_traces {msg : String} {m : CoreTask Unit} {P : Unit → Moment → Prop}
    (hxy : (c.tracing g False).rel x y) (hm : (c.tracing g mayFail).Traces y m P)
    (hp : mayFail → ∃ z, c.Steps g x z ∧ PanicsAt c g z msg) :
    wp (CoreTask.expect msg m) (fun a s => ∃ z, (c.tracing g False).proj z = s ∧
      (c.tracing g False).rel x z ∧ P a z) (c.Fails g False x) y.core := by
  refine wp_expect (wp_mono hm (fun a s ⟨z, hz, hr, hq⟩ => ?_) fun e s he => ?_)
  · exact ⟨z, hz, (c.tracing g False).trans hxy hr, hq⟩
  · cases e with
    | dag e =>
      obtain ⟨hf, z, hz, hs, -⟩ := he
      exact ⟨⟨z, hz, hxy.1.trans hs⟩, hp hf⟩
    | panic msg =>
      obtain ⟨⟨z, hz, hs⟩, w, hw, ha⟩ := he
      exact ⟨⟨z, hz, hxy.1.trans hs⟩, w, hxy.1.trans hw, ha⟩
    | outOfFuel => exact he

omit [Crypto] in
theorem isMahiMahi_of_shortfin (hp : c.dagProtocol = .shortfin) :
    c.dagProtocol.isMahiMahi = false := by
  rw [hp]
  rfl

theorem voteForHeader_traces (hcall : CallSpec c g n call) (hf : Fit c g n x) {h : Header}
    (hp : c.dagProtocol.isMahiMahi = false) (hh : g.Handles x.core h ∨ h ∈ x.targets)
    (hready : c.headerReady x.core h = true) (hstored : (x.core.store.lookup h.id).isSome)
    (hpaid : c.Paid x.core h) :
    (c.tracing g False).Traces x (c.voteForHeader call h) fun _ _ => True := by
  unfold voteForHeader
  refine traces_get_bind ?_
  by_cases hv : (x.core.votedHeaders.lookup h.id).isSome ∨ x.core.hasVoted h = true
  · rw [if_pos hv]
    exact Tracing.pure trivial
  rw [if_neg hv]
  rw [not_or, Option.not_isSome_iff_eq_none, Bool.not_eq_true] at hv
  simp only []
  -- The two updates are one step, after which the vote is signed.
  generalize (if c.dagProtocol.isShortfinFamily = true then x.core.localRound
    else h.round) = voterRound
  let y := x.set ((x.core.recordVote h).signVote (Vote.new h voterRound c.name))
  have hxy : (c.tracing g False).rel x y := rel_of_prim (.vote hh hv.1 hv.2 hstored hpaid) rfl
  unfold Tracing.Traces
  rw [wp_bind, wp_modify, wp_bind, wp_modify]
  change wp _ _ (c.Fails g False x) y.core
  have horigin : (Vote.new h voterRound c.name).origin = h.author := rfl
  rw [horigin]
  split_ifs with ha hm
  · have hvote : (Vote.new h voterRound c.name).id = h.id := rfl
    have hok : CallOk c g y (.vote (Vote.new h voterRound c.name)) :=
      .inr ⟨List.mem_append_right _ List.mem_cons_self, h,
        hh.imp (handles_of_steps · hxy.1) fun h => hxy.1.grows.targets h, hvote,
        headerReady_of_steps hready hxy.1⟩
    have hy := hf.steps hxy.1
    exact expect_traces hxy (hcall _ y hy.tidy hok hy.cost) fun hn =>
      ⟨x, .refl, .ownVote hp hh ha hn hv.1 hv.2⟩
  · exact Tracing.from_rel hxy (traces_modify (.frame (.of_eq rfl)) trivial)
  · exact ⟨⟨y, rfl, hxy.1⟩, x, .refl, .unknownAuthor hh hm⟩

theorem retryVotes_traces (hcall : CallSpec c g n call) {id : Digest} :
    ∀ {votes : List Vote} {x : Moment}, Fit c g n x → (x.core.ownHeaders.lookup id).isSome →
      (∀ v ∈ votes, v.id = id ∧ g.Received v) →
      (c.tracing g False).Traces x (retryVotes call votes) fun still _ => still ⊆ votes
  | [], x, _, _, _ => Tracing.pure (List.Subset.refl _)
  | v :: votes, x, hf, ho, hv => by
    obtain ⟨hid, hr⟩ := hv v List.mem_cons_self
    have hvotes : ∀ v' ∈ votes, v'.id = id ∧ g.Received v' :=
      fun v' hv' => hv v' (List.mem_cons_of_mem _ hv')
    unfold retryVotes
    refine traces_get_bind ?_
    split_ifs
    · refine Tracing.bind (retryVotes_traces hcall hf ho hvotes) fun still y _ hs => ?_
      exact Tracing.pure (List.cons_subset_cons v hs)
    · have hspec := hcall (.vote v) x hf.tidy (.inl hr) hf.cost
      have hno : ¬ MayFail c x (.vote v) := fun hn => by
        rw [MayFail, hid] at hn
        simp [hn] at ho
      rw [eq_false hno] at hspec
      refine Tracing.bind hspec fun _ y hxy _ => ?_
      have ho' : (y.core.ownHeaders.lookup id).isSome := by rwa [hxy.1.grows.own]
      exact Tracing.mono (retryVotes_traces hcall (hf.steps hxy.1) ho' hvotes)
        fun still z _ hs => List.subset_cons_of_subset v hs

theorem processPendingVotes_traces (hcall : CallSpec c g n call) (hf : Fit c g n x) :
    (c.tracing g False).Traces x (c.processPendingVotes call) fun _ _ => True := by
  unfold processPendingVotes
  refine traces_get_bind (traces_modify_bind .takePending ?_)
  refine Tracing.bind (iterate_traces _) fun entries y hy he => ?_
  have hxy : c.Steps g x y := .trans (.single .takePending) hy.1
  have hentry : ∀ e ∈ entries, (x.core.ownHeaders.lookup e.1).isSome ∧
      ∀ v ∈ e.2, v.id = e.1 ∧ g.Received v := by
    intro e hm
    obtain ⟨e', hm', rfl⟩ := List.mem_map.1 ((he.1 e).1 hm)
    have hl : x.core.pendingVotes.lookup e'.1 = some e'.2 := FinMap.ext_lookup_iff.2 hm'
    obtain ⟨ho, hid⟩ := hf.tidy.pending _ _ hl
    exact ⟨ho, fun v hv => ⟨hid v hv, hf.tidy.received _ _ hl v hv⟩⟩
  refine Tracing.mono (Tracing.forM (P := fun l z => c.Steps g x z ∧ l ⊆ entries)
    (fun e l z hz => ?_) ⟨hxy, List.Subset.refl _⟩) fun _ _ _ _ => trivial
  obtain ⟨ho, hv⟩ := hentry e (hz.2 List.mem_cons_self)
  have ho' : (z.core.ownHeaders.lookup e.1).isSome := by rwa [hz.1.grows.own]
  unfold retryPending
  refine Tracing.bind (retryVotes_traces hcall (hf.steps hz.1) ho' hv) fun still w hw hs => ?_
  have ho'' : (w.core.ownHeaders.lookup e.1).isSome := by rwa [hw.1.grows.own]
  have hl : l ⊆ entries := fun e' he' => hz.2 (List.mem_cons_of_mem _ he')
  by_cases hempty : still.isEmpty
  · refine Tracing.ofModify (T := c.tracing g False) w (by simp [hempty])
      ((c.tracing g False).refl w) ⟨hz.1.trans hw.1, hl⟩
  · have hp : c.Prim g w (w.set { w.core with
        pendingVotes := w.core.pendingVotes.insert e.1 still }) :=
      .keepPending (fun v hv' => hv v (hs hv')) ho''
    exact Tracing.ofModify (T := c.tracing g False) _ (by simp [hempty]) (rel_of_prim hp rfl)
      ⟨(hz.1.trans hw.1).tail hp, hl⟩

/-! ## Signals -/

/-- Indexing a certificate where it is already changes no answer. -/
theorem lookup_indexCertificate {s : Core} {r : Certificate}
    (h : s.certificatesByDigest.lookup r.digest = some r) (d : Digest) :
    (s.indexCertificate r).certificatesByDigest.lookup d = s.certificatesByDigest.lookup d := by
  change (s.certificatesByDigest.insert r.digest r).lookup d = _
  rw [FinMap.lookup_insert_ite]
  split
  · next hd => rw [hd, h]
  · rfl

theorem indexRoots_steps_of_indexed : ∀ {roots : List Certificate} {x : Moment},
    (∀ r ∈ roots, x.core.certificatesByDigest.lookup r.digest = some r) →
      c.Steps g x (x.set (x.core.indexRoots roots)) ∧
      ∀ d, (x.core.indexRoots roots).certificatesByDigest.lookup d =
        x.core.certificatesByDigest.lookup d
  | [], _, _ => ⟨.refl, fun _ => rfl⟩
  | r :: roots, x, h => by
    have hr := h r List.mem_cons_self
    have hl := lookup_indexCertificate hr
    have hroots : ∀ r' ∈ roots,
        (x.core.indexCertificate r).certificatesByDigest.lookup r'.digest = some r' :=
      fun r' hr' => (hl _).trans (h r' (List.mem_cons_of_mem _ hr'))
    obtain ⟨hs, hd⟩ :=
      indexRoots_steps_of_indexed (x := x.set (x.core.indexCertificate r)) hroots
    exact ⟨.head (.index (.inr (.inr ⟨_, hr⟩))) hs, fun d => (hd d).trans (hl d)⟩

theorem carryWeakRef_steps {roots : List Certificate} (parents : SortedSet Digest)
    (slot : ℕ ×ₗ PublicKey ×ₗ Digest)
    (h : ∀ r ∈ roots, x.core.certificatesByDigest.lookup r.digest = some r) :
    c.Steps g x (x.set (carryWeakRef roots (parents, x.core) slot).2) ∧
      ∀ d, (carryWeakRef roots (parents, x.core) slot).2.certificatesByDigest.lookup d =
        x.core.certificatesByDigest.lookup d := by
  unfold carryWeakRef
  simp only []
  split
  · exact ⟨.single .dropWeakRef, fun _ => rfl⟩
  · split
    · exact ⟨.single .dropWeakRef, fun _ => rfl⟩
    · next candidate _ _ =>
      obtain ⟨hs, hd⟩ := indexRoots_steps_of_indexed (c := c) (g := g) h
      have hf := historyContains_frame x.core roots candidate.header.id candidate.origin
        candidate.round
      generalize (x.core.historyContainsHeaderFromRoots roots candidate.header.id
        candidate.origin candidate.round) = p at hf ⊢
      obtain ⟨_, _, _, _, _, he⟩ := hf.eq
      refine ⟨(hs.tail (.frame hf)).tail .dropWeakRef, fun d => ?_⟩
      rw [← hd d]
      simp only [he]

theorem carryWeakRefs_steps {roots : List Certificate} :
    ∀ {slots : List (ℕ ×ₗ PublicKey ×ₗ Digest)} {parents : SortedSet Digest} {x : Moment},
      (∀ r ∈ roots, x.core.certificatesByDigest.lookup r.digest = some r) →
        c.Steps g x (x.set (slots.foldl (carryWeakRef roots) (parents, x.core)).2)
  | [], _, _, _ => .refl
  | slot :: slots, parents, x, h => by
    obtain ⟨hs, hd⟩ := carryWeakRef_steps (c := c) (g := g) parents slot h
    let y := x.set (carryWeakRef roots (parents, x.core) slot).2
    have hy : ∀ r ∈ roots, y.core.certificatesByDigest.lookup r.digest = some r :=
      fun r hr => (hd _).trans (h r hr)
    exact hs.trans (carryWeakRefs_steps (x := y) hy)

theorem mahiParentDigests_steps (o : Orderly c x.core) (strong : List Digest) (round : ℕ) :
    c.Steps g x (x.set (mahiParentDigests x.core strong round).2) := by
  unfold mahiParentDigests
  simp only []
  refine carryWeakRefs_steps fun r hr => ?_
  obtain ⟨d, -, hd⟩ := List.mem_filterMap.1 hr
  rw [o.keyed _ _ hd, hd]

/-- The round that is signalled has a quorum of certificates; what is sent depends on the
protocol. -/
inductive SignalStep (c : CoreConfig) (s : Core) : Core → Prop
  | mahiMahi (byAuthority : FinMap PublicKey Certificate)
      (hb : s.certificatesByRound.lookup s.nextRoundToSignal = some byAuthority)
      (hq : c.committee.quorumThreshold ≤ c.roundWeight byAuthority)
      (hp : c.dagProtocol.isMahiMahi) (parents : List Digest × Core)
      (hd : parents = mahiParentDigests (c.roundDigests s s.nextRoundToSignal).2
        (c.roundDigests s s.nextRoundToSignal).1 s.nextRoundToSignal) :
      SignalStep c s (signalRound parents.2 parents.1 [] none)
  | shortfin (byAuthority : FinMap PublicKey Certificate)
      (hb : s.certificatesByRound.lookup s.nextRoundToSignal = some byAuthority)
      (hq : c.committee.quorumThreshold ≤ c.roundWeight byAuthority)
      (hp : c.dagProtocol = .shortfin) (own : Certificate)
      (ho : byAuthority.lookup c.name = some own) (hv : own.votes ≠ []) :
      SignalStep c s
        { signalRound (c.roundDigests s s.nextRoundToSignal).2
            (c.latestRefDigests (c.roundDigests s s.nextRoundToSignal).2) []
            (some (embeddedQc own)) with
          localRound := max s.localRound (s.nextRoundToSignal + 1) }
  | dualHop (byAuthority : FinMap PublicKey Certificate)
      (hb : s.certificatesByRound.lookup s.nextRoundToSignal = some byAuthority)
      (hq : c.committee.quorumThreshold ≤ c.roundWeight byAuthority)
      (hp : ¬ c.dagProtocol.isMahiMahi ∧ c.dagProtocol ≠ .shortfin) (own : Certificate)
      (ho : byAuthority.lookup c.name = some own) (iterations : ℕ) (parents1 parents2 : List Digest) :
      SignalStep c s
        (signalRound { s with iterations } parents1 parents2 (some (embeddedQc own)))

omit [Crypto] in
theorem isShortfinFamily_iff {p : DagProtocol} : p.isShortfinFamily = true ↔ p = .shortfin := by
  cases p <;> decide

theorem signalStep_cases {s s' : Core} (h : c.signalStep s = some s') : SignalStep c s s' := by
  unfold signalStep at h
  simp only [] at h
  rcases hb : s.certificatesByRound.lookup s.nextRoundToSignal with _ | byAuthority
  · simp [hb] at h
  simp only [hb] at h
  split at h
  · cases h
  next hq =>
  split at h
  · cases h
  split at h
  · next hm =>
    cases h
    exact .mahiMahi byAuthority hb (not_lt.1 hq) hm _ rfl
  next hm =>
  split at h
  · next hp =>
    split at h
    · cases h
    · next own hown =>
      obtain ⟨hl, hv⟩ := Option.filter_eq_some_iff.1 hown
      cases h
      exact .shortfin byAuthority hb (not_lt.1 hq) (isShortfinFamily_iff.1 hp) own hl
        (by simpa using hv)
  · next hp =>
    split at h
    · cases h
    · split at h
      · cases h
      · next own hown =>
        cases h
        exact .dualHop byAuthority hb (not_lt.1 hq)
          ⟨hm, fun h => hp (isShortfinFamily_iff.2 h)⟩ own hown _ _ _

omit [Crypto] in
theorem uncertified_cases {p : DagProtocol} (h : p.isUncertifiedDag = true) :
    p.isMahiMahi = true ∨ p = .shortfin := by
  cases p <;> first | exact .inl rfl | exact .inr rfl | cases h

omit [Crypto] in
theorem uncertified_of_mahiMahi {p : DagProtocol} (h : p.isMahiMahi = true) :
    p.isUncertifiedDag = true := by
  cases p <;> first | rfl | cases h

/-- What is among the parents stays there. -/
theorem subset_carryWeakRefs (roots : List Certificate) :
    ∀ (slots : List (ℕ ×ₗ PublicKey ×ₗ Digest)) (p : SortedSet Digest × Core) {d : Digest},
      d ∈ p.1 → d ∈ (slots.foldl (carryWeakRef roots) p).1
  | [], _, _, hd => hd
  | slot :: slots, p, d, hd => by
    refine subset_carryWeakRefs roots slots _ ?_
    unfold carryWeakRef
    simp only []
    split
    · exact hd
    · split
      · exact hd
      · split
        · exact hd
        · exact SortedSet.mem_insert.2 (.inr hd)

/-- The parents of a Mahi-Mahi block name every certificate of the round. -/
theorem mem_mahiParentDigests {s : Core} {byAuthority : FinMap PublicKey Certificate} {round : ℕ}
    (hb : s.certificatesByRound.lookup round = some byAuthority) {a : PublicKey} {y : Certificate}
    (hy : byAuthority.lookup a = some y) : y.digest ∈ (mahiParentDigests
      (c.roundDigests s round).2 (c.roundDigests s round).1 round).1 := by
  refine SortedSet.mem_def.1 (subset_carryWeakRefs _ _ _ (SortedSet.mem_ofList.2 ?_))
  simp only [roundDigests, hb, Option.getD_some]
  exact c.order.mem_order.2 (List.mem_map_of_mem (FinMap.mem_values.2 ⟨a, hy⟩))

theorem indexRoots_rounds : ∀ (roots : List Certificate) (s : Core),
    (s.indexRoots roots).certificatesByRound = s.certificatesByRound ∧
      (s.indexRoots roots).nextRoundToSignal = s.nextRoundToSignal
  | [], _ => ⟨rfl, rfl⟩
  | r :: roots, s => indexRoots_rounds roots (s.indexCertificate r)

/-- The weak references are looked up without a change to the rounds. -/
theorem carryWeakRefs_rounds (roots : List Certificate) :
    ∀ (slots : List (ℕ ×ₗ PublicKey ×ₗ Digest)) (p : SortedSet Digest × Core),
      (slots.foldl (carryWeakRef roots) p).2.certificatesByRound = p.2.certificatesByRound ∧
        (slots.foldl (carryWeakRef roots) p).2.nextRoundToSignal = p.2.nextRoundToSignal
  | [], _ => ⟨rfl, rfl⟩
  | slot :: slots, p => by
    have hslot : (carryWeakRef roots p slot).2.certificatesByRound = p.2.certificatesByRound ∧
        (carryWeakRef roots p slot).2.nextRoundToSignal = p.2.nextRoundToSignal := by
      unfold carryWeakRef
      simp only []
      split
      · exact ⟨rfl, rfl⟩
      · split
        · exact ⟨rfl, rfl⟩
        · next candidate _ _ =>
          have hf := historyContains_frame p.2 roots candidate.header.id candidate.origin
            candidate.round
          generalize (p.2.historyContainsHeaderFromRoots roots candidate.header.id
            candidate.origin candidate.round) = q at hf ⊢
          obtain ⟨_, _, _, _, _, he⟩ := hf.eq
          simp only [he]
          exact indexRoots_rounds roots p.2
    obtain ⟨hr, hn⟩ := carryWeakRefs_rounds roots slots (carryWeakRef roots p slot)
    exact ⟨hr.trans hslot.1, hn.trans hslot.2⟩

theorem mahiParentDigests_rounds (s : Core) (strong : List Digest) (round : ℕ) :
    (mahiParentDigests s strong round).2.certificatesByRound = s.certificatesByRound ∧
      (mahiParentDigests s strong round).2.nextRoundToSignal = s.nextRoundToSignal :=
  carryWeakRefs_rounds _ _ _

theorem signalStep_steps {s : Core} (hu : c.dagProtocol.isUncertifiedDag = true)
    (o : Orderly c x.core) (h : c.signalStep x.core = some s) : c.Steps g x (x.set s) := by
  have hround : c.Prim g x (x.set (c.roundDigests x.core x.core.nextRoundToSignal).2) :=
    .frame (.of_eq rfl)
  cases signalStep_cases h with
  | mahiMahi byAuthority hb hq hp parents hd =>
    -- What the parents are looked up with leaves the round to signal as it is.
    have hs : c.Steps g x (x.set parents.2) := by
      rw [hd]
      exact .head hround (mahiParentDigests_steps
        (x := x.set (c.roundDigests x.core x.core.nextRoundToSignal).2) { o with } _ _)
    obtain ⟨hr, hn⟩ := mahiParentDigests_rounds (c.roundDigests x.core x.core.nextRoundToSignal).2
      (c.roundDigests x.core x.core.nextRoundToSignal).1 x.core.nextRoundToSignal
    rw [← hd] at hr hn
    refine hs.tail (@Prim.signal _ c g (x.set parents.2) parents.1 [] none byAuthority
      parents.2.localRound
      { uncertified := hu, quorate := hq, parents2 := rfl
        round := by
          rw [Moment.set_core, hr, hn]
          exact hb
        covers := fun _ => ⟨rfl, fun a y hy => hd ▸ mem_mahiParentDigests hb hy⟩
        own := fun he => ?_ })
    rw [he] at hp
    exact absurd hp (by decide)
  | shortfin byAuthority hb hq hp own ho hv =>
    have hcovers : c.dagProtocol.isMahiMahi ≠ true := by
      rw [hp]
      decide
    have hs : c.Signals (c.roundDigests x.core x.core.nextRoundToSignal).2
        (c.latestRefDigests (c.roundDigests x.core x.core.nextRoundToSignal).2) []
        (some (embeddedQc own)) byAuthority :=
      { uncertified := hu, quorate := hq, parents2 := rfl, round := hb
        covers := fun hm => absurd hm hcovers
        own := fun _ => ⟨rfl, own, ho, hv, rfl⟩ }
    exact .tail (.single hround) (.signal hs)
  | dualHop _ _ _ hp =>
    exact absurd (uncertified_cases hu) (not_or.2 hp)

theorem signalLoop_steps (hu : c.dagProtocol.isUncertifiedDag = true) :
    ∀ (fuel : ℕ) {x : Moment}, Tidy c g x.core →
      c.Steps g x (x.set (c.signalLoop fuel x.core))
  | 0, _, _ => .refl
  | fuel + 1, x, t => by
    unfold signalLoop
    rcases hs : c.signalStep x.core with _ | s
    · exact .refl
    · have h := signalStep_steps (g := g) hu t.toOrderly hs
      exact h.trans (signalLoop_steps hu fuel (x := x.set s) (h.tidy t))

theorem trySignalProposer_steps (hu : c.dagProtocol.isUncertifiedDag = true)
    (t : Tidy c g x.core) : c.Steps g x (x.set (c.trySignalProposer x.core)) :=
  signalLoop_steps hu _ t

/-! ## Records -/

theorem loose_modify_bind {α : Type} {Q : α → Moment → Prop} {f : Core → Core}
    {k : PUnit → CoreTask α} (hy : y.core = f x.core) (hs : c.Steps g x y)
    (hk : (c.loose g).Traces y (k ⟨⟩) Q) :
    (c.loose g).Traces x ((modify f : CoreTask PUnit) >>= k) Q := by
  refine Tracing.bind (P := fun _ z => z = y)
    (Tracing.ofModify (T := c.loose g) y hy hs rfl) fun _ z _ hz => ?_
  rw [hz]
  exact hk

theorem loose_modify {Q : PUnit → Moment → Prop} {f : Core → Core} (hy : y.core = f x.core)
    (hs : c.Steps g x y) (hq : Q ⟨⟩ y) : (c.loose g).Traces x (modify f : CoreTask PUnit) Q :=
  Tracing.ofModify (T := c.loose g) y hy hs hq

omit [Crypto] in
/-- The end of a delivery: what was begun before is delivered, and so is this certificate. -/
theorem settled_send {certificate : Certificate} {s s' : Core} {assembled : List Certificate}
    (hy : Settled { x with core := s, recorded := certificate :: x.recorded } y)
    (hs : s' = y.core.sendConsensus certificate) :
    Settled x { y with core := s', assembled } := by
  subst hs
  intro r hr
  rcases hy r hr with h | h
  · rcases List.mem_cons.1 h with rfl | h
    · exact .inr (List.mem_append_right _ List.mem_cons_self)
    · exact .inl h
  · exact .inr (List.mem_append_left _ h)

/-- A record is in the indexes before the votes that waited for it are processed, and sent after. -/
theorem deliverRecord_traces (hcall : CallSpec c g n call) (hf : Fit c g n x)
    (hp : c.dagProtocol = .shortfin) {certificate : Certificate} (he : Emits x.core certificate)
    {isCertificated : Bool} (hq : isCertificated = true →
      x.core.shortfinQcs.lookup certificate.header.id = some certificate.votes) :
    (c.tracing g False).Traces x (c.deliverRecord call certificate isCertificated)
      fun _ _ => True := by
  unfold deliverRecord
  refine tracing_of_loose ?_
  have hrec : c.Prim g x _ := .record hp he
  refine loose_modify_bind (y := { x with
    core := recordCertificate certificate x.core
    recorded := certificate :: x.recorded }) rfl (.single hrec) ?_
  refine Tracing.bind (loose_of_tracing (processPendingVotes_traces hcall (hf.steps (.single hrec))))
    fun _ y hy hset => ?_
  have t : Tidy c g y.core := hy.tidy (hf.steps (.single hrec)).tidy
  have hu : c.dagProtocol.isUncertifiedDag = true := by rw [hp]; rfl
  refine loose_modify_bind rfl (trySignalProposer_steps hu t) ?_
  generalize hz : y.set (c.trySignalProposer y.core) = z
  have hyz : c.Steps g y z := hz ▸ trySignalProposer_steps hu t
  have hmem : certificate ∈ z.recorded := by
    rw [← hz]
    exact hy.grows.recorded List.mem_cons_self
  have hxz : c.Steps g x z := .head hrec (hy.trans hyz)
  have hrecorded : z.recorded = y.recorded := by rw [← hz]; rfl
  refine Tracing.bind (P := fun _ w => c.Steps g z w ∧ w.recorded = z.recorded) ?_
    fun _ w _ hw => ?_
  · by_cases hown : (isCertificated && decide (certificate.origin = c.name)) = true
    · have hsignal : c.Prim g z (z.set (sendQcSignal certificate z.core)) :=
        .qcSignal hmem (hxz.grows.qcs _ _ (hq (Bool.and_eq_true_iff.1 hown).1))
      exact loose_modify (y := z.set (sendQcSignal certificate z.core)) (by simp [hown])
        (.single hsignal) ⟨.single hsignal, rfl⟩
    · exact loose_modify (y := z) (by simp [hown]) .refl ⟨.refl, rfl⟩
  · have hmem' : certificate ∈ w.recorded := by rw [hw.2]; exact hmem
    refine loose_modify (y := w.set (w.core.sendConsensus certificate)) rfl (.single (.send hmem'))
      ⟨trivial, ?_⟩
    have hset : Settled { x with
        core := recordCertificate certificate x.core
        recorded := certificate :: x.recorded } w := by
      intro r hr
      rw [hw.2, hrecorded] at hr
      exact (hset.2 r hr).imp_right fun h => (Steps.grows (hyz.trans hw.1)).sent.subset h
    exact settled_send hset rfl

theorem emitShortfinRecord_traces (hcall : CallSpec c g n call) (hf : Fit c g n x)
    (hp : c.dagProtocol = .shortfin) (id : Digest) :
    (c.tracing g False).Traces x (c.emitShortfinRecord call id) fun _ _ => True := by
  unfold emitShortfinRecord
  refine traces_get_bind ?_
  split
  · next state header hs hh =>
    simp only []
    by_cases hnew : id ∉ x.core.shortfinStructuralSent ∨
      (decide (state = ShortfinBlockState.certificated) = true ∧ id ∉ x.core.shortfinCertifiedSent)
    · rw [if_pos hnew]
      refine traces_modify_bind .markSent ?_
      generalize hv : (if decide (state = ShortfinBlockState.certificated) = true then
        (x.core.shortfinQcs.lookup id).getD [] else []) = votes
      have he : Emits (x.set (x.core.markSent id (decide (state = .certificated)))).core
          { header, votes } := by
        refine ⟨id, Option.isSome_of_eq_some hs, hh, ?_⟩
        change votes = [] ∨ x.core.shortfinQcs.lookup id = some votes
        subst hv
        split
        · rcases x.core.shortfinQcs.lookup id with _ | votes
          · exact .inl rfl
          · exact .inr rfl
        · exact .inl rfl
      refine deliverRecord_traces hcall (hf.steps (.single .markSent)) hp he fun hc => ?_
      have hid : header.id = id := hf.tidy.named _ _ hh
      obtain ⟨qc, hqc⟩ := Option.isSome_iff_exists.1
        (hf.tidy.certified id (hs.trans (congrArg some (of_decide_eq_true hc))))
      change x.core.shortfinQcs.lookup header.id = some votes
      rw [hid, hqc, ← hv, if_pos hc, hqc, Option.getD_some]
    · rw [if_neg hnew]
      exact Tracing.pure trivial
  · exact Tracing.pure trivial

/-! ## Headers -/

theorem resumeHeader_traces (hcall : CallSpec c g n call) (hf : Fit c g n x)
    (hp : c.dagProtocol = .shortfin) {h : Header} (hh : g.Handles x.core h)
    (hs : (x.core.shortfinStates.lookup h.id).isSome) :
    (c.tracing g False).Traces x (c.resumeHeader call h) fun _ _ => True := by
  unfold resumeHeader
  refine traces_get_bind ?_
  split_ifs
  · exact Tracing.pure trivial
  refine Tracing.bind (missingPayloadFor_traces hh) fun missing y hy hpaid => ?_
  split_ifs with hm
  · exact Tracing.pure trivial
  have hpaid := hpaid.2.2 (Bool.eq_false_iff.2 hm)
  have havail : c.Prim g y (y.set (y.core.markShortfinPayloadAvailable h.id)) :=
    .available (handles_of_steps hh hy.1) (hy.1.grows.states _ hs)
  refine traces_modify_bind havail ?_
  have hz : c.Steps g x (y.set (y.core.markShortfinPayloadAvailable h.id)) := hy.1.tail havail
  refine Tracing.bind (voteForHeader_traces hcall (hf.steps hz) (isMahiMahi_of_shortfin hp)
    (.inl (handles_of_steps hh hz)) (headerReady_of_state hp (hz.grows.states _ hs))
    (hz.grows.stored _ (hf.tidy.stored _ hs)) hpaid) fun _ w hw _ => ?_
  exact emitShortfinRecord_traces hcall (hf.steps (hz.trans hw.1)) hp _

theorem makeTargetAvailable_traces (hcall : CallSpec c g n call) (hf : Fit c g n x)
    (hp : c.dagProtocol = .shortfin) {id : Digest} {target : Header}
    (hh : x.core.headersById.lookup id = some target)
    (hs : (x.core.shortfinStates.lookup id).isSome) (hpaid : c.Paid x.core target) :
    (c.tracing g False).Traces x (c.makeTargetAvailable call id target) fun _ _ => True := by
  unfold makeTargetAvailable
  refine traces_get_bind ?_
  split_ifs with havail
  · exact Tracing.pure trivial
  have hbubble : x.core.shortfinStates.lookup id = some .bubble := by
    unfold Core.shortfinPayloadAvailable at havail
    rcases hstate : x.core.shortfinStates.lookup id with _ | (_ | _ | _)
    · simp [hstate] at hs
    · rfl
    · simp [hstate] at havail
    · simp [hstate] at havail
  have htarget := Prim.target (c := c) (g := g) hp hh hbubble
  refine Tracing.bind (P := fun _ y => y = { x with
      core := x.core.markShortfinPayloadAvailable id, targets := target :: x.targets })
    (Tracing.ofModify (T := c.tracing g False) _ rfl (rel_of_prim htarget rfl) rfl)
    fun _ y hxy hy => ?_
  refine voteForHeader_traces hcall (hf.steps hxy.1) (isMahiMahi_of_shortfin hp) (.inr ?_)
    (headerReady_of_state hp ?_) ?_ ?_
  · rw [hy]
    exact List.mem_cons_self
  · rw [hf.tidy.named _ _ hh]
    exact hxy.1.grows.states _ hs
  · rw [hf.tidy.named _ _ hh]
    exact hxy.1.grows.stored _ (hf.tidy.stored _ hs)
  · rw [hy]
    exact hpaid

theorem admitQcTarget_traces (hcall : CallSpec c g n call) (hf : Fit c g n x)
    (hp : c.dagProtocol = .shortfin) {h : Header} (hh : g.Handles x.core h) :
    (c.tracing g True).Traces x (c.admitQcTarget call h) fun _ _ => True := by
  unfold admitQcTarget
  split
  · exact Tracing.pure trivial
  · next qc hqc =>
    refine traces_modify_bind (.embeddedQc hh hqc) (traces_get_bind ?_)
    generalize hy : x.set (x.core.recordShortfinQc qc.target qc.votes) = y
    have hxy : c.Steps g x y := hy ▸ .single (.embeddedQc hh hqc)
    split
    · next target state ht hs =>
      refine Tracing.bind (missingPayloadFor_traces (handles_of_steps hh hxy)) fun missing z hz hn =>
        ?_
      split_ifs with hm
      · exact Tracing.pure trivial
      have hxz := hxy.trans hz.1
      have ht' : z.core.headersById.lookup qc.target = some target := hn.1 ▸ ht
      have hs' := hz.1.grows.states _ (Option.isSome_of_eq_some hs)
      refine traces_weaken ?_
      refine Tracing.bind (makeTargetAvailable_traces hcall (hf.steps hxz) hp ht' hs'
        (hn.2.2 (Bool.eq_false_iff.2 hm))) fun _ w hw _ => ?_
      refine Tracing.bind (emitShortfinRecord_traces hcall (hf.steps (hxz.trans hw.1)) hp _)
        fun _ _ _ _ => Tracing.pure trivial
    · exact Tracing.ofThrow ⟨trivial, y, rfl, .refl, settled_of_recorded rfl⟩

theorem admits_of_steps {h : Header} (ha : c.Admits g x.core h) (hs : c.Steps g x y) :
    c.Admits g y.core h := by
  unfold Admits Core.Own at *
  rwa [hs.grows.own]

theorem admitBubble_traces (hcall : CallSpec c g n call) (hf : Fit c g n x)
    (hp : c.dagProtocol = .shortfin) {h : Header} (hh : g.Handles x.core h)
    (ha : c.Admits g x.core h) :
    (c.tracing g False).Traces x (c.admitBubble call h) fun _ _ => True := by
  unfold admitBubble missingPayload Tracing.Traces
  rw [wp_bind, wp_modify, wp_bind]
  refine missingPayloadFor_wp (fun batches iterations hb hpaid => ?_)
    fun hauthor hpayload batches iterations m hb hm => ?_
  · -- The header has its payload: it is given its state and the payload, and stored, at once.
    have hframe : c.Prim g x (x.set { x.core with batches, iterations }) := .frame ⟨rfl, hb⟩
    have hadmit : c.Prim g (x.set { x.core with batches, iterations }) (x.set
        (((({ x.core with batches, iterations } : Core).orInsertBubble
          h.id).markShortfinPayloadAvailable h.id).storeHeader h)) := .admitted hp hh ha
    have hxy := Relation.ReflTransGen.tail (.single hframe) hadmit
    simp only [Bool.false_eq_true, if_false]
    rw [wp_bind, wp_modify, wp_bind, wp_modify]
    refine Tracing.from_rel (T := c.tracing g False) ⟨hxy, settled_of_recorded rfl⟩ ?_
    refine voteForHeader_traces hcall (hf.steps hxy) (isMahiMahi_of_shortfin hp)
      (.inl (handles_of_steps hh hxy)) (headerReady_of_state hp ?_) (isSome_storeHeader h) hpaid
    simp [Core.markShortfinPayloadAvailable, Core.storeHeader]
  · -- It waits for its payload.
    have hframe : c.Prim g x (x.set { x.core with batches, iterations }) := .frame ⟨rfl, hb⟩
    have hwait : c.Prim g (x.set { x.core with batches, iterations }) (x.set
        (({ x.core with batches, iterations } : Core).sendHeaderWaiter m)) :=
      .waitHeader (by rw [hm]; exact hh)
    have hbubble : c.Prim g (x.set (({ x.core with batches, iterations } : Core).sendHeaderWaiter m))
        (x.set (((({ x.core with batches, iterations } : Core).sendHeaderWaiter m).orInsertBubble
          h.id).storeHeader h)) := .bubble hp hh ha ⟨hauthor, hpayload⟩
    have hxy := (Relation.ReflTransGen.tail (.single hframe) hwait).tail hbubble
    simp only [if_true]
    exact ⟨_, rfl, ⟨hxy, settled_of_recorded rfl⟩, trivial⟩

theorem admitShortfin_traces (hcall : CallSpec c g n call) (hf : Fit c g n x)
    (hp : c.dagProtocol = .shortfin) {h : Header} (hh : g.Handles x.core h)
    (ha : c.Admits g x.core h) :
    (c.tracing g True).Traces x (c.admitShortfin call h) fun _ _ => True := by
  unfold admitShortfin
  refine traces_modify_bind (.insertHeader hh) ?_
  have hy : c.Steps g x (x.set (x.core.insertHeader h)) := .single (.insertHeader hh)
  refine Tracing.bind (admitQcTarget_traces hcall (hf.steps hy) hp (handles_of_steps hh hy))
    fun admitted z hz _ => ?_
  have hxz := hy.trans hz.1
  split_ifs
  · exact traces_weaken (admitBubble_traces hcall (hf.steps hxz) hp (handles_of_steps hh hxz)
      (admits_of_steps ha hxz))
  · exact Tracing.pure trivial

theorem admitHeader_traces (hcall : CallSpec c g n call) (hf : Fit c g n x)
    {h : Header} (hh : g.Handles x.core h) (hready : c.headerReady x.core h = true) :
    (c.tracing g False).Traces x (c.admitHeader call h) fun _ _ => True := by
  unfold admitHeader
  refine Tracing.bind (missingPayloadFor_traces hh) fun missing y hy hpaid => ?_
  split_ifs with hmissing hm
  · exact Tracing.pure trivial
  · exact traces_modify (.storeHeader (handles_of_steps hh hy.1)) trivial
  have hstore := Prim.storeHeader (c := c) (handles_of_steps hh hy.1)
  refine traces_modify_bind hstore ?_
  have hz := hy.1.tail hstore
  exact voteForHeader_traces hcall (hf.steps hz) (Bool.eq_false_iff.2 hm)
    (.inl (handles_of_steps hh hz)) (headerReady_of_steps hready hz) (isSome_storeHeader h)
    (hpaid.2.2 (Bool.eq_false_iff.2 hmissing))

/-- A header that is marked as processed has its parents looked up and is admitted. -/
theorem processMarked_traces (hcall : CallSpec c g n call) (hf : Fit c g n x) {h : Header}
    (hh : g.Handles x.core h) (hstart : x.core.Own h ∨
      x.core.store = g.start.store ∧ x.core.certificateCache = g.start.certificateCache)
    (hmarked : x.core.isProcessing h = true) :
    (c.tracing g True).Traces x (do
      let (parents1, parents2) ← c.getParents h
      if parents1.isEmpty ∧ h.parents ≠ ∅ then pure ()
      else do
        c.checkParents h parents1 parents2
        if c.dagProtocol = .shortfin then c.admitShortfin call h
        else c.admitHeader call h) fun _ _ => True := by
  refine Tracing.bind (getParents_traces hh) ?_
  rintro ⟨parents1, parents2⟩ z hz hr
  dsimp only
  by_cases hsuspended : parents1.isEmpty ∧ h.parents ≠ ∅
  · rw [if_pos hsuspended]
    exact Tracing.pure trivial
  rw [if_neg hsuspended]
  have hparents : ∀ p ∈ h.parents.toList, c.available x.core p := by
    rcases hr.2 with he | ha
    · intro p hp
      refine absurd ⟨List.isEmpty_iff.2 he, fun hempty => ?_⟩ hsuspended
      rw [hempty] at hp
      cases hp
    · exact ha
  have ha : c.Admits g x.core h := hstart.imp_right fun hs p hp => by
    have := hparents p hp
    unfold available at this ⊢
    rwa [hs.1, hs.2] at this
  refine Tracing.bind (checkParents_traces hr.1) fun _ w hw _ => ?_
  have hxw : c.Steps g x w := hz.1.trans hw.1
  split_ifs with hp
  · exact admitShortfin_traces hcall (hf.steps hxw) hp (handles_of_steps hh hxw)
      (admits_of_steps ha hxw)
  · refine traces_weaken (admitHeader_traces hcall (hf.steps hxw) (handles_of_steps hh hxw) ?_)
    rw [headerReady, if_neg hp]
    exact hxw.grows.processing h hmarked

omit [Crypto] in
theorem isProcessing_markProcessing (s : Core) (h : Header) :
    (s.markProcessing h).isProcessing h = true := by
  simp [Core.markProcessing, Core.isProcessing]

theorem processNewHeader_traces (hcall : CallSpec c g n call) (hf : Fit c g n x) {h : Header}
    (hok : CallOk c g x (.header h)) :
    (c.tracing g True).Traces x (c.processNewHeader call h) fun _ _ => True := by
  obtain ⟨hh, hstart⟩ := hok
  have hy : c.Steps g x (x.set (x.core.markProcessing h)) := .single (.processing hh)
  exact traces_modify_bind (.processing hh) (processMarked_traces hcall (hf.steps hy)
    (handles_of_steps hh hy) hstart (isProcessing_markProcessing _ _))

theorem processHeader_traces (hcall : CallSpec c g n call) (hf : Fit c g n x) {h : Header}
    (hok : CallOk c g x (.header h)) :
    (c.tracing g True).Traces x (c.processHeader call h) fun _ _ => True := by
  unfold processHeader
  refine traces_get_bind ?_
  split_ifs with hs
  · exact traces_weaken (resumeHeader_traces hcall hf hs.1 hok.1 hs.2)
  · exact processNewHeader_traces hcall hf hok

/-! ## Votes -/

theorem processVote_traces (hcall : CallSpec c g n call) {v : Vote} (ht : Tidy c g x.core)
    (hok : CallOk c g x (.vote v)) (hcost : 3 * unused c x.core ≤ n) :
    (c.tracing g (MayFail c x (.vote v))).Traces x (c.processVote call v) fun _ _ => True := by
  unfold processVote
  refine traces_get_bind ?_
  split
  · next hn => exact Tracing.ofThrow ⟨hn, x, rfl, .refl, settled_of_recorded rfl⟩
  next h ho =>
  refine traces_weaken ?_
  have happend := Prim.appendVote (c := c) (x := x) ho (hok.imp_right And.left)
  generalize hy : ({ x with
    core := (x.core.appendVote c.committee v h).2
    assembled := (x.core.appendVote c.committee v h).1.toList ++ x.assembled } : Moment) = y
    at happend
  refine Tracing.bind (P := fun assembled y' =>
      assembled = (x.core.appendVote c.committee v h).1 ∧ y' = y)
    (Tracing.ofModifyGet (T := c.tracing g False) y (by rw [← hy]; rfl)
      (rel_of_prim happend (by rw [← hy])) ⟨rfl, rfl⟩) fun assembled y' _ hq => ?_
  obtain ⟨hq, rfl⟩ := hq
  rcases assembled with _ | certificate
  · exact Tracing.pure trivial
  have hown : h.id = v.id := ht.own _ _ ho
  obtain ⟨a, ha⟩ : ∃ a : VotesAggregator, certificate = { header := h, votes := a.votes ++ [v] } := by
    refine ⟨_, (append_eq_some (hq.symm : _ = some certificate) ?_).2.2.2⟩
    rcases hl : x.core.votesAggregators.lookup h.id with _ | a
    · exact c.committee.quorumThreshold_pos
    · exact ht.light _ _ hl
  have hlt : unused c y'.core < unused c x.core := by
    rw [← hy]
    exact unused_appendVote_lt ht.toOrderly ho hq.symm
  -- The certificate is sent to the others, which no index shows.
  have hsend : ∀ z : Moment, z = y'.set (if c.dagProtocol.isUncertifiedDag then y'.core
      else y'.core.send c.others (.certificate certificate)) → c.Prim g y' z := by
    rintro z rfl
    refine .frame ?_
    split <;> exact .of_eq rfl
  refine traces_modify_bind (hsend _ rfl) ?_
  generalize hz : y'.set (if c.dagProtocol.isUncertifiedDag then y'.core
    else y'.core.send c.others (.certificate certificate)) = z
  have hyz := hsend z hz.symm
  have hxz : c.Steps g x z := .tail (.single happend) hyz
  have hOwn : z.core.Own h := by
    rw [Core.Own, hxz.grows.own, hown]
    exact ho
  have hheader : certificate.header = h := by rw [ha]
  have hcert : certificate ∈ z.assembled := by
    refine hyz.grows.assembled ?_
    rw [← hy, ← hq]
    exact List.mem_cons_self
  have hokc : CallOk c g z (.certificate certificate) := by
    rw [CallOk, hheader]
    exact ⟨.inr hcert, .inr hOwn, .inl hOwn⟩
  have hcostc : callCost c z.core (.certificate certificate) ≤ n := by
    have := hyz.grows.unused_le
    change 3 * unused c z.core + 3 ≤ n
    omega
  refine expect_traces ((c.tracing g False).refl z) (hcall _ z (hxz.tidy ht) hokc hcostc)
    fun hn => ⟨z, .refl, ?_⟩
  rw [MayFail, hheader] at hn
  refine .ownCertificate hOwn hown.symm (hok.imp_right ?_) hn
  rintro ⟨-, h', hh', hid, hready⟩
  exact ⟨h', hh'.imp (handles_of_steps · hxz) fun h => hxz.grows.targets h, hid,
    headerReady_of_steps hready hxz⟩

/-! ## Certificates -/

theorem recordBlock_traces (hcall : CallSpec c g n call) (hf : Fit c g n x)
    (hp : c.dagProtocol.isMahiMahi) {certificate : Certificate} (hc : g.Certifies x certificate)
    (ha : ∀ p ∈ certificate.header.parents.toList, c.available x.core p) :
    (c.tracing g False).Traces x (do
      modify (recordCertificate certificate)
      modify fun s => s.recordMahiWeakRef certificate
      c.processPendingVotes call
      modify c.trySignalProposer
      modify fun s => s.sendConsensus certificate) fun _ _ => True := by
  refine tracing_of_loose ?_
  have hrec : c.Prim g x _ := .recordBlock hp hc ha
  refine loose_modify_bind (y := { x with
    core := recordCertificate certificate x.core
    recorded := certificate :: x.recorded }) rfl (.single hrec) ?_
  generalize hw : ({ x with
    core := recordCertificate certificate x.core
    recorded := certificate :: x.recorded } : Moment) = w at hrec
  have hmem : certificate ∈ w.recorded := by rw [← hw]; exact List.mem_cons_self
  have hrecorded : w.recorded = certificate :: x.recorded := by rw [← hw]
  refine loose_modify_bind (y := w.set (w.core.recordMahiWeakRef certificate)) rfl
    (.single (.weakRef hmem)) ?_
  have hxv : c.Steps g x (w.set (w.core.recordMahiWeakRef certificate)) :=
    .tail (.single hrec) (.weakRef hmem)
  refine Tracing.bind (loose_of_tracing (processPendingVotes_traces hcall (hf.steps hxv)))
    fun _ y hy hq => ?_
  have t : Tidy c g y.core := hy.tidy (hf.steps hxv).tidy
  refine loose_modify_bind rfl (trySignalProposer_steps (uncertified_of_mahiMahi hp) t) ?_
  have hmem' : certificate ∈ y.recorded := hy.grows.recorded hmem
  refine loose_modify rfl (.single (.send hmem')) ⟨trivial, ?_⟩
  refine settled_send (y := y.set (c.trySignalProposer y.core)) (s := x.core) (fun r hr => ?_) rfl
  refine (hq.2 r hr).imp (fun h => ?_) fun h =>
    (Steps.grows (trySignalProposer_steps (uncertified_of_mahiMahi hp) t)).sent.subset h
  rw [← hrecorded]
  exact h

/-- A block of a certified DAG is stored, handed to the aggregator and sent. -/
theorem deliver_traces (hp : ¬ c.dagProtocol.isUncertifiedDag) {certificate : Certificate}
    (hc : g.Certifies x certificate)
    (ha : ∀ p ∈ certificate.header.parents.toList, c.available x.core p) {f : Core → Core}
    (hf : c.appendBlock certificate = f) :
    (c.tracing g False).Traces x (do
      modify fun s => s.storeCertificate certificate
      modify f
      modify fun s => s.sendConsensus certificate) fun _ _ => True := by
  unfold Tracing.Traces
  rw [wp_bind, wp_modify, wp_bind, wp_modify, wp_modify, ← hf]
  refine ⟨_, rfl, ⟨.single (.deliver hp hc ha), fun r hr => ?_⟩, trivial⟩
  rcases List.mem_cons.1 hr with rfl | hr
  · exact .inr (List.mem_append_right _ List.mem_cons_self)
  · exact .inl hr

theorem acceptCertificate_traces (hcall : CallSpec c g n call) (hf : Fit c g n x)
    {certificate : Certificate} (hc : g.Certifies x certificate)
    (ha : ∀ p ∈ certificate.header.parents.toList, c.available x.core p) :
    (c.tracing g False).Traces x (c.acceptCertificate call certificate) fun _ _ => True := by
  unfold acceptCertificate
  rcases hp : c.dagProtocol <;> simp only []
  case shortfin => exact emitShortfinRecord_traces hcall hf hp _
  case mahiMahi | mahiMahi4 | mahiMahi5 =>
    exact recordBlock_traces hcall hf (by rw [hp]; decide) hc ha
  case narwhal =>
    exact deliver_traces (by rw [hp]; decide) hc ha (funext fun s => if_pos hp)
  case bullshark | wahoo =>
    exact deliver_traces (by rw [hp]; decide) hc ha (funext fun s => if_neg (by rw [hp]; decide))

theorem learnQc_steps {certificate : Certificate} (hc : g.Certifies x certificate)
    (hh : g.Handles x.core certificate.header) :
    c.Steps g x (x.set (c.learnQc certificate x.core)) := by
  unfold learnQc
  split_ifs with h
  · have hy : c.Prim g x (x.set (x.core.insertHeader certificate.header)) := .insertHeader hh
    exact .tail (.single hy) (.certificateQc (x := x.set _) hc h.2)
  · exact .refl

omit [Crypto] in
theorem learnQc_eq (c : CoreConfig) (certificate : Certificate) (s : Core) : ∃ headers qcs states,
    c.learnQc certificate s =
      { s with headersById := headers, shortfinQcs := qcs, shortfinStates := states } ∧
    ∀ d, (states.lookup d).isSome = (s.shortfinStates.lookup d).isSome := by
  unfold learnQc
  split
  · obtain ⟨states, he, hs⟩ := recordShortfinQc_eq (s.insertHeader certificate.header)
      certificate.header.id certificate.votes
    refine ⟨_, _, states, he, fun d => ?_⟩
    rcases hs d with h | ⟨-, h, h'⟩
    · exact congrArg Option.isSome h
    · exact (congrArg Option.isSome h').trans (congrArg Option.isSome h).symm
  · exact ⟨s.headersById, s.shortfinQcs, s.shortfinStates, rfl, fun _ => rfl⟩

theorem processCertificate_traces (hcall : CallSpec c g n call) (hf : Fit c g n x)
    {certificate : Certificate} (hok : CallOk c g x (.certificate certificate))
    (hcost : 3 * unused c x.core + 2 ≤ n) :
    (c.tracing g (MayFail c x (.certificate certificate))).Traces x
      (c.processCertificate call certificate) fun _ _ => True := by
  obtain ⟨hc, hh, hstart⟩ := hok
  unfold processCertificate
  have hlearn := learnQc_steps (c := c) hc hh
  refine Tracing.bind (P := fun _ y => y = x.set (c.learnQc certificate x.core))
    (Tracing.ofModify (T := c.tracing g _) _ rfl ⟨hlearn, settled_of_recorded rfl⟩ rfl)
    fun _ y _ hy => ?_
  obtain ⟨headers, qcs, states, he, hstates⟩ := learnQc_eq c certificate x.core
  have hcore : y.core = { x.core with
      headersById := headers, shortfinQcs := qcs, shortfinStates := states } := by
    rw [hy, Moment.set_core, he]
  have hxy : c.Steps g x y := hy ▸ hlearn
  have hready : c.headerReady y.core certificate.header =
      c.headerReady x.core certificate.header := by
    unfold headerReady Core.isProcessing
    rw [hcore]
    simp only [hstates]
  have hcy : g.Certifies y certificate := hc.imp_right fun h => hxy.grows.assembled h
  refine Tracing.bind (P := fun _ z => c.Steps g y z) ?_ fun _ z hyz _ => ?_
  · unfold ensureProcessed
    refine traces_get_bind ?_
    by_cases hr : c.headerReady x.core certificate.header = true
    · rw [if_pos (hready.trans hr)]
      exact Tracing.pure .refl
    · rw [hready, if_neg hr]
      have hokh : CallOk c g y (.header certificate.header) := by
        refine ⟨handles_of_steps hh hxy, hstart.imp (fun h => ?_) fun h => ?_⟩
        · rw [Core.Own, hxy.grows.own]
          exact h
        · rw [hcore]
          exact h
      have hmay : MayFail c x (.certificate certificate) = True := by
        rw [MayFail]
        simp [hr]
      have hcosth : callCost c y.core (.header certificate.header) ≤ n := by
        have := hxy.grows.unused_le
        change 3 * unused c y.core + 2 ≤ n
        omega
      rw [hmay]
      exact Tracing.mono (hcall _ y (hxy.tidy hf.tidy) hokh hcosth) fun _ z hz _ => hz.1
  · refine traces_get_bind ?_
    split_ifs
    · exact Tracing.pure trivial
    have hcz : g.Certifies z certificate := hcy.imp_right fun h => hyz.1.grows.assembled h
    refine Tracing.bind (deliverCertificate_traces hcz) fun delivered w hw hd => ?_
    split_ifs with hdel
    · exact traces_weaken (acceptCertificate_traces hcall
        (hf.steps ((hxy.trans hyz.1).trans hw.1)) (hcz.imp_right fun h => hw.1.grows.assembled h)
        (hd.2 hdel))
    · exact Tracing.pure trivial

/-! ## Calls -/

theorem body_traces (hcall : CallSpec c g n call) : CallSpec c g (n + 1) (c.body call) := by
  intro k x ht hok hcost
  cases k with
  | header h =>
    have : 3 * unused c x.core + 2 ≤ n + 1 := hcost
    have hmay : MayFail c x (.header h) = True := rfl
    rw [hmay]
    exact processHeader_traces hcall ⟨ht, by omega⟩ hok
  | vote v =>
    have : 3 * unused c x.core + 1 ≤ n + 1 := hcost
    exact processVote_traces hcall ht hok (by omega)
  | certificate certificate =>
    have : 3 * unused c x.core + 3 ≤ n + 1 := hcost
    exact processCertificate_traces hcall ⟨ht, by omega⟩ hok (by omega)

/-- With enough fuel every call follows the steps. -/
theorem perform_traces : ∀ n, CallSpec c g n (c.perform n)
  | 0 => fun k _ _ _ hcost => by cases k <;> simp [callCost] at hcost
  | n + 1 => body_traces (perform_traces n)

/-- Outside Shortfin a header that is processed is marked, also where its processing fails. -/
theorem perform_header_marks (hp : c.dagProtocol ≠ .shortfin) {s : Core} {h : Header}
    (ht : Tidy c ⟨s, .header h⟩ s) (hcost : 3 * unused c s + 2 ≤ n) :
    wp (c.perform n (.header h)) (fun _ t => t.isProcessing h = true)
      (fun e t => ∀ d, e = .dag d → t.isProcessing h = true) s := by
  obtain ⟨n, rfl⟩ : ∃ m, n = m + 1 := ⟨n - 1, by omega⟩
  change wp (c.processHeader (c.perform n) h) _ _ s
  unfold processHeader processNewHeader
  rw [wp_bind, wp_get, if_neg fun hs => hp hs.1, wp_bind, wp_modify]
  let g : Given := ⟨s, .header h⟩
  let x : Moment := { core := s }
  have hy : c.Steps g x (x.set (s.markProcessing h)) := .single (.processing (.inl rfl))
  have hf : Fit c g n x := ⟨ht, by change 3 * unused c s + 1 ≤ n; omega⟩
  have hmarked := isProcessing_markProcessing s h
  refine wp_mono (processMarked_traces (perform_traces n) (hf.steps hy) (.inl rfl)
    (.inr ⟨rfl, rfl⟩) hmarked) (fun _ t ⟨z, hz, hr, _⟩ => ?_) fun e t he d hd => ?_
  · rw [← hz]
    exact (Steps.grows hr.1).processing h hmarked
  · subst hd
    obtain ⟨-, z, rfl, hs, -⟩ := he
    exact hs.grows.processing h hmarked

end CoreConfig

end NovelDag
