import NovelDag.Proofs.CoreHandlers

/-!
# Turns and runs of the core

Where the headers in the indexes come from, what the loop does with one input, and induction over the
inputs of a run.
-/

namespace NovelDag

open Handler Fallible

/-- The header an input brings, alone or in a certificate. -/
def CoreConfig.Input.Brings : CoreConfig.Input → Header → Prop
  | .message (.header h), k | .headerWaiter h, k | .proposer h, k => k = h
  | .message (.certificate x), k | .certificateWaiter x, k => k = x.header
  | _, _ => False

namespace CoreConfig

variable [Crypto] {c : CoreConfig} {g : Given} {x y : Moment} {K : Header → Prop}

/-! ## Where headers come from -/

/-- Every header the core holds satisfies `K`, and certificates are under their rounds. -/
structure Knows (K : Header → Prop) (s : Core) : Prop where
  own : ∀ id h, s.ownHeaders.lookup id = some h → K h
  named : ∀ id h, s.headersById.lookup id = some h → K h
  cached : ∀ d x, s.certificateCache.lookup d = some x → K x.header
  stored : ∀ d x, s.store.lookup d = some (.certificate x) → K x.header
  indexed : ∀ d x, s.certificatesByDigest.lookup d = some x → K x.header
  ranked : ∀ r byAuthority a x, s.certificatesByRound.lookup r = some byAuthority →
    byAuthority.lookup a = some x → K x.header ∧ x.round = r ∧ x.origin = a
  waiting : ∀ m ∈ s.toHeaderWaiter, K m.deliver
  suspended : ∀ x ∈ s.toCertificateWaiter, K x.header

structure KnowsAt (K : Header → Prop) (x : Moment) : Prop extends Knows K x.core where
  assembled : ∀ a ∈ x.assembled, K a.header
  targets : ∀ h ∈ x.targets, K h

omit [Crypto] in
theorem forall_insert {κ ν : Type} [DecidableEq κ] {m : FinMap κ ν} {k : κ} {v : ν} {P : ν → Prop}
    (hm : ∀ k v, m.lookup k = some v → P v) (hv : P v) (k' : κ) (v' : ν)
    (h : (m.insert k v).lookup k' = some v') : P v' := by
  rw [FinMap.lookup_insert_ite] at h
  split at h
  · exact Option.some.inj h ▸ hv
  · exact hm k' v' h

omit [Crypto] in
theorem forall_insert_header {κ : Type} [DecidableEq κ] {m : FinMap κ Certificate} {k : κ}
    {x : Certificate} (hm : ∀ d x, m.lookup d = some x → K x.header) (hx : K x.header) :
    ∀ d y, (m.insert k x).lookup d = some y → K y.header :=
  forall_insert (P := fun y : Certificate => K y.header) hm hx

omit [Crypto] in
theorem stored_insert {m : FinMap Digest StoreValue} {k : Digest} {v : StoreValue}
    (hm : ∀ d x, m.lookup d = some (.certificate x) → K x.header)
    (hv : ∀ x, v = .certificate x → K x.header) (d : Digest) (x : Certificate)
    (h : (m.insert k v).lookup d = some (.certificate x)) : K x.header := by
  rw [FinMap.lookup_insert_ite] at h
  split at h
  · exact hv x (Option.some.inj h)
  · exact hm d x h

omit [Crypto] in
theorem header_append {committee : Committee} {a : VotesAggregator} {vote : Vote} {header : Header}
    {certificate : Certificate} (h : (a.append committee vote header).1 = some certificate) :
    certificate.header = header := by
  unfold VotesAggregator.append at h
  split at h
  · cases h
  · simp only [] at h
    split at h
    · exact (congrArg Certificate.header (Option.some.inj h)).symm
    · cases h

omit [Crypto] in
theorem ranked_insertByRound {s : Core} {certificate : Certificate}
    (hs : ∀ r byAuthority a x, s.certificatesByRound.lookup r = some byAuthority →
      byAuthority.lookup a = some x → K x.header ∧ x.round = r ∧ x.origin = a)
    (hc : K certificate.header) (r : ℕ) (byAuthority : FinMap PublicKey Certificate) (a : PublicKey)
    (x : Certificate)
    (hr : (s.insertByRound certificate).certificatesByRound.lookup r = some byAuthority)
    (ha : byAuthority.lookup a = some x) : K x.header ∧ x.round = r ∧ x.origin = a := by
  simp only [Core.insertByRound, FinMap.lookup_alter] at hr
  split at hr
  · next he =>
    subst he
    obtain rfl := Option.some.inj hr
    rw [FinMap.lookup_insert_ite] at ha
    split at ha
    · next hauthor =>
      obtain rfl := Option.some.inj ha
      exact ⟨hc, rfl, hauthor.symm⟩
    · rcases hl : s.certificatesByRound.lookup certificate.round with _ | old
      · rw [hl] at ha
        simp at ha
      · rw [hl] at ha
        exact hs _ _ _ _ hl ha
  · exact hs _ _ _ _ hr ha

theorem Knows.recordCertificate {s : Core} (k : Knows K s) {certificate : Certificate}
    (hc : K certificate.header) : Knows K (recordCertificate certificate s) := by
  rw [recordCertificate_eq]
  exact { k with
    named := forall_insert k.named hc
    cached := forall_insert_header k.cached hc
    stored := stored_insert k.stored fun x he => StoreValue.certificate.inj he ▸ hc
    indexed := forall_insert_header k.indexed hc
    ranked := ranked_insertByRound k.ranked hc }

/-- A step brings no header that was not given. -/
theorem Prim.knows (hgenesis : ∀ p ∈ c.genesis, K p.header) (hgiven : ∀ h, g.call.Gives h → K h)
    (h : c.Prim g x y) (k : KnowsAt K x) : KnowsAt K y := by
  have handled : ∀ {h : Header}, g.Handles x.core h → K h := fun hh =>
    hh.elim (hgiven _) fun ho => k.own _ _ ho
  have certified : ∀ {certificate : Certificate}, g.Certifies x certificate →
      K certificate.header := fun hc =>
    hc.elim (fun hg => hgiven _ (by rw [hg]; rfl)) fun ha => k.assembled _ ha
  have appended : ∀ {α : Type} {l : List α} {a : α} {P : α → Prop}, (∀ b ∈ l, P b) → P a →
      ∀ b ∈ l ++ [a], P b := fun hl ha b hb =>
    (List.mem_append.1 hb).elim (hl b) fun hb => List.mem_singleton.1 hb ▸ ha
  cases h with
  | frame h =>
    obtain ⟨_, _, _, _, _, rfl⟩ := h.eq
    exact { k with }
  | cache hs _ =>
    exact { k with cached := forall_insert_header k.cached (k.stored _ _ hs) }
  | waitHeader hh => exact { k with waiting := appended k.waiting (handled hh) }
  | waitCertificate hc => exact { k with suspended := appended k.suspended (certified hc) }
  | @index certificate hc =>
    have hk : K certificate.header := by
      rcases hc with hc | ⟨d, hc⟩ | ⟨d, hc⟩
      · exact hgenesis _ hc
      · exact k.cached d _ hc
      · exact k.indexed d _ hc
    exact { k with
      named := forall_insert k.named hk
      indexed := forall_insert_header k.indexed hk }
  | insertHeader hh => exact { k with named := forall_insert k.named (handled hh) }
  | embeddedQc | certificateQc =>
    obtain ⟨_, he, _⟩ := recordShortfinQc_eq x.core _ _
    rw [he]
    exact { k with }
  | target _ hl => exact { k with targets := List.forall_mem_cons.2 ⟨k.named _ _ hl, k.targets⟩ }
  | storeHeader | bubble | admitted =>
    exact { k with stored := stored_insert k.stored (by simp) }
  | appendVote ho =>
    refine { k with assembled := fun a ha => ?_ }
    rcases List.mem_append.1 ha with ha | ha
    · rw [header_append (Option.mem_toList.1 ha)]
      exact k.own _ _ ho
    · exact k.assembled a ha
  | record _ he =>
    obtain ⟨id, -, hl, -⟩ := he
    exact { k.toKnows.recordCertificate (k.named id _ hl) with
      assembled := k.assembled, targets := k.targets }
  | recordBlock _ hc =>
    exact { k.toKnows.recordCertificate (certified hc) with
      assembled := k.assembled, targets := k.targets }
  | @deliver certificate _ hc =>
    obtain ⟨_, _, _, he⟩ := appendBlock_eq (c := c) certificate (x.core.storeCertificate certificate)
    rw [he]
    exact { k with
      stored := stored_insert k.stored fun x he =>
        StoreValue.certificate.inj he ▸ certified hc }
  | @weakRef certificate =>
    obtain ⟨_, he⟩ := recordMahiWeakRef_eq x.core certificate
    rw [he]
    exact { k with }
  | @qcSignal certificate =>
    obtain ⟨_, _, he⟩ := sendQcSignal_eq certificate x.core
    rw [he]
    exact { k with }
  | _ => exact { k with }

theorem Steps.knows (hgenesis : ∀ p ∈ c.genesis, K p.header) (hgiven : ∀ h, g.call.Gives h → K h)
    (h : c.Steps g x y) (k : KnowsAt K x) : KnowsAt K y := by
  induction h with
  | refl => exact k
  | tail _ hp ih => exact hp.knows hgenesis hgiven ih

/-! ## Turns -/

/-- An input passes the check that is made before it is handled. -/
def Passes (c : CoreConfig) (s : Core) : Input → Prop
  | .message (.header h) => c.sanitizeHeader s h = .ok ()
  | .message (.vote v) => c.sanitizeVote s v = .ok ()
  | .message (.certificate x) => c.sanitizeCertificate s x = .ok ()
  | .message _ => False
  | _ => True

omit [Crypto] in
/-- The calls an input is handed to. -/
def Input.Calls : Input → CoreCall → Prop
  | .message (.header h), k | .headerWaiter h, k | .proposer h, k =>
    k = .header h ∨ k = .certificate { header := h, votes := [] }
  | .message (.vote v), k => k = .vote v
  | .message (.certificate x), k | .certificateWaiter x, k => k = .certificate x
  | _, _ => False

omit [Crypto] in
/-- The state an input is handled in. -/
def receive (c : CoreConfig) (s : Core) : Input → Core
  | .proposer h => c.startOwnHeader h s
  | _ => s

/-- What the loop does with an input before it cleans up. -/
inductive Act (c : CoreConfig) (s₀ : Core) (i : Input) : Core → Core → Prop
  | call {s k y} (hk : i.Calls k) (hp : c.Passes s₀ i) (h : c.Steps ⟨s, k⟩ { core := s } y)
      (hs : Settled { core := s } y) : Act c s₀ i s y.core
  | pend {s v} (hi : i = .message (.vote v)) (hp : c.sanitizeVote s₀ v = .ok ())
      (ho : (s.ownHeaders.lookup v.id).isSome) (hv : s.votePending v) :
      Act c s₀ i s (s.cachePendingVote v)
  | send {s targets m} : Act c s₀ i s (s.send targets m)

/-- How far the loop may have come with an input. -/
abbrev Acts (c : CoreConfig) (s₀ : Core) (i : Input) : Core → Core → Prop :=
  Relation.ReflTransGen (c.Act s₀ i)

/-- A turn of the loop that ends well. A header of ours was processed in it, whatever came of it. -/
inductive Turn (c : CoreConfig) (s : Core) : Input → Core → Prop
  | clock {r} : Turn c s (.consensusRound r) { s with consensusRound := r }
  | handle {i u} (h : c.Acts s i (c.receive s i) u)
      (hm : ∀ h, i = .proposer h → c.dagProtocol ≠ .shortfin → u.isProcessing h = true) :
      Turn c s i (c.cleanupStep u)

/-- Where a turn of the loop panics, and with which message. -/
inductive Halts (c : CoreConfig) (s₀ : Core) (i : Input) (s : Core) : String → Core → Prop
  | unexpected {m t} (hi : i = .message m) (hm : ∀ k, ¬ i.Calls k) (hs : c.Acts s₀ i s t) :
      Halts c s₀ i s "Unexpected core message" t
  | call {t k y z msg} (hs : c.Acts s₀ i s t) (hk : i.Calls k) (hp : c.Passes s₀ i)
      (hy : c.Steps ⟨t, k⟩ { core := t } y) (hz : c.Steps ⟨t, k⟩ { core := t } z)
      (hpanic : PanicsAt c ⟨t, k⟩ z msg) : Halts c s₀ i s msg y.core
  | storage {t} (hs : c.Acts s₀ i s t) : Halts c s₀ i s "Storage failure: killing node." t

/-- How the handling of an input follows its acts. -/
def acting (c : CoreConfig) (s₀ : Core) (i : Input) : Tracing CoreFault Core Core where
  proj := id
  rel := c.Acts s₀ i
  fails s e t := match e with
    | .dag _ => c.Acts s₀ i s t
    | .panic msg => c.Halts s₀ i s msg t
    | .outOfFuel => False
  refl _ := .refl
  trans := Relation.ReflTransGen.trans
  fails_of_rel {s t e u} h hf := by
    cases e with
    | dag e => exact h.trans hf
    | panic msg =>
      cases hf with
      | unexpected hi hm hs => exact .unexpected hi hm (h.trans hs)
      | call hs hk hp hy hz hpanic => exact .call (h.trans hs) hk hp hy hz hpanic
      | storage hs => exact .storage (h.trans hs)
    | outOfFuel => exact hf

section Acting

variable {s₀ s t : Core} {i : Input}

theorem Orderly.tidy (o : Orderly c s) (k : CoreCall) : Tidy c ⟨s, k⟩ s :=
  { o with received := fun _ _ hl _ hv => .inr ⟨_, _, hl, hv⟩ }

theorem Act.orderly (h : c.Act s₀ i s t) (o : Orderly c s) : Orderly c t := by
  cases h with
  | call _ _ h _ => exact (h.tidy (o.tidy _)).toOrderly
  | @pend v _ _ ho _ =>
    refine { o with pending := fun id votes hl => ?_ }
    simp only [Core.cachePendingVote, FinMap.lookup_alter] at hl
    split at hl
    · next hid =>
      subst hid
      refine ⟨ho, fun w hw => ?_⟩
      rw [← Option.some.inj hl] at hw
      rcases List.mem_append.1 hw with hw | hw
      · rcases hp : s.pendingVotes.lookup v.id with _ | old
        · rw [hp] at hw
          cases hw
        · rw [hp] at hw
          exact (o.pending _ _ hp).2 w hw
      · rw [List.mem_singleton.1 hw]
    · exact o.pending _ _ hl
  | send => exact { o with }

theorem Act.own (h : c.Act s₀ i s t) : t.ownHeaders = s.ownHeaders := by
  cases h with
  | call _ _ h _ => exact h.grows.own
  | pend | send => rfl

/-- An act changes neither the round of consensus nor the round cleaned up to. -/
theorem Act.rounds (h : c.Act s₀ i s t) :
    t.gcRound = s.gcRound ∧ t.consensusRound = s.consensusRound := by
  cases h with
  | call _ _ h _ => exact ⟨h.grows.gcRound, h.grows.consensusRound⟩
  | pend | send => exact ⟨rfl, rfl⟩

theorem Acts.rounds (h : c.Acts s₀ i s t) :
    t.gcRound = s.gcRound ∧ t.consensusRound = s.consensusRound := by
  induction h with
  | refl => exact ⟨rfl, rfl⟩
  | tail _ ha ih => exact ⟨ha.rounds.1.trans ih.1, ha.rounds.2.trans ih.2⟩

theorem Acts.orderly (h : c.Acts s₀ i s t) (o : Orderly c s) : Orderly c t := by
  induction h with
  | refl => exact o
  | tail _ ha ih => exact ha.orderly ih

theorem Acts.own (h : c.Acts s₀ i s t) : t.ownHeaders = s.ownHeaders := by
  induction h with
  | refl => rfl
  | tail _ ha ih => exact ha.own.trans ih

omit [Crypto] in
theorem receive_rounds (s : Core) (i : Input) : (c.receive s i).gcRound = s.gcRound ∧
    (c.receive s i).consensusRound = s.consensusRound := by
  cases i <;> exact ⟨rfl, rfl⟩

theorem Orderly.receive (o : Orderly c s) (i : Input) : Orderly c (c.receive s i) := by
  cases i with
  | proposer h =>
    refine { o with
      own := fun id k hk => ?_, pending := fun id votes hl => ?_, light := fun id a ha => ?_ }
    · simp only [CoreConfig.receive, startOwnHeader, FinMap.lookup_insert_ite] at hk
      split at hk
      · next hid => rw [hid, ← Option.some.inj hk]
      · exact o.own _ _ hk
    · exact ⟨isSome_insert (o.pending _ _ hl).1, (o.pending _ _ hl).2⟩
    · simp only [CoreConfig.receive, startOwnHeader, FinMap.lookup_alter] at ha
      split at ha
      · rw [← Option.some.inj ha]
        rcases hl : s.votesAggregators.lookup h.id with _ | old
        · exact c.committee.quorumThreshold_pos
        · exact o.light _ _ hl
      · exact o.light _ _ ha
  | _ => exact o

omit [Crypto] in
/-- The fuel is enough for every call of a turn. -/
theorem callCost_le (hown : s.ownHeaders = (c.receive s₀ i).ownHeaders) (k : CoreCall) :
    callCost c s k ≤ c.fuel s₀ := by
  have hlen : s.ownHeaders.entries.length ≤ s₀.ownHeaders.entries.length + 1 := by
    rw [hown]
    cases i with
    | proposer h =>
      change (s₀.ownHeaders.insert h.id h).entries.length ≤ _
      rw [AList.entries_insert]
      exact Nat.succ_le_succ (List.kerase_sublist _ _).length_le
    | _ => exact Nat.le_succ _
  have hunused : unused c s ≤ (s₀.ownHeaders.entries.length + 1) * c.committee.size :=
    (unused_le s).trans (Nat.mul_le_mul_right _ hlen)
  unfold fuel
  cases k <;> simp only [callCost] <;> omega

theorem call_acts {k : CoreCall} (o : Orderly c s)
    (hown : s.ownHeaders = (c.receive s₀ i).ownHeaders) (hk : i.Calls k) (hp : c.Passes s₀ i) :
    (c.acting s₀ i).Traces s (c.perform (c.fuel s₀) k) fun _ _ => True := by
  have hok : CallOk c ⟨s, k⟩ { core := s } k := by
    cases k with
    | header h => exact ⟨.inl rfl, .inr ⟨rfl, rfl⟩⟩
    | vote v => exact .inl (.inl rfl)
    | certificate x => exact ⟨.inl rfl, .inl rfl, .inr ⟨rfl, rfl⟩⟩
  refine wp_mono (perform_traces (g := ⟨s, k⟩) (c.fuel s₀) k { core := s } (o.tidy k) hok
    (callCost_le hown k)) (fun _ t ⟨y, hy, h, _⟩ => ?_) fun e t he => ?_
  · subst hy
    exact ⟨y.core, rfl, .single (.call hk hp h.1 h.2), trivial⟩
  · cases e with
    | dag e =>
      obtain ⟨-, y, rfl, h, hs⟩ := he
      exact .single (.call hk hp h hs)
    | panic msg =>
      obtain ⟨⟨y, rfl, hy⟩, z, hz, hpanic⟩ := he
      exact .call .refl hk hp hy hz hpanic
    | outOfFuel => exact he

theorem check_acts (e : Except DagError Unit) :
    (c.acting s₀ i).Traces s (CoreTask.check e) fun _ t => t = s ∧ e = .ok () := by
  rcases e with e | ⟨⟩
  · exact Tracing.ofThrow .refl
  · exact Tracing.pure ⟨rfl, rfl⟩

theorem maybeSynthesize_acts {h : Header} (o : Orderly c s)
    (hown : s.ownHeaders = (c.receive s₀ i).ownHeaders)
    (hk : i.Calls (.certificate { header := h, votes := [] })) (hp : c.Passes s₀ i) :
    (c.acting s₀ i).Traces s (c.maybeSynthesizeUncertifiedCert (c.perform (c.fuel s₀)) h)
      fun _ _ => True := by
  unfold maybeSynthesizeUncertifiedCert
  refine Tracing.get_bind ?_
  split_ifs
  · exact Tracing.pure trivial
  · unfold CoreTask.logged Tracing.Traces
    rw [wp_tryCatch]
    refine wp_mono (call_acts o hown hk hp) (fun _ _ h => h) fun e u he => ?_
    cases e with
    | dag e => exact ⟨u, rfl, he, trivial⟩
    | panic msg => exact he
    | outOfFuel => exact he

theorem handleHeader_acts {h : Header} (o : Orderly c s)
    (hown : s.ownHeaders = (c.receive s₀ i).ownHeaders)
    (hk : ∀ k, k = .header h ∨ k = .certificate { header := h, votes := [] } → i.Calls k)
    (hp : c.Passes s₀ i) :
    (c.acting s₀ i).Traces s (c.handleHeader (c.perform (c.fuel s₀)) h) fun _ _ => True :=
  Tracing.bind (call_acts o hown (hk _ (.inl rfl)) hp) fun _ _ hst _ =>
    maybeSynthesize_acts (hst.orderly o) (hst.own.trans hown) (hk _ (.inr rfl)) hp

theorem Act.processing (h : c.Act s₀ i s t) {header : Header} (hm : s.isProcessing header = true) :
    t.isProcessing header = true := by
  cases h with
  | call _ _ h _ => exact h.grows.processing header hm
  | pend | send => exact hm

theorem Acts.processing (h : c.Acts s₀ i s t) {header : Header}
    (hm : s.isProcessing header = true) : t.isProcessing header = true := by
  induction h with
  | refl => exact hm
  | tail _ ha ih => exact ha.processing ih

/-- Outside Shortfin a header of ours is marked as processed, also where its processing fails. -/
theorem processOwnHeader_marks {h : Header} (hp : c.dagProtocol ≠ .shortfin) (o : Orderly c s) :
    wp (c.processOwnHeader (c.perform (c.fuel s)) h) (fun _ t => t.isProcessing h = true)
      (fun e t => ∀ d, e = .dag d → t.isProcessing h = true) s := by
  have o' := o.receive (.proposer h)
  have hcost : callCost c (c.receive s (.proposer h)) (.header h) ≤ c.fuel s :=
    callCost_le (i := .proposer h) rfl (.header h)
  have hcall := wp_and (call_acts (i := .proposer h) (k := .header h) o' rfl (.inl rfl) trivial)
    (perform_header_marks hp (o'.tidy (.header h)) hcost)
  unfold processOwnHeader handleHeader
  rw [wp_bind, wp_modify, wp_bind, wp_bind]
  refine wp_mono hcall (fun _ t ht => ?_) fun _ _ he => he.2
  obtain ⟨⟨_, rfl, hst, -⟩, hm⟩ := ht
  refine wp_mono (maybeSynthesize_acts (i := .proposer h) (h := h) (hst.orderly o') hst.own
    (.inr rfl) trivial) (fun _ u hu => ?_) fun e u he d hd => ?_
  · obtain ⟨_, rfl, htu, -⟩ := hu
    exact htu.processing hm
  · subst hd
    exact Acts.processing he hm

theorem handleMessage_acts {m : PrimaryMessage} (o : Orderly c s) :
    (c.acting s (.message m)).Traces s (c.handleMessage (c.perform (c.fuel s)) m)
      fun _ _ => True := by
  cases m with
  | header h =>
    refine Tracing.get_bind (Tracing.bind (check_acts _) fun _ t _ ht => ?_)
    obtain ⟨rfl, hp⟩ := ht
    exact handleHeader_acts o rfl (fun _ => id) hp
  | vote v =>
    refine Tracing.get_bind (Tracing.bind (check_acts _) fun _ t _ ht => ?_)
    obtain ⟨rfl, hp⟩ := ht
    have hcall := call_acts (i := .message (.vote v)) (k := .vote v) o rfl rfl hp
    split_ifs
    · unfold processVoteWhenCountable
      refine Tracing.get_bind ?_
      split_ifs with hv
      · have ho : (t.ownHeaders.lookup v.id).isSome := by
          change c.sanitizeVote t v = .ok () at hp
          rcases hl : t.ownHeaders.lookup v.id with _ | h
          · unfold sanitizeVote at hp
            rw [hl] at hp
            obtain ⟨_, -, hp⟩ := bind_eq_ok.1 hp
            cases hp
          · rfl
        exact Tracing.ofModify _ rfl (.single (.pend rfl hp ho hv)) trivial
      · exact hcall
    · exact hcall
  | certificate x =>
    refine Tracing.get_bind (Tracing.bind (check_acts _) fun _ t _ ht => ?_)
    obtain ⟨rfl, hp⟩ := ht
    exact call_acts o rfl rfl hp
  | _ => exact Tracing.ofThrow (.unexpected rfl (fun _ => id) .refl)

theorem dispatch_spec (o : Orderly c s) : wp (c.dispatch (c.perform (c.fuel s)) i)
    (fun _ t => c.Acts s i (c.receive s i) t) ((c.acting s i).fails (c.receive s i)) s := by
  have ends : ∀ {m : CoreTask Unit} {u : Core}, (c.acting s i).Traces u m (fun _ _ => True) →
      wp m (fun _ t => c.Acts s i u t) ((c.acting s i).fails u) u := fun h =>
    wp_mono h (fun _ _ ⟨_, hy, hr, _⟩ => hy ▸ hr) fun _ _ he => he
  cases i with
  | message m => exact ends (handleMessage_acts o)
  | headerWaiter h => exact ends (handleHeader_acts o rfl (fun _ => id) trivial)
  | certificateWaiter x => exact ends (call_acts o rfl rfl trivial)
  | proposer h =>
    change wp (do modify (c.startOwnHeader h); _) _ _ _
    rw [wp_bind, wp_modify]
    exact ends (Tracing.bind (handleHeader_acts (o.receive (.proposer h)) rfl (fun _ => id) trivial)
      fun _ _ _ _ => Tracing.ofModify _ rfl (.single .send) trivial)
  | consensusRound r => exact .refl

/-- Outside Shortfin an own header is marked when it has been dispatched, well or not. -/
theorem dispatch_marks (o : Orderly c s) : wp (c.dispatch (c.perform (c.fuel s)) i)
    (fun _ t => ∀ h, i = .proposer h → c.dagProtocol ≠ .shortfin → t.isProcessing h = true)
    (fun e t => ∀ d, e = .dag d → ∀ h, i = .proposer h → c.dagProtocol ≠ .shortfin →
      t.isProcessing h = true) s := by
  by_cases hi : ∃ h, i = .proposer h ∧ c.dagProtocol ≠ .shortfin
  · obtain ⟨h, rfl, hp⟩ := hi
    refine wp_mono (processOwnHeader_marks hp o) (fun _ t ht h' he _ => ?_)
      fun e t ht d hd h' he _ => ?_
    · exact Input.proposer.inj he ▸ ht
    · exact Input.proposer.inj he ▸ ht d hd
  · unfold wp
    split
    · exact fun h he hp => absurd ⟨h, he, hp⟩ hi
    · exact fun _ _ h he hp => absurd ⟨h, he, hp⟩ hi

/-- A turn ends well or panics, and what it does before it cleans up are acts. -/
theorem handleInput_spec (o : Orderly c s) (i : Input) :
    wp (c.handleInput i) (fun _ t => c.Turn s i t)
      (fun e t => ∃ msg, e = .panic msg ∧ c.Halts s i (c.receive s i) msg t) s := by
  have handles : wp (do
      let s ← get
      handleResult (c.dispatch (c.perform (c.fuel s)) i)
      modify c.cleanupStep : CoreTask Unit) (fun _ t => c.Turn s i t)
      (fun e t => ∃ msg, e = .panic msg ∧ c.Halts s i (c.receive s i) msg t) s := by
    rw [wp_bind, wp_get, wp_bind]
    unfold handleResult
    rw [wp_tryCatch]
    refine wp_mono (wp_and (dispatch_spec o) (dispatch_marks o))
      (fun _ t h => .handle h.1 h.2) fun e t he => ?_
    obtain ⟨he, hm⟩ := he
    cases e with
    | dag e =>
      have hs : c.Acts s i (c.receive s i) t := he
      cases e with
      | storeError => exact ⟨_, rfl, .storage hs⟩
      | _ => exact .handle hs (hm _ rfl)
    | panic msg => exact ⟨msg, rfl, he⟩
    | outOfFuel => exact he.elim
  cases i with
  | consensusRound r => exact .clock
  | _ => exact handles

theorem Orderly.cleanup (o : Orderly c s) (gcRound : ℕ) : Orderly c (cleanup gcRound s) := by
  have kept : ∀ {κ ν : Type} [DecidableEq κ] {m : FinMap κ ν} {p : κ → ν → Bool} {k : κ} {v : ν},
      (m.retain p).lookup k = some v → m.lookup k = some v := fun h =>
    (FinMap.lookup_retain_eq_some.1 h).1
  refine ⟨fun id h hl => o.own id h (kept hl), fun id votes hl => ?_,
    fun id a ha => o.light id a (kept ha), fun d x hx => o.keyed d x (kept hx),
    fun id h hl => o.named id h (kept hl), fun id hs => ?_, fun id hs => ?_⟩
  · obtain ⟨hl, hown⟩ := FinMap.lookup_retain_eq_some.1 hl
    exact ⟨hown, (o.pending id votes hl).2⟩
  · obtain ⟨hs, hlive⟩ := FinMap.lookup_retain_eq_some.1 hs
    obtain ⟨votes, hvotes⟩ := Option.isSome_iff_exists.1 (o.certified id hs)
    exact Option.isSome_of_eq_some (FinMap.lookup_retain_eq_some.2 ⟨hvotes, hlive⟩)
  · obtain ⟨state, hs⟩ := Option.isSome_iff_exists.1 hs
    exact o.stored id (Option.isSome_of_eq_some (kept hs))

theorem Orderly.cleanupStep (o : Orderly c s) : Orderly c (c.cleanupStep s) := by
  unfold CoreConfig.cleanupStep
  split_ifs
  · exact o.cleanup _
  · exact o

theorem Turn.orderly (h : c.Turn s i t) (o : Orderly c s) : Orderly c t := by
  cases h with
  | clock => exact { o with }
  | handle h _ => exact (h.orderly (o.receive i)).cleanupStep

theorem orderly_init : Orderly c c.init := by
  refine ⟨by simp [init], by simp [init], by simp [init], fun d x hx => ?_, by simp [init],
    by simp [init], by simp [init]⟩
  obtain ⟨g, -, he⟩ := List.mem_map.1 (FinMap.mem_of_lookup_ofList hx)
  cases he
  rfl

omit [Crypto] in
theorem Input.brings_of_calls {k : CoreCall} (hk : i.Calls k) {h : Header} (hg : k.Gives h) :
    i.Brings h := by
  cases i with
  | message m =>
    cases m with
    | header h' => rcases hk with rfl | rfl <;> exact hg
    | certificate x =>
      obtain rfl : k = .certificate x := hk
      exact hg
    | vote v =>
      obtain rfl : k = .vote v := hk
      exact hg
    | _ => exact hk.elim
  | headerWaiter h' | proposer h' => rcases hk with rfl | rfl <;> exact hg
  | certificateWaiter x =>
    obtain rfl : k = .certificate x := hk
    exact hg
  | consensusRound r => exact hk.elim

theorem Knows.act (hgenesis : ∀ p ∈ c.genesis, K p.header) (hgiven : ∀ h, i.Brings h → K h)
    (h : c.Act s₀ i s t) (k : Knows K s) : Knows K t := by
  cases h with
  | call hk _ h _ =>
    have k' : KnowsAt K { core := s } := { k with assembled := by simp, targets := by simp }
    exact (h.knows hgenesis (fun h hg => hgiven h (Input.brings_of_calls hk hg)) k').toKnows
  | pend | send => exact { k with }

theorem Knows.acts (hgenesis : ∀ p ∈ c.genesis, K p.header) (hgiven : ∀ h, i.Brings h → K h)
    (h : c.Acts s₀ i s t) (k : Knows K s) : Knows K t := by
  induction h with
  | refl => exact k
  | tail _ ha ih => exact ih.act hgenesis hgiven ha

omit [Crypto] in
theorem Knows.receive (hgiven : ∀ h, i.Brings h → K h) (k : Knows K s) :
    Knows K (c.receive s i) := by
  cases i with
  | proposer h => exact { k with own := forall_insert k.own (hgiven h rfl) }
  | _ => exact k

omit [Crypto] in
/-- What is live after a clean-up is a certificate of a round that is kept. -/
theorem exists_live {gcRound : ℕ} {p : Certificate → Bool}
    (h : ((s.certificatesByRound.retain fun k _ => decide (gcRound ≤ k)).values.flatMap
      FinMap.values).any p = true) : ∃ r byAuthority a x, gcRound ≤ r ∧
        s.certificatesByRound.lookup r = some byAuthority ∧ byAuthority.lookup a = some x ∧ p x := by
  obtain ⟨x, hx, hp⟩ := List.any_eq_true.1 h
  obtain ⟨byAuthority, hb, hx⟩ := List.mem_flatMap.1 hx
  obtain ⟨r, hr⟩ := FinMap.mem_values.1 hb
  obtain ⟨a, ha⟩ := FinMap.mem_values.1 hx
  obtain ⟨hr, hle⟩ := FinMap.lookup_retain_eq_some.1 hr
  exact ⟨r, byAuthority, a, x, of_decide_eq_true hle, hr, ha, hp⟩

theorem Knows.cleanup (k : Knows K s) (gcRound : ℕ) : Knows K (cleanup gcRound s) := by
  have kept : ∀ {κ ν : Type} [DecidableEq κ] {m : FinMap κ ν} {p : κ → ν → Bool} {k : κ} {v : ν},
      (m.retain p).lookup k = some v → m.lookup k = some v := fun h =>
    (FinMap.lookup_retain_eq_some.1 h).1
  exact { k with
    own := fun id h hl => k.own id h (kept hl)
    named := fun id h hl => k.named id h (kept hl)
    indexed := fun d x hl => k.indexed d x (kept hl)
    ranked := fun r m a x hr ha => k.ranked r m a x (kept hr) ha }

theorem Knows.cleanupStep (k : Knows K s) : Knows K (c.cleanupStep s) := by
  unfold CoreConfig.cleanupStep
  split_ifs
  · exact k.cleanup _
  · exact k

theorem knows_init (hgenesis : ∀ p ∈ c.genesis, K p.header) : Knows K c.init := by
  have hmem : ∀ {d : Digest} {x : Certificate},
      (FinMap.ofList (c.genesis.map fun g => (g.digest, g))).lookup d = some x → x ∈ c.genesis := by
    intro d x hx
    obtain ⟨g, hg, he⟩ := List.mem_map.1 (FinMap.mem_of_lookup_ofList hx)
    cases he
    exact hg
  refine ⟨by simp [init], by simp [init], fun d x hx => hgenesis x (hmem hx), by simp [init],
    fun d x hx => hgenesis x (hmem hx), fun r m a x hr ha => ?_, by simp [init], by simp [init]⟩
  obtain ⟨rfl, rfl⟩ := Prod.mk.inj (List.mem_singleton.1 (FinMap.mem_of_lookup_ofList hr))
  obtain ⟨g, hg, he⟩ := List.mem_map.1 (FinMap.mem_of_lookup_ofList ha)
  obtain ⟨rfl, rfl⟩ := Prod.mk.inj he
  refine ⟨hgenesis g hg, ?_, rfl⟩
  obtain ⟨name, -, rfl⟩ := List.mem_map.1 hg
  rfl

end Acting

/-! ## Runs -/

section Runs

variable {P : Core → Input → Prop} {I : Core → Prop} {s t : Core} {i : Input}

/-- A condition holds of every input of a run and the state it comes in. -/
def Throughout (c : CoreConfig) (P : Core → Input → Prop) (inputs : List Input) : Prop :=
  ∀ before i after s, inputs = before ++ i :: after → c.run before = (.ok (), s) → P s i

theorem Throughout.nil : c.Throughout P [] := fun before i after s he =>
  absurd he.symm (by simp)

/-- A condition that holds throughout a run also does with one more input it holds of. -/
theorem Throughout.concat {inputs : List Input} (h : c.Throughout P inputs)
    (hi : P (c.run inputs).2 i) : c.Throughout P (inputs ++ [i]) := by
  intro before j after s he hrun
  rcases List.eq_nil_or_concat after with rfl | ⟨after, k, rfl⟩
  · obtain ⟨rfl, hj⟩ := List.append_inj' he rfl
    rw [← List.singleton_inj.1 hj]
    rw [hrun] at hi
    exact hi
  · have he' : inputs ++ [i] = (before ++ j :: after) ++ [k] := by
      rw [he, List.concat_eq_append, List.append_assoc, List.cons_append]
    exact h before j after s (List.append_inj' he' rfl).1 hrun

theorem run_append_singleton {before : List Input} {i : Input} {s : Core}
    (h : c.run before = (.ok (), s)) : c.run (before ++ [i]) = exec (c.handleInput i) s := by
  rw [run, exec_forM_append h]
  exact congrArg (exec · s) (bind_pure _)

/-- What holds at first and is kept by every turn holds throughout a run; where the run ends early,
what the last turn leaves. -/
theorem run_induction {E : CoreFault → Core → Prop} (h0 : I c.init)
    (hturn : ∀ s i t, Orderly c s → I s → P s i → c.Turn s i t → I t)
    (hhalt : ∀ s i msg t, Orderly c s → I s → P s i → c.Halts s i (c.receive s i) msg t →
      E (.panic msg) t) {inputs : List Input} (h : c.Throughout P inputs) :
    wp (inputs.forM c.handleInput) (fun _ => I) E c.init := by
  let J (l : List Input) (s : Core) : Prop := Orderly c s ∧ I s ∧
    ∃ before, inputs = before ++ l ∧ c.run before = (.ok (), s)
  refine wp_mono (wp_forM (J := J) (fun i l s ⟨o, hi, before, he, hrun⟩ => ?_)
    ⟨orderly_init, h0, [], rfl, rfl⟩) (fun _ s hs => hs.2.1) fun _ _ he => he
  have hp := h before i l s he hrun
  have hspec := handleInput_spec o i
  have hnext := run_append_singleton (i := i) hrun
  unfold wp at hspec ⊢
  rcases hx : exec (c.handleInput i) s with ⟨e | ⟨⟩, t⟩ <;> rw [hx] at hspec hnext
  · obtain ⟨msg, rfl, hhalts⟩ := hspec
    exact hhalt s i msg t o hi hp hhalts
  · exact ⟨hspec.orderly o, hturn s i t o hi hp hspec, before ++ [i], by simp [he], hnext⟩

/-- What every part of a turn keeps. -/
structure Kept (c : CoreConfig) (P : Core → Input → Prop) (I : Core → Prop) : Prop where
  steps : ∀ {s i t k y}, P s i → c.Acts s i (c.receive s i) t → Orderly c t → i.Calls k →
    c.Passes s i → c.Steps ⟨t, k⟩ { core := t } y → I t → I y.core
  pend : ∀ {s} v, I s → I (s.cachePendingVote v)
  send : ∀ {s} targets m, I s → I (s.send targets m)
  receive : ∀ {s i}, P s i → I s → I (c.receive s i)
  cleanup : ∀ {s}, I s → I (c.cleanupStep s)
  clock : ∀ {s r}, P s (.consensusRound r) → I s → I { s with consensusRound := r }

theorem Kept.acts (h : c.Kept P I) (hp : P s i) (o : Orderly c s) (hs : I s)
    (ha : c.Acts s i (c.receive s i) t) : I t := by
  induction ha with
  | refl => exact h.receive hp hs
  | @tail u _ ha hact ih =>
    have ha : c.Acts s i (c.receive s i) u := ha
    cases hact with
    | call hk hpass hsteps _ => exact h.steps hp ha (ha.orderly (o.receive i)) hk hpass hsteps ih
    | pend => exact h.pend _ ih
    | send => exact h.send _ _ ih

theorem Kept.turn (h : c.Kept P I) (hi : P s i) (o : Orderly c s) (hs : I s) (ht : c.Turn s i t) :
    I t := by
  cases ht with
  | clock => exact h.clock hi hs
  | handle ha _ => exact h.cleanup (h.acts hi o hs ha)

theorem Kept.halts {msg : String} (h : c.Kept P I) (hi : P s i) (o : Orderly c s) (hs : I s)
    (ht : c.Halts s i (c.receive s i) msg t) : I t := by
  cases ht with
  | unexpected _ _ ha | storage ha => exact h.acts hi o hs ha
  | call ha hk hpass hy _ _ =>
    exact h.steps hi ha (ha.orderly (o.receive i)) hk hpass hy (h.acts hi o hs ha)

/-- What every part of a turn keeps holds after a turn, also after one that panics. -/
theorem Kept.input (h : c.Kept P I) (hi : P s i) (o : Orderly c s) (hs : I s) :
    I (exec (c.handleInput i) s).2 := by
  refine wp_exec (wp_mono (handleInput_spec o i) (fun _ t ht => h.turn hi o hs ht) fun e t he => ?_)
  obtain ⟨msg, -, hhalts⟩ := he
  exact h.halts hi o hs hhalts

/-- What every part of a turn keeps holds at the end of every run, also of one that panics. -/
theorem Kept.run (h : c.Kept P I) (h0 : I c.init) {inputs : List Input}
    (hp : c.Throughout P inputs) : I (c.run inputs).2 :=
  wp_exec (run_induction (E := fun _ t => I t) h0 (fun _ _ _ o hs hi ht => h.turn hi o hs ht)
    (fun _ _ _ _ o hs hi ht => h.halts hi o hs ht) hp)

theorem run_orderly {inputs : List Input} (h : c.run inputs = (.ok (), s)) : Orderly c s := by
  have hall : c.Throughout (fun _ _ => True) inputs := fun _ _ _ _ _ _ => trivial
  have hrun := run_induction (c := c) (I := Orderly c) (E := fun _ _ => True) orderly_init
    (fun _ _ _ o _ _ ht => ht.orderly o) (fun _ _ _ _ _ _ _ _ => trivial) hall
  unfold wp at hrun
  rw [show exec (inputs.forM c.handleInput) c.init = (.ok (), s) from h] at hrun
  exact hrun

/-- A turn only adds to the signals, also one that panics. -/
theorem input_signals (o : Orderly c s) (i : Input) :
    s.toProposer <+: (exec (c.handleInput i) s).2.toProposer := by
  have hkept : c.Kept (fun _ _ => True) fun t => s.toProposer <+: t.toProposer := by
    refine ⟨fun _ _ _ _ _ hy ht => ht.trans hy.grows.signals, fun _ ht => ht, fun _ _ ht => ht,
      fun {u i} _ ht => ?_, fun {u} ht => ?_, fun _ ht => ht⟩
    · cases i with
      | _ => exact ht
    · unfold CoreConfig.cleanupStep
      split_ifs
      · exact ht
      · exact ht
  exact hkept.input trivial o List.prefix_rfl

/-- The messages the core panics with. -/
def panics : List String :=
  ["Unexpected core message", "Failed to process our own vote",
    "Author of valid header is not in the committee", "Failed to process valid certificate",
    "Storage failure: killing node."]

/-- The functions that await each other return: a run handles all its inputs or ends in one of five
panics, whatever it is given. -/
theorem run_ends (c : CoreConfig) (inputs : List Input) : (c.run inputs).1 = .ok () ∨
    ∃ msg ∈ panics, (c.run inputs).1 = .error (.panic msg) := by
  have hall : c.Throughout (fun _ _ => True) inputs := fun _ _ _ _ _ _ => trivial
  have h := run_induction (c := c) (I := fun _ => True)
    (E := fun e _ => ∃ msg ∈ panics, e = .panic msg) trivial (fun _ _ _ _ _ _ _ => trivial)
    (fun _ _ msg _ _ _ _ hh => ⟨msg, ?_, rfl⟩) hall
  · unfold wp at h
    unfold CoreConfig.run
    rcases hx : exec (inputs.forM c.handleInput) c.init with ⟨e | ⟨⟩, t⟩ <;> rw [hx] at h
    · obtain ⟨msg, hmsg, rfl⟩ := h
      exact .inr ⟨msg, hmsg, rfl⟩
    · exact .inl rfl
  · cases hh with
    | unexpected => simp [panics]
    | call _ _ _ _ _ hp => cases hp <;> simp [panics]
    | storage => simp [panics]

/-- A node of a committee of four. -/
def nodeOfFour (dagProtocol : DagProtocol) : CoreConfig where
  name := 0
  committee := .uniform 4
  dagProtocol
  gcDepth := 50
  order := HashOrder.entryOrder
  payloads _ := ∅

/-- A header on the genesis certificates of four. -/
def headerOfFour (author : PublicKey) (payload : SortedMap Digest ℕ) : Header :=
  let header : Header :=
    { author, round := 1, payload
      parents := SortedSet.ofList ((Certificate.genesis (.uniform 4)).map Certificate.digest) }
  { header with id := header.digest, signature := Crypto.sign author header.digest }

end Runs

end CoreConfig

end NovelDag
