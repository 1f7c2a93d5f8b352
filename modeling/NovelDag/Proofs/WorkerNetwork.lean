import NovelDag.WorkerNetwork
import NovelDag.Proofs.Worker

/-!
# Batches are available

What a worker reports to its primary as its own batch, workers that with the Byzantine ones make a
quorum have stored, or received and queued for the processor.
-/

namespace NovelDag

namespace WorkerNetwork

open WorkerConfig

variable [Crypto] [Bincode]

variable {n : WorkerNetwork} {s s' : PublicKey → Worker} {turns : List (PublicKey × Event)}
  {a : PublicKey}

/-! ## Runs -/

section Runs

/-- The events of one worker. -/
def eventsOf (a : PublicKey) (turns : List (PublicKey × Event)) : List Event :=
  (turns.filter fun turn => decide (turn.1 = a)).map Prod.snd

theorem step_eq_some {turn : PublicKey × Event} (h : n.step s turn = some s') :
    n.possible s turn.1 turn.2 = true ∧
      ∃ t, (n.worker turn.1).step (s turn.1) turn.2 = some t ∧ s' = Function.update s turn.1 t := by
  unfold step at h
  split_ifs at h with hp
  obtain ⟨t, ht, h⟩ := Option.bind_eq_some_iff.1 h
  exact ⟨hp.2, t, ht, (Option.some.inj h).symm⟩

/-- In a run of the network each worker runs on its own events. -/
theorem run_worker (h : n.run turns = some s) (a : PublicKey) :
    (n.worker a).run (eventsOf a turns) = some (s a) := by
  refine Runs.foldlM_some_induction (P := fun turns s => ∀ a,
    (n.worker a).run (eventsOf a turns) = some (s a)) (fun _ => rfl)
    (fun before turn s s' hs ht a => ?_) h a
  obtain ⟨-, t, hworker, rfl⟩ := step_eq_some ht
  unfold eventsOf
  rw [List.filter_append, List.map_append]
  by_cases ha : turn.1 = a
  · subst ha
    rw [Function.update_self]
    have hone : ([turn].filter fun u => decide (u.1 = turn.1)).map Prod.snd = [turn.2] := by simp
    rw [hone]
    exact Runs.foldlM_concat_eq_some.2 ⟨s turn.1, hs turn.1, hworker⟩
  · have hnone : ([turn].filter fun u => decide (u.1 = a)).map Prod.snd = [] := by simp [ha]
    rw [hnone, List.append_nil, Function.update_of_ne (Ne.symm ha)]
    exact hs a

end Runs

/-! ## Acknowledgements -/

section Acknowledgements

variable {c : WorkerConfig} {w w' : Worker} {event : Event}

/-- A batch that was acknowledged has gone to the processor. -/
def Accepted (w : Worker) : Prop := ∀ bytes ∈ w.acknowledged, ∀ transactions,
  Bincode.deserialize bytes = some (.ok (.batch transactions)) → bytes ∈ w.othersBatches.all

/-- What was acknowledged stays, and goes on to the processor. -/
def Acknowledging (w w' : Worker) : Prop :=
  w.acknowledged ⊆ w'.acknowledged ∧ (Accepted w → Accepted w')

omit [Crypto] in
theorem acknowledging_of_eq (hack : w'.acknowledged = w.acknowledged)
    (hall : w'.othersBatches.all = w.othersBatches.all) : Acknowledging w w' := by
  refine ⟨hack ▸ fun _ hb => hb, fun h bytes hb transactions hread => ?_⟩
  rw [hall]
  exact h bytes (hack ▸ hb) transactions hread

omit [Crypto] in
theorem acknowledging_dispatch (serialized : List UInt8) (w : Worker) :
    Acknowledging w (dispatch serialized w) := by
  have hall : ∀ bytes ∈ w.othersBatches.all, bytes ∈ (dispatch serialized w).othersBatches.all := by
    intro bytes hb
    rcases dispatch_cases serialized w with ⟨_, -, he⟩ | ⟨_, _, -, he⟩ | he
    · rw [he, Channel.all_send]
      exact List.mem_append_left _ hb
    · rwa [he]
    · rwa [he]
  obtain ⟨_, _, he⟩ := dispatch_eq serialized w
  have hack : (dispatch serialized w).acknowledged = w.acknowledged ++ [serialized] := by rw [he]
  refine ⟨hack ▸ List.subset_append_left _ _, fun h bytes hb transactions hread => ?_⟩
  rw [hack] at hb
  rcases List.mem_append.1 hb with hb | hb
  · exact hall bytes (h bytes hb transactions hread)
  · obtain rfl := List.mem_singleton.1 hb
    unfold dispatch
    rw [hread]
    simp only [Channel.all_send]
    exact List.mem_append_right _ (List.mem_singleton_self _)

theorem acknowledging_turn (ht : c.Turns w event w') : Acknowledging w w' := by
  cases ht with
  | fill | full | idle | late | waited | own => exact acknowledging_of_eq rfl rfl
  | others hrecv => exact acknowledging_of_eq rfl (Channel.all_of_recv hrecv)
  | frame serialized => exact acknowledging_dispatch serialized w
  | @helper request requests =>
    obtain ⟨_, he⟩ := help_eq c request { w with requests }
    rw [he]
    exact acknowledging_of_eq rfl rfl
  | primary message now =>
    obtain ⟨_, _, _, _, _, _, he⟩ := syncs_handlePrimary c now w message
    rw [he]
    exact acknowledging_of_eq rfl rfl
  | @result i u waiting polled =>
    obtain ⟨_, _, _, _, _, _, he⟩ := syncs_deliver u waiting w polled
    rw [he]
    exact acknowledging_of_eq rfl rfl
  | timer now =>
    obtain ⟨_, _, he⟩ := retry_eq c now w
    rw [he]
    exact acknowledging_of_eq rfl rfl

/-- The quorum waiter is done with the batch at the head of its queue, or it waits. -/
theorem waited_turn (ht : c.Turns w event w') : w'.waited = w.waited ∨
    ∃ completed pending batch, event = .quorumWaiter completed pending ∧
      w.sealed.queue.head? = some batch ∧ w'.waited = w.waited ++ [⟨batch, completed, pending⟩] := by
  cases ht with
  | fill | full | idle | late | own | others => exact .inl rfl
  | waited hrecv => exact .inr ⟨_, _, _, rfl, Channel.head?_of_recv hrecv, rfl⟩
  | frame serialized =>
    obtain ⟨_, _, he⟩ := dispatch_eq serialized w
    rw [he]
    exact .inl rfl
  | @helper request requests =>
    obtain ⟨_, he⟩ := help_eq c request { w with requests }
    rw [he]
    exact .inl rfl
  | primary message now =>
    obtain ⟨_, _, _, _, _, _, he⟩ := syncs_handlePrimary c now w message
    rw [he]
    exact .inl rfl
  | @result i u waiting polled =>
    obtain ⟨_, _, _, _, _, _, he⟩ := syncs_deliver u waiting w polled
    rw [he]
    exact .inl rfl
  | timer now =>
    obtain ⟨_, _, he⟩ := retry_eq c now w
    rw [he]
    exact .inl rfl

/-- Who acknowledged a batch outside the set has received it. -/
structure Attested (n : WorkerNetwork) (s : PublicKey → Worker) : Prop where
  acked : ∀ a, ∀ m ∈ (s a).waited, ∀ e ∈ m.completed,
    e.1 ∈ n.byzantine ∨ m.batch ∈ (s e.1).acknowledged
  accepted : ∀ a, Accepted (s a)

theorem Attested.step {turn : PublicKey × Event} (h : Attested n s) (ht : n.step s turn = some s') :
    Attested n s' := by
  obtain ⟨hpossible, t, hworker, rfl⟩ := step_eq_some ht
  have hturn := step_turns hworker
  obtain ⟨hgrows, haccepted⟩ := acknowledging_turn hturn
  have hack : ∀ p, (s p).acknowledged ⊆ (Function.update s turn.1 t p).acknowledged := fun p => by
    by_cases hp : p = turn.1
    · subst hp
      rwa [Function.update_self]
    · rw [Function.update_of_ne hp]
      exact fun _ hb => hb
  have hold : ∀ a, ∀ m ∈ (s a).waited, ∀ e ∈ m.completed, e.1 ∈ n.byzantine ∨
      m.batch ∈ (Function.update s turn.1 t e.1).acknowledged := fun a m hm e he =>
    (h.acked a m hm e he).imp_right fun hb => hack e.1 hb
  refine ⟨fun a m hm => ?_, fun a => ?_⟩
  · by_cases ha : a = turn.1
    · subst ha
      rw [Function.update_self] at hm
      rcases waited_turn hturn with he | ⟨completed, pending, batch, hevent, hhead, he⟩
      · exact hold _ m (he ▸ hm)
      · rw [he] at hm
        rcases List.mem_append.1 hm with hm | hm
        · exact hold _ m hm
        · -- The handlers of this batch have completed before the turn.
          obtain rfl := List.mem_singleton.1 hm
          intro e he
          rw [hevent] at hpossible
          simp only [possible, hhead, Option.all_some, acknowledges, List.all_eq_true,
            decide_eq_true_eq] at hpossible
          exact (hpossible e he).2.imp_right fun hb => hack e.1 hb
    · rw [Function.update_of_ne ha] at hm
      exact hold a m hm
  · by_cases ha : a = turn.1
    · subst ha
      rw [Function.update_self]
      exact haccepted (h.accepted _)
    · rw [Function.update_of_ne ha]
      exact h.accepted a

theorem attested_run (h : n.run turns = some s) : Attested n s :=
  Runs.foldlM_some_induction (P := fun _ s => Attested n s)
    ⟨fun _ _ hm => (by cases hm), fun _ _ hb => (by cases hb)⟩ (fun _ _ _ _ hs ht => hs.step ht) h

end Acknowledgements

/-! ## Availability -/

section Availability

omit [Crypto] [Bincode] in
theorem nodup_others (c : WorkerConfig) : (c.name :: c.others).Nodup := by
  have hsub : (c.committee.othersWorkers c.name c.id).Sublist c.committee.names :=
    List.filter_sublist.map _
  refine List.nodup_cons.2 ⟨fun hm => ?_, hsub.nodup c.committee.names_nodup⟩
  obtain ⟨e, he, hname⟩ := List.mem_map.1 hm
  exact (of_decide_eq_true (List.mem_filter.1 he).2).1 hname

omit [Crypto] [Bincode] in
/-- The stake that the quorum waiter counts is that of the node and of those that acknowledged. -/
theorem weight_completed {c : WorkerConfig} {m : QuorumWaiterMessage}
    (h : (m.completed.map Prod.fst ++ m.pending).Perm c.others) :
    c.committee.stake c.name + c.quorumWaiter.completedStake m =
      Weighted.weight c.committee.stake (c.name :: m.completed.map Prod.fst).toFinset := by
  have hn : (c.name :: m.completed.map Prod.fst).Nodup := by
    refine ((List.Perm.cons c.name h).nodup_iff.2 (nodup_others c)).sublist ?_
    exact (List.sublist_append_left _ _).cons_cons _
  rw [← Weighted.sum_map_eq_weight _ hn, List.map_cons, List.sum_cons, List.map_map]
  rfl

/-- The worker has a message of this digest in its store, or these bytes in its queue. -/
def Holds (w : Worker) (bytes : List UInt8) : Prop :=
  (∃ b, w.store.lookup (Crypto.sha512 bytes) = some b ∧ Crypto.sha512 b = Crypto.sha512 bytes) ∨
    bytes ∈ w.othersBatches.queue

theorem holds_of_processed {c : WorkerConfig} {w : Worker} (hs : Stored c w) {bytes : List UInt8}
    (hp : Processed w bytes) : Holds w bytes := by
  obtain ⟨b, hl, hb, -⟩ := hs.store.exists_of_mem hp
  exact .inl ⟨b, hl, hb⟩

/-- A worker that acknowledged a batch holds it. -/
theorem holds_of_acknowledged {c : WorkerConfig} {w : Worker} (hs : Stored c w) (ha : Accepted w)
    {bytes : List UInt8} (hb : bytes ∈ w.acknowledged) {transactions : Batch}
    (hread : Bincode.deserialize bytes = some (.ok (.batch transactions))) : Holds w bytes := by
  rcases List.mem_append.1 (ha bytes hb transactions hread) with ht | hq
  · exact holds_of_processed hs (.inr ht)
  · exact .inr hq

/-- Machine integers count the transactions a worker is given, and the bytes of each. -/
def Sized (events : List Event) : Prop := WorkerMessage.Fits (events.flatMap Event.transactions)

omit [Crypto] [Bincode] in
theorem fits_of_packed {log rest : List Transaction} {batches : List Batch}
    (h : Packed log batches rest) (hlog : WorkerMessage.Fits log) {b : Batch} (hb : b ∈ batches) :
    WorkerMessage.Fits b := by
  have hsub : b.Sublist log :=
    (List.sublist_flatten_of_mem hb).trans h.isPrefix.sublist
  exact ⟨hsub.length_le.trans_lt hlog.1, fun t ht => hlog.2 t (hsub.subset ht)⟩

/-- In every interleaving, a batch whose digest a worker has reported to its primary is available:
workers outside the Byzantine set, the one that reported it among them, hold it, and with that set they
make a quorum. -/
theorem batch_available [LawfulBincode] (h : n.run turns = some s) (ha : a ∉ n.byzantine)
    (hsized : Sized (eventsOf a turns)) {e : Digest × ℕ}
    (he : e ∈ (s a).toPrimary.filterMap ours) :
    ∃ bytes ∈ (s a).sealed.all, Crypto.sha512 bytes = e.1 ∧
      ∃ S : Finset PublicKey, a ∈ S ∧ Disjoint S n.byzantine ∧
        n.committee.quorumThreshold ≤
          Weighted.weight n.committee.stake S + Weighted.weight n.committee.stake n.byzantine ∧
        ∀ p ∈ S, Holds (s p) bytes := by
  have hrun := run_worker h
  have hs := stored_run (hrun a)
  have hattested := attested_run h
  rw [hs.own] at he
  obtain ⟨bytes, hb, rfl⟩ := List.mem_map.1 he
  have hall := (s a).ownBatches.taken_prefix_all.subset hb
  rw [hs.forwarded] at hall
  obtain ⟨m, hm, hsent⟩ := List.mem_flatMap.1 hall
  rw [QuorumWaiter.receive_fst] at hsent
  split_ifs at hsent with hquorum
  · obtain rfl := List.mem_singleton.1 hsent
    have hothers := hs.handlers m hm
    -- The batch is read back by whoever receives it.
    obtain ⟨batches, hd, -⟩ := dealt_run (hrun a)
    have hsealed : m.batch ∈ (s a).sealed.all :=
      (s a).sealed.taken_prefix_all.subset (hs.waited ▸ List.mem_map_of_mem hm)
    obtain ⟨batch, hbatch, hbytes⟩ := List.mem_map.1 (hd.sealed ▸ hsealed)
    have hread := LawfulBincode.deserialize_batch batch [] (fits_of_packed hd.packed hsized hbatch)
    rw [List.append_nil, hbytes] at hread
    have hstake := weight_completed hothers
    have hname := n.named a
    have hcommittee := n.shared a
    refine ⟨m.batch, hsealed, rfl, (a :: m.completed.map Prod.fst).toFinset \ n.byzantine, ?_,
      Finset.sdiff_disjoint, ?_, fun p hp => ?_⟩
    · simp [ha]
    · have hthreshold : n.committee.quorumThreshold ≤
          n.committee.stake a + (n.worker a).quorumWaiter.completedStake m := by
        simpa only [quorumWaiter, hname, hcommittee] using hquorum
      rw [hname, hcommittee] at hstake
      rw [hstake] at hthreshold
      exact hthreshold.trans (Weighted.weight_le_sdiff_add n.committee.stake _ n.byzantine)
    · obtain ⟨hp, hbyzantine⟩ := Finset.mem_sdiff.1 hp
      rcases List.mem_cons.1 (List.mem_toFinset.1 hp) with rfl | hp
      · exact holds_of_processed hs (.inl hb)
      · obtain ⟨e, hmem, rfl⟩ := List.mem_map.1 hp
        exact holds_of_acknowledged (stored_run (hrun e.1)) (hattested.accepted e.1)
          ((hattested.acked a m hm e hmem).resolve_left hbyzantine) hread
  · cases hsent

omit [Crypto] [Bincode] in
/-- The workers of four nodes, the last of which may do anything. -/
def networkOfFour : WorkerNetwork where
  committee := .uniform 4
  byzantine := {3}
  worker a := { workerOfFour with name := a }
  named _ := rfl
  shared _ := rfl

/-- Nodes 1 and 2 receive a batch of node 0, which reports it. -/
def turnsOfFour : List (PublicKey × Event) :=
  [(0, .transaction [1, 2]), (0, .transaction [3]),
    (1, .frame (Bincode.serialize (.batch [[1, 2], [3]]))),
    (2, .frame (Bincode.serialize (.batch [[1, 2], [3]]))),
    (0, .quorumWaiter [(1, .acked), (2, .acked)] [3]), (0, .ownBatch)]

omit [Crypto] [Bincode] in
theorem batch_available_four : letI := toyCrypto; letI := standardBincode
    ∃ s, networkOfFour.run turnsOfFour = some s ∧ ∃ e ∈ (s 0).toPrimary.filterMap ours,
      ∃ bytes ∈ (s 0).sealed.all, Crypto.sha512 bytes = e.1 ∧
        ∃ S : Finset PublicKey, 0 ∈ S ∧ Disjoint S networkOfFour.byzantine ∧
          networkOfFour.committee.quorumThreshold ≤
            Weighted.weight networkOfFour.committee.stake S +
              Weighted.weight networkOfFour.committee.stake networkOfFour.byzantine ∧
          ∀ p ∈ S, Holds (s p) bytes := by
  have h : letI := toyCrypto; letI := standardBincode
      (networkOfFour.run turnsOfFour).map (fun s => ((s 0).toPrimary.filterMap ours).length) =
        some 1 := by decide +kernel
  obtain ⟨s, hs, hlength⟩ := Option.map_eq_some_iff.1 h
  obtain ⟨e, he⟩ := List.length_eq_one_iff.1 hlength
  have hmem := he ▸ List.mem_singleton_self e
  exact ⟨s, hs, e, hmem, @batch_available toyCrypto standardBincode _ _ _ _ standardBincode_lawful hs
    (by decide) ⟨by decide, by decide⟩ _ hmem⟩

end Availability

end WorkerNetwork

end NovelDag
