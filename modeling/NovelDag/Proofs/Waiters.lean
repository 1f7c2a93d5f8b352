import NovelDag.Waiters
import NovelDag.Lib.Runs

/-!
# What waits is delivered

A header that the header waiter is asked to wait for is given back when all it misses is in the store,
and no more often than it was asked for; it is dropped only when its round is cleaned up. Missing
parents are asked for again. The certificate waiter gives back every certificate once.
-/

namespace NovelDag

namespace HeaderWaiterConfig

variable {c : HeaderWaiterConfig} {s t u : HeaderWaiter} {event : Event} {events : List Event}
  {message : WaiterMessage}

/-! ## Turns -/

section Turns

/-- What a turn does before it cleans up. -/
inductive Acts (c : HeaderWaiterConfig) (s : HeaderWaiter) : Event → HeaderWaiter → Prop
  | write key : Acts c s (.write key) { s with store := insert key s.store }
  | skip message source now round (h : (s.pending.lookup message.deliver.id).isSome) :
      Acts c s (.message message source now round) s
  | accept message source now round :
      Acts c s (.message message source now round) (c.accept message source now s)
  | delivered i round {w waiting} (hw : s.waiting.Perm (w :: waiting))
      (hready : ∀ key ∈ w.waitFor, key ∈ s.store) :
      Acts c s (.result i .delivered round) (deliver w { s with waiting } .delivered)
  | cancelled i round {w waiting} (hw : s.waiting.Perm (w :: waiting))
      (hgone : w.handler ∉ senders s) : Acts c s (.result i .cancelled round) { s with waiting }
  | timer now round : Acts c s (.timer now round) (c.retry now s)

/-- A turn acts, and then it may clean up. -/
theorem step_acts (h : c.step s event = some t) :
    ∃ u, c.Acts s event u ∧ (t = u ∨ ∃ round, t = c.cleanup round u) := by
  cases event with
  | write key => exact ⟨_, .write key, .inl (Option.some.inj h).symm⟩
  | message message source now round =>
    unfold step at h
    simp only [] at h
    split_ifs at h with hp hpending hp'
    · exact ⟨_, .skip message source now round hpending, .inl (Option.some.inj h).symm⟩
    · exact ⟨_, .accept message source now round, .inl (Option.some.inj h).symm⟩
    · exact ⟨_, .accept message source now round, .inr ⟨round, (Option.some.inj h).symm⟩⟩
  | result i polled round =>
    unfold step at h
    simp only [] at h
    split_ifs at h with hp
    obtain ⟨⟨w, waiting⟩, hpoll, h⟩ := Option.bind_eq_some_iff.1 h
    obtain ⟨hw, hr⟩ := Waiter.poll_eq_some hpoll
    cases polled with
    | delivered =>
      exact ⟨_, .delivered i round hw (Waiter.returns_delivered hr),
        .inr ⟨round, (Option.some.inj h).symm⟩⟩
    | cancelled =>
      exact ⟨_, .cancelled i round hw (of_decide_eq_true hr), .inr ⟨round, (Option.some.inj h).symm⟩⟩
  | timer now round =>
    unfold step at h
    simp only [] at h
    split_ifs at h with hp
    exact ⟨_, .timer now round, .inr ⟨round, (Option.some.inj h).symm⟩⟩

/-- What every part of a turn keeps, with the events so far, holds in every state of a run. -/
theorem run_keeps {P : List Event → HeaderWaiter → Prop} (h0 : P [] {})
    (hacts : ∀ before event s u, P before s → c.Acts s event u → P (before ++ [event]) u)
    (hcleanup : ∀ before s round, P before s → P before (c.cleanup round s))
    (h : c.run events = some s) : P events s := by
  refine Runs.foldlM_some_induction h0 (fun before event s t hs ht => ?_) h
  obtain ⟨u, hu, rfl | ⟨round, rfl⟩⟩ := step_acts ht
  · exact hacts before event s _ hs hu
  · exact hcleanup _ u round (hacts before event s u hs hu)

/-- The messages that come with an event. -/
def Event.messages : Event → List WaiterMessage
  | .message received _ _ _ => [received]
  | _ => []

/-- Besides the new future, a message that is accepted changes the requests and what is sent. -/
theorem accept_eq (c : HeaderWaiterConfig) (message : WaiterMessage) (source : PublicKey) (now : ℕ)
    (s : HeaderWaiter) : ∃ batchRequests parentRequests iterations network panicked,
      c.accept message source now s = { push message s with
        batchRequests, parentRequests, iterations, network, panicked } := by
  cases message with
  | syncBatches missing deliver => exact ⟨_, _, _, _, _, rfl⟩
  | syncParents missing header =>
    simp only [accept, syncParents, askAuthor]
    split_ifs <;> exact ⟨_, _, _, _, _, rfl⟩

theorem retry_eq (c : HeaderWaiterConfig) (now : ℕ) (s : HeaderWaiter) : ∃ iterations network,
    c.retry now s = { s with iterations, network } := by
  unfold retry
  simp only []
  split_ifs <;> exact ⟨_, _, rfl⟩

end Turns

/-- The header waiter of a node of four. -/
def ofFour : HeaderWaiterConfig where
  name := 0
  committee := .uniform 4
  gcDepth := 50
  syncRetryDelay := 5000
  order := HashOrder.entryOrder

/-- A header misses two parents. -/
def missingOfFour : Event :=
  .message (.syncParents [7, 8] { id := 5, author := 1, round := 3 }) 1 0 1

/-- The header is given back once both are there. -/
def eventsOfFour : List Event :=
  [.write (.certificate 8), .write (.certificate 7), .result 0 .delivered 1]

theorem run_eventsOfFour : ∃ s, ofFour.run (missingOfFour :: eventsOfFour) = some s ∧
    s.toCore.map Header.id = [5] := by
  have h : (ofFour.run (missingOfFour :: eventsOfFour)).map (fun s => s.toCore.map Header.id) =
      some [5] := by decide +kernel
  exact Option.map_eq_some_iff.1 h

/-! ## Deliveries -/

section Deliveries

/-- What is asked for in the messages: keys to wait for, and the header to deliver. -/
def asked (events : List Event) : List (List StoreKey × Header) :=
  (events.flatMap Event.messages).map fun m => (m.waitFor, m.deliver)

/-- The futures made for messages, those that delivered, and those that were cancelled. -/
structure Pooled (events : List Event) (s : HeaderWaiter)
    (made delivered cancelled : List (Waiter StoreKey Header)) : Prop where
  accounted : Waiter.Accounted made delivered cancelled s.waiting
  made : (made.map fun w => (w.waitFor, w.deliver)).Sublist (asked events)
  toCore : delivered.map Waiter.deliver = s.toCore
  ready : ∀ w ∈ delivered, ∀ key ∈ w.waitFor, key ∈ s.store

variable {made delivered cancelled : List (Waiter StoreKey Header)}

theorem asked_append (events : List Event) (event : Event) : asked (events ++ [event]) =
    asked events ++ event.messages.map fun m => (m.waitFor, m.deliver) := by
  rw [asked, List.flatMap_append, List.map_append, List.flatMap_singleton]
  rfl

theorem Pooled.acts (h : Pooled events s made delivered cancelled) (ha : c.Acts s event u) :
    ∃ made delivered cancelled, Pooled (events ++ [event]) u made delivered cancelled := by
  have hmade : (made.map fun w => (w.waitFor, w.deliver)).Sublist (asked (events ++ [event])) := by
    rw [asked_append]
    exact h.made.trans (List.sublist_append_left _ _)
  cases ha with
  | write key =>
    exact ⟨_, _, _, h.accounted, hmade, h.toCore, fun w hw k hk =>
      Finset.mem_insert_of_mem (h.ready w hw k hk)⟩
  | skip => exact ⟨_, _, _, h.accounted, hmade, h.toCore, h.ready⟩
  | accept message source now round =>
    obtain ⟨_, _, _, _, _, he⟩ := accept_eq c message source now s
    rw [he]
    refine ⟨_, _, _, h.accounted.push _, ?_, h.toCore, h.ready⟩
    rw [asked_append, List.map_append]
    exact h.made.append (List.Sublist.refl _)
  | @delivered i round w waiting hw hready =>
    refine ⟨_, _, _, h.accounted.deliver hw, hmade, ?_, fun w' hw' => ?_⟩
    · rw [List.map_append, h.toCore]
      rfl
    · rcases List.mem_append.1 hw' with hw' | hw'
      · exact h.ready w' hw'
      · rw [List.mem_singleton.1 hw']
        exact hready
  | cancelled i round hw => exact ⟨_, _, _, h.accounted.cancel hw, hmade, h.toCore, h.ready⟩
  | timer now round =>
    obtain ⟨_, _, he⟩ := retry_eq c now s
    rw [he]
    exact ⟨_, _, _, h.accounted, hmade, h.toCore, h.ready⟩

theorem pooled_run (h : c.run events = some s) :
    ∃ made delivered cancelled, Pooled events s made delivered cancelled := by
  refine run_keeps (P := fun events s => ∃ made delivered cancelled,
    Pooled events s made delivered cancelled) ?_ (fun _ _ _ _ ⟨_, _, _, hs⟩ ha => hs.acts ha)
    (fun _ s round ⟨made, delivered, cancelled, hs⟩ => ?_) h
  · exact ⟨[], [], [], .nil, List.Sublist.refl _, rfl, by simp⟩
  · refine ⟨made, delivered, cancelled, ?_⟩
    unfold cleanup
    split_ifs <;> exact { hs with }

/-- Every header that waits was asked for. -/
theorem Pooled.mem_asked (h : Pooled events s made delivered cancelled) :
    ∀ w ∈ s.waiting, (w.waitFor, w.deliver) ∈ asked events := fun w hw =>
  h.made.subset (List.mem_map.2 ⟨w, h.accounted.mem_iff.2 (by simp [hw]), rfl⟩)

/-- A header is delivered when all that was missing is in the store, and at most once for each message
that asks to wait for it. -/
theorem delivered_once (h : c.run events = some s) : ∃ delivered : List (List StoreKey × Header),
    delivered.map Prod.snd = s.toCore ∧ delivered.Subperm (asked events) ∧
      ∀ e ∈ delivered, ∀ key ∈ e.1, key ∈ s.store := by
  obtain ⟨made, delivered, cancelled, hp⟩ := pooled_run h
  refine ⟨delivered.map fun w => (w.waitFor, w.deliver), ?_, ?_, fun e he => ?_⟩
  · rw [List.map_map]
    exact hp.toCore
  · obtain ⟨l, hl, hsub⟩ := hp.accounted.subperm
    exact List.Subperm.trans ⟨_, hl.map _, hsub.map _⟩ hp.made.subperm
  · obtain ⟨w, hw, rfl⟩ := List.mem_map.1 he
    exact hp.ready w hw

theorem delivered_once_four : ∃ s, ofFour.run (missingOfFour :: eventsOfFour) = some s ∧
    ∃ delivered : List (List StoreKey × Header), delivered.map Prod.snd = s.toCore ∧
      delivered.Subperm (asked (missingOfFour :: eventsOfFour)) ∧
        ∀ e ∈ delivered, ∀ key ∈ e.1, key ∈ s.store := by
  obtain ⟨s, hs, -⟩ := run_eventsOfFour
  exact ⟨s, hs, delivered_once hs⟩

end Deliveries

/-! ## Headers that wait -/

section Waiting

/-- The future of an entry of `pending`. -/
def Awaits (id : Digest) (v : ℕ × ℕ) (w : Waiter StoreKey Header) : Prop :=
  w.deliver.id = id ∧ w.deliver.round = v.1 ∧ w.handler = v.2

theorem served_acts (h : Waiter.Served Awaits s.pending s.waiting) (ha : c.Acts s event u) :
    Waiter.Served Awaits u.pending u.waiting := by
  cases ha with
  | write | skip => exact h
  | accept message source now round =>
    obtain ⟨_, _, _, _, _, he⟩ := accept_eq c message source now s
    rw [he]
    exact h.insert ⟨rfl, rfl, rfl⟩
  | @delivered i round w waiting hw =>
    refine (h.erase w.deliver.id).leave hw fun name v hl hR => ?_
    rw [← hR.1, AList.lookup_erase] at hl
    cases hl
  | cancelled i round hw hgone =>
    refine h.leave hw fun name v hl hR => hgone ?_
    exact List.mem_map.2 ⟨v, FinMap.mem_values.2 ⟨name, hl⟩, hR.2.2.symm⟩
  | timer now round =>
    obtain ⟨_, _, he⟩ := retry_eq c now s
    rw [he]
    exact h

theorem served_cleanup (h : Waiter.Served Awaits s.pending s.waiting) (round : ℕ) :
    Waiter.Served Awaits (c.cleanup round s).pending (c.cleanup round s).waiting := by
  unfold cleanup
  split_ifs
  · exact h.retain _
  · exact h

theorem served_run (h : c.run events = some s) : Waiter.Served Awaits s.pending s.waiting :=
  run_keeps (P := fun _ s => Waiter.Served Awaits s.pending s.waiting) (fun _ _ hl => by cases hl)
    (fun _ _ _ _ hs ha => served_acts hs ha) (fun _ _ round hs => served_cleanup hs round) h

/-- What has become of the headers of an id, since a state in which one of them was asked for. -/
structure Since (c : HeaderWaiterConfig) (events : List Event) (id : Digest) (s₀ s : HeaderWaiter)
    (delivered : List Header) (gcRounds : List ℕ) : Prop where
  toCore : s.toCore = s₀.toCore ++ delivered
  cleaned : s.gcRounds = s₀.gcRounds ++ gcRounds
  fate : (∃ header ∈ delivered, header.id = id) ∨ (s.pending.lookup id).isSome ∨
    ∃ e ∈ asked events, e.2.id = id ∧ ∃ gcRound ∈ gcRounds, e.2.round ≤ gcRound

variable {id : Digest} {s₀ : HeaderWaiter} {delivered : List Header} {gcRounds : List ℕ}

theorem Since.acts (h : Since c events id s₀ s delivered gcRounds) (ha : c.Acts s event u) :
    ∃ delivered, Since c (events ++ [event]) id s₀ u delivered gcRounds := by
  have hfate : ∀ {pending : FinMap Digest (ℕ × ℕ)}, ((s.pending.lookup id).isSome →
      (pending.lookup id).isSome) → (∃ header ∈ delivered, header.id = id) ∨
        (pending.lookup id).isSome ∨ ∃ e ∈ asked (events ++ [event]), e.2.id = id ∧
          ∃ gcRound ∈ gcRounds, e.2.round ≤ gcRound := fun hp => by
    refine h.fate.imp_right (Or.imp hp fun ⟨e, he, hr⟩ => ⟨e, ?_, hr⟩)
    rw [asked_append]
    exact List.mem_append_left _ he
  cases ha with
  | write | skip | cancelled => exact ⟨delivered, h.toCore, h.cleaned, hfate fun hp => hp⟩
  | accept message source now round =>
    obtain ⟨_, _, _, _, _, he⟩ := accept_eq c message source now s
    rw [he]
    refine ⟨delivered, h.toCore, h.cleaned, hfate fun hp => ?_⟩
    change ((s.pending.insert _ _).lookup id).isSome
    rw [FinMap.lookup_insert_ite]
    split
    · rfl
    · exact hp
  | @delivered i round w waiting =>
    refine ⟨delivered ++ [w.deliver], ?_, h.cleaned, ?_⟩
    · change s.toCore ++ [w.deliver] = _
      rw [h.toCore, List.append_assoc]
    · by_cases hid : w.deliver.id = id
      · exact .inl ⟨w.deliver, by simp, hid⟩
      · refine (hfate fun hp => ?_).imp_left fun ⟨header, hmem, he⟩ =>
          ⟨header, List.mem_append_left _ hmem, he⟩
        change ((s.pending.erase _).lookup id).isSome
        rw [AList.lookup_erase_ne fun he => hid he.symm]
        exact hp
  | timer now round =>
    obtain ⟨_, _, he⟩ := retry_eq c now s
    rw [he]
    exact ⟨delivered, h.toCore, h.cleaned, hfate fun hp => hp⟩

theorem Since.cleanup (h : Since c events id s₀ s delivered gcRounds)
    (hserved : Waiter.Served Awaits s.pending s.waiting)
    (hasked : ∀ w ∈ s.waiting, (w.waitFor, w.deliver) ∈ asked events) (round : ℕ) :
    ∃ gcRounds, Since c events id s₀ (c.cleanup round s) delivered gcRounds := by
  unfold HeaderWaiterConfig.cleanup
  split_ifs
  · refine ⟨gcRounds ++ [round - c.gcDepth], h.toCore, ?_, ?_⟩
    · change s.gcRounds ++ [_] = _
      rw [h.cleaned, List.append_assoc]
    · rcases h.fate with hd | hp | ⟨e, he, hid, gcRound, hg, hle⟩
      · exact .inl hd
      · obtain ⟨v, hv⟩ := Option.isSome_iff_exists.1 hp
        rcases Nat.lt_or_ge (round - c.gcDepth) v.1 with hlt | hle
        · have hl : (s.pending.retain fun _ v => decide (round - c.gcDepth < v.1)).lookup id =
              some v := FinMap.lookup_retain_eq_some.2 ⟨hv, decide_eq_true hlt⟩
          exact .inr (.inl (Option.isSome_of_eq_some hl))
        · -- The header of the entry is of a round that is cleaned up.
          obtain ⟨w, hw, hid, hround, -⟩ := hserved id v hv
          exact .inr (.inr ⟨_, hasked w hw, hid, _, List.mem_append_right _ List.mem_cons_self,
            hround.trans_le hle⟩)
      · exact .inr (.inr ⟨e, he, hid, gcRound, List.mem_append_left _ hg, hle⟩)
  · exact ⟨gcRounds, h⟩

/-- What holds between two turns of what waits. -/
def Sound (events : List Event) (s : HeaderWaiter) : Prop :=
  Waiter.Served Awaits s.pending s.waiting ∧ ∀ w ∈ s.waiting, (w.waitFor, w.deliver) ∈ asked events

theorem sound_acts (h : c.run events = some s) (ha : c.Acts s event u) :
    Sound (events ++ [event]) u := by
  obtain ⟨made, delivered, cancelled, hp⟩ := pooled_run h
  obtain ⟨_, _, _, hp'⟩ := hp.acts ha
  exact ⟨served_acts (served_run h) ha, hp'.mem_asked⟩

theorem Since.step (h : Since c events id s₀ s delivered gcRounds) (hrun : c.run events = some s)
    (ht : c.step s event = some t) :
    ∃ delivered gcRounds, Since c (events ++ [event]) id s₀ t delivered gcRounds := by
  obtain ⟨u, hu, ht⟩ := step_acts ht
  obtain ⟨delivered, hs⟩ := h.acts hu
  obtain ⟨hserved, hasked⟩ := sound_acts hrun hu
  rcases ht with rfl | ⟨round, rfl⟩
  · exact ⟨delivered, gcRounds, hs⟩
  · exact ⟨delivered, hs.cleanup hserved hasked round⟩

end Waiting

/-! ## Requests -/

section Requests

theorem lookup_foldl_erase (l : List Digest) (m : FinMap Digest (ℕ × ℕ)) (k : Digest) :
    (l.foldl (fun m x => m.erase x) m).lookup k = if k ∈ l then none else m.lookup k := by
  induction l generalizing m with
  | nil => simp
  | cons x l ih =>
    rw [List.foldl_cons, ih]
    by_cases hk : k = x
    · subst hk
      simp
    · simp [hk, AList.lookup_erase_ne hk]

/-- A certificate that was not asked for is asked for now, and the others stay as they are. -/
theorem lookup_requestParent (round now : ℕ) : ∀ (missing : List Digest)
    (r : FinMap Digest (ℕ × ℕ) × List Digest) (d : Digest),
    ((missing.foldl (requestParent round now) r).1.lookup d) =
      if d ∈ missing ∧ r.1.lookup d = none then some (round, now) else r.1.lookup d
  | [], r, d => by simp
  | x :: missing, r, d => by
    rw [List.foldl_cons, lookup_requestParent round now missing]
    unfold requestParent
    by_cases hx : (r.1.lookup x).isSome
    · rw [if_pos hx]
      by_cases hd : d = x
      · subst hd
        simp [Option.isSome_iff_ne_none.1 hx]
      · simp [hd]
    · rw [if_neg hx]
      simp only [FinMap.lookup_insert_ite]
      have hnone : r.1.lookup x = none := by simpa using hx
      by_cases hd : d = x
      · subst hd
        simp [hnone]
      · simp [hd]

theorem parentRequests_syncParents (missing : List Digest) (header : Header) (now : ℕ) :
    (c.syncParents missing header now s).parentRequests =
      (missing.foldl (requestParent header.round now) (s.parentRequests, [])).1 := by
  unfold syncParents askAuthor
  simp only []
  split_ifs <;> rfl

/-- The round of the request for a missing parent once the header is accepted: a request that was held
before stays. -/
def heldRound (s : HeaderWaiter) (d : Digest) (header : Header) : ℕ :=
  ((s.parentRequests.lookup d).map Prod.fst).getD header.round

/-- What has become of a request, since a state in which it was held. It goes with a header that is
delivered on the certificate, or with the round it was made in. -/
structure Holds (d : Digest) (round : ℕ) (s₀ s : HeaderWaiter) (delivered : List Header)
    (gcRounds : List ℕ) : Prop where
  toCore : s.toCore = s₀.toCore ++ delivered
  cleaned : s.gcRounds = s₀.gcRounds ++ gcRounds
  fate : (∃ timestamp, s.parentRequests.lookup d = some (round, timestamp)) ∨
    (∃ header ∈ delivered, d ∈ header.parents.toList ++ header.parents2.toList) ∨
      ∃ gcRound ∈ gcRounds, round ≤ gcRound

variable {d : Digest} {round : ℕ} {s₀ : HeaderWaiter} {delivered : List Header} {gcRounds : List ℕ}

/-- A request that is held stays when a message is accepted. -/
theorem lookup_accept {source : PublicKey} {now : ℕ} {v : ℕ × ℕ}
    (h : s.parentRequests.lookup d = some v) :
    (c.accept message source now s).parentRequests.lookup d = some v := by
  cases message with
  | syncBatches missing deliver => exact h
  | syncParents missing header =>
    rw [accept, parentRequests_syncParents, lookup_requestParent, if_neg, h]
    rintro ⟨-, hnone⟩
    rw [h] at hnone
    cases hnone

theorem Holds.acts (h : Holds d round s₀ s delivered gcRounds) (ha : c.Acts s event u) :
    ∃ delivered, Holds d round s₀ u delivered gcRounds := by
  cases ha with
  | write | skip | cancelled => exact ⟨delivered, h.toCore, h.cleaned, h.fate⟩
  | accept message source now consensusRound =>
    have hfate := h.fate.imp_left fun ⟨timestamp, hl⟩ =>
      (⟨timestamp, lookup_accept hl⟩ : ∃ timestamp,
        (c.accept message source now s).parentRequests.lookup d = some (round, timestamp))
    obtain ⟨_, _, _, _, _, he⟩ := accept_eq c message source now s
    refine ⟨delivered, ?_, ?_, hfate⟩
    · rw [he]
      exact h.toCore
    · rw [he]
      exact h.cleaned
  | @delivered i consensusRound w waiting =>
    refine ⟨delivered ++ [w.deliver], ?_, h.cleaned, ?_⟩
    · change s.toCore ++ [w.deliver] = _
      rw [h.toCore, List.append_assoc]
    · by_cases hparent : d ∈ w.deliver.parents.toList ++ w.deliver.parents2.toList
      · exact .inr (.inl ⟨w.deliver, List.mem_append_right _ List.mem_cons_self, hparent⟩)
      · refine h.fate.imp (fun ⟨timestamp, hl⟩ => ⟨timestamp, ?_⟩) (Or.imp_left
          fun ⟨header, hmem, hd⟩ => ⟨header, List.mem_append_left _ hmem, hd⟩)
        change ((w.deliver.parents.toList ++ w.deliver.parents2.toList).foldl
          (fun m x => m.erase x) s.parentRequests).lookup d = _
        rw [lookup_foldl_erase, if_neg hparent, hl]
  | timer now consensusRound =>
    obtain ⟨_, _, he⟩ := retry_eq c now s
    rw [he]
    exact ⟨delivered, h.toCore, h.cleaned, h.fate⟩

theorem Holds.cleanup (h : Holds d round s₀ s delivered gcRounds) (consensusRound : ℕ) :
    ∃ gcRounds, Holds d round s₀ (c.cleanup consensusRound s) delivered gcRounds := by
  unfold HeaderWaiterConfig.cleanup
  split_ifs
  · refine ⟨gcRounds ++ [consensusRound - c.gcDepth], h.toCore, ?_, ?_⟩
    · change s.gcRounds ++ [_] = _
      rw [h.cleaned, List.append_assoc]
    · rcases h.fate with ⟨timestamp, hl⟩ | hd | ⟨gcRound, hg, hle⟩
      · rcases Nat.lt_or_ge (consensusRound - c.gcDepth) round with hlt | hle
        · exact .inl ⟨timestamp, FinMap.lookup_retain_eq_some.2 ⟨hl, decide_eq_true hlt⟩⟩
        · exact .inr (.inr ⟨_, List.mem_append_right _ List.mem_cons_self, hle⟩)
      · exact .inr (.inl hd)
      · exact .inr (.inr ⟨gcRound, List.mem_append_left _ hg, hle⟩)
  · exact ⟨gcRounds, h⟩

theorem Holds.step (h : Holds d round s₀ s delivered gcRounds) (ht : c.step s event = some t) :
    ∃ delivered gcRounds, Holds d round s₀ t delivered gcRounds := by
  obtain ⟨u, hu, ht⟩ := step_acts ht
  obtain ⟨delivered, hs⟩ := h.acts hu
  rcases ht with rfl | ⟨consensusRound, rfl⟩
  · exact ⟨delivered, gcRounds, hs⟩
  · exact ⟨delivered, hs.cleanup consensusRound⟩

/-- With the message the request is held. -/
theorem holds_message {missing : List Digest} {header : Header} {source : PublicKey}
    {now consensusRound : ℕ} (hnew : s.pending.lookup header.id = none) (hd : d ∈ missing)
    (ht : c.step s (.message (.syncParents missing header) source now consensusRound) = some t) :
    ∃ delivered gcRounds, Holds d (heldRound s d header) s t delivered gcRounds := by
  have hheld : Holds d (heldRound s d header) s (c.syncParents missing header now s) [] [] := by
    obtain ⟨_, _, _, _, _, he⟩ := accept_eq c (.syncParents missing header) source now s
    change c.syncParents missing header now s = _ at he
    refine ⟨by rw [he, List.append_nil]; rfl, by rw [he, List.append_nil]; rfl, .inl ?_⟩
    rw [parentRequests_syncParents, lookup_requestParent, heldRound]
    rcases hl : s.parentRequests.lookup d with _ | ⟨round, timestamp⟩
    · exact ⟨now, if_pos ⟨hd, rfl⟩⟩
    · exact ⟨timestamp, if_neg (by simp)⟩
  unfold HeaderWaiterConfig.step at ht
  simp only [WaiterMessage.deliver, hnew, Option.isSome_none, Bool.false_eq_true, if_false] at ht
  split_ifs at ht
  · exact ⟨[], [], Option.some.inj ht ▸ hheld⟩
  · exact ⟨[], Option.some.inj ht ▸ hheld.cleanup consensusRound⟩

/-- A request that is held and was made too long ago is sent again when the timer fires. -/
theorem luckyBroadcast_of_timer {now timestamp consensusRound : ℕ}
    (ht : c.step s (.timer now consensusRound) = some t)
    (hl : s.parentRequests.lookup d = some (round, timestamp))
    (hlate : timestamp + c.syncRetryDelay < now) : ∃ digests, d ∈ digests ∧
      t.network = s.network ++ [SyncRequest.luckyBroadcast (.certificatesRequest digests c.name)] := by
  unfold step at ht
  simp only [] at ht
  split_ifs at ht
  obtain rfl := Option.some.inj ht
  -- The clean-up sends nothing.
  have hnetwork : ∀ u : HeaderWaiter, (c.cleanup consensusRound u).network = u.network := fun u => by
    unfold HeaderWaiterConfig.cleanup
    split_ifs <;> rfl
  rw [hnetwork]
  have hmem : d ∈ (c.order.order s.iterations s.parentRequests.entries).filterMap fun request =>
      if request.2.2 + c.syncRetryDelay < now then some request.1 else none :=
    List.mem_filterMap.2 ⟨⟨d, round, timestamp⟩,
      c.order.mem_order.2 (FinMap.ext_lookup_iff.1 hl), if_pos hlate⟩
  unfold retry
  simp only []
  rw [if_neg fun hempty => by rw [List.isEmpty_iff.1 hempty] at hmem; cases hmem]
  exact ⟨_, hmem, rfl⟩

/-- Once a header is accepted whose parents are missing, each of them is asked for again at every turn
of the timer after the delay, unless since then a header on it was delivered or the round of the
request that was held was cleaned up. -/
theorem retried {missing : List Digest} {header : Header} {source : PublicKey}
    {asked now askedRound consensusRound : ℕ} {after : List Event}
    (hnew : s₀.pending.lookup header.id = none) (hd : d ∈ missing)
    (h : (.message (.syncParents missing header) source asked askedRound :: after).foldlM c.step s₀ =
      some s) (ht : c.step s (.timer now consensusRound) = some t) :
    (∃ digests, d ∈ digests ∧
      t.network = s.network ++ [SyncRequest.luckyBroadcast (.certificatesRequest digests c.name)]) ∨
    (∃ timestamp, s.parentRequests.lookup d = some (heldRound s₀ d header, timestamp) ∧
      now ≤ timestamp + c.syncRetryDelay) ∨
    ∃ delivered gcRounds, s.toCore = s₀.toCore ++ delivered ∧ s.gcRounds = s₀.gcRounds ++ gcRounds ∧
      ((∃ header ∈ delivered, d ∈ header.parents.toList ++ header.parents2.toList) ∨
        ∃ gcRound ∈ gcRounds, heldRound s₀ d header ≤ gcRound) := by
  rw [List.foldlM_cons] at h
  obtain ⟨s₁, h₁, h⟩ := Option.bind_eq_some_iff.1 h
  obtain ⟨delivered, gcRounds, hs⟩ := Runs.foldlM_some_induction (P := fun _ s =>
    ∃ delivered gcRounds, Holds d (heldRound s₀ d header) s₀ s delivered gcRounds)
    (holds_message hnew hd h₁) (fun _ _ _ _ ⟨_, _, hs⟩ ht => hs.step ht) h
  rcases hs.fate with ⟨timestamp, hl⟩ | hgone
  · rcases Nat.lt_or_ge (timestamp + c.syncRetryDelay) now with hlate | hle
    · exact .inl (luckyBroadcast_of_timer ht hl hlate)
    · exact .inr (.inl ⟨timestamp, hl, hle⟩)
  · exact .inr (.inr ⟨delivered, gcRounds, hs.toCore, hs.cleaned, hgone⟩)

/-- Six seconds after the first request. -/
theorem retried_four : ∃ s t, ofFour.run [missingOfFour] = some s ∧
    ofFour.step s (.timer 6000 1) = some t ∧ ∃ digests, 7 ∈ digests ∧
      t.network = s.network ++ [SyncRequest.luckyBroadcast (.certificatesRequest digests 0)] := by
  obtain ⟨s, hs⟩ : ∃ s, ofFour.run [missingOfFour] = some s := ⟨_, rfl⟩
  obtain ⟨t, ht⟩ : ∃ t, ofFour.step s (.timer 6000 1) = some t := by
    obtain rfl := Option.some.inj hs
    exact ⟨_, rfl⟩
  have hlookup : s.parentRequests.lookup 7 = some (3, 0) := by
    obtain rfl := Option.some.inj hs
    rfl
  have hstill : s.toCore = [] ∧ s.gcRounds = [] := by
    obtain rfl := Option.some.inj hs
    exact ⟨rfl, rfl⟩
  refine ⟨s, t, hs, ht, ?_⟩
  rcases @retried ofFour s t 7 {} [7, 8] { id := 5, author := 1, round := 3 } 1 0 6000 1 1 [] rfl
    List.mem_cons_self hs ht with hasked | ⟨timestamp, hl, hle⟩ | ⟨delivered, gcRounds, hd, hg, hgone⟩
  · exact hasked
  · rw [hlookup] at hl
    obtain rfl := (Prod.mk.inj (Option.some.inj hl)).2
    exact absurd hle (by decide)
  · -- Nothing was delivered, and nothing cleaned up.
    rw [hstill.1] at hd
    rw [hstill.2] at hg
    obtain rfl : delivered = [] := hd.symm
    obtain rfl : gcRounds = [] := hg.symm
    rcases hgone with ⟨_, hm, -⟩ | ⟨_, hm, -⟩ <;> cases hm

end Requests

end HeaderWaiterConfig

/-! ## Certificates -/

namespace CertificateWaiter

variable {s : CertificateWaiter} {events : List Event}

/-- The certificate that comes with an event. -/
def Event.certificates : Event → List Certificate
  | .certificate received => [received]
  | _ => []

/-- The futures made for the certificates, and those that delivered. -/
structure Pooled (events : List Event) (s : CertificateWaiter)
    (made delivered : List (Waiter StoreKey Certificate)) : Prop where
  accounted : Waiter.Accounted made delivered [] s.waiting
  keys : ∀ w ∈ made, w.waitFor = w.deliver.header.parents.toList.map .certificate
  made : made.map Waiter.deliver = events.flatMap Event.certificates
  toCore : delivered.map Waiter.deliver = s.toCore
  ready : ∀ w ∈ delivered, ∀ key ∈ w.waitFor, key ∈ s.store

theorem pooled_run (h : run events = some s) : ∃ made delivered, Pooled events s made delivered := by
  refine Runs.foldlM_some_induction (P := fun events s => ∃ made delivered,
    Pooled events s made delivered) ⟨[], [], .nil, by simp, rfl, rfl, by simp⟩ ?_ h
  rintro before event s t ⟨made, delivered, hp⟩ ht
  cases event with
  | certificate certificate =>
    obtain rfl := Option.some.inj ht
    refine ⟨_, delivered, hp.accounted.push _, fun w hw => ?_, ?_, hp.toCore, hp.ready⟩
    · rcases List.mem_append.1 hw with hw | hw
      · exact hp.keys w hw
      · rw [List.mem_singleton.1 hw]
    · rw [List.map_append, hp.made, List.flatMap_append]
      rfl
  | result i =>
    obtain ⟨⟨w, waiting⟩, hpoll, ht⟩ := Option.bind_eq_some_iff.1 ht
    obtain rfl := Option.some.inj ht
    obtain ⟨hw, hr⟩ := Waiter.poll_eq_some hpoll
    refine ⟨made, _, hp.accounted.deliver hw, hp.keys, ?_, ?_, fun w' hw' => ?_⟩
    · rw [hp.made, List.flatMap_append]
      exact (List.append_nil _).symm
    · rw [List.map_append, hp.toCore]
      rfl
    · rcases List.mem_append.1 hw' with hw' | hw'
      · exact hp.ready w' hw'
      · rw [List.mem_singleton.1 hw']
        exact Waiter.returns_delivered hr
  | write key =>
    obtain rfl := Option.some.inj ht
    refine ⟨made, delivered, hp.accounted, hp.keys, ?_, hp.toCore, fun w hw k hk =>
      Finset.mem_insert_of_mem (hp.ready w hw k hk)⟩
    rw [hp.made, List.flatMap_append]
    exact (List.append_nil _).symm

/-- Every certificate that comes waits or was given back, once, with its parents in the store. -/
theorem given_back_once (h : run events = some s) :
    (events.flatMap Event.certificates).Perm (s.toCore ++ s.waiting.map Waiter.deliver) ∧
      ∀ x ∈ s.toCore, ∀ d ∈ x.header.parents, .certificate d ∈ s.store := by
  obtain ⟨made, delivered, hp⟩ := pooled_run h
  refine ⟨?_, fun x hx d hd => ?_⟩
  · rw [← hp.made, ← hp.toCore, ← List.map_append]
    exact hp.accounted.map _
  · rw [← hp.toCore] at hx
    obtain ⟨w, hw, rfl⟩ := List.mem_map.1 hx
    refine hp.ready w hw _ ?_
    rw [hp.keys w (hp.accounted.subperm.subset hw)]
    exact List.mem_map_of_mem hd

/-- A certificate that misses a parent, and the parent. -/
def eventsOfFour : List Event :=
  [.certificate { header := { author := 1, parents := SortedSet.ofList [7] } },
    .write (.certificate 7), .result 0]

theorem given_back_once_four : ∃ s, run eventsOfFour = some s ∧
    (eventsOfFour.flatMap Event.certificates).Perm (s.toCore ++ s.waiting.map Waiter.deliver) ∧
      ∀ x ∈ s.toCore, ∀ d ∈ x.header.parents, .certificate d ∈ s.store := by
  obtain ⟨s, hs⟩ : ∃ s, run eventsOfFour = some s := ⟨_, rfl⟩
  exact ⟨s, hs, given_back_once hs⟩

end CertificateWaiter

end NovelDag
