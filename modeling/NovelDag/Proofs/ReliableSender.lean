import NovelDag.ReliableSender

/-!
# The order of the messages of a connection

A message that is submitted is in the channel, in the buffer, in the writer or among those without an
ACK, until its ACK comes. It leaves them otherwise only if it has been cancelled: the buffer drops
such a message when it comes up to be written, or while the connection is down. What moves between
them keeps the order of submission, and the messages without an ACK are those written on the current
stream.
-/

namespace NovelDag.Network.Connection

/-- Not cancelled. -/
def live (s : Connection) (message : InnerMessage) : Bool := !s.isClosed message

def isAcknowledged (s : Connection) (message : InnerMessage) : Bool :=
  decide (message.cancelHandler ∈ s.acknowledged.map Prod.fst)

/-- The messages in flight, in the writer, in the buffer and in the channel. -/
def held (s : Connection) : List InnerMessage :=
  s.pendingReplies ++ (s.awaits.message.toList ++ (s.buffer ++ s.receiver))

/-- The messages submitted that are neither acknowledged nor cancelled. -/
def outstanding (s : Connection) : List InnerMessage :=
  s.submitted.filter fun message => s.live message && !s.isAcknowledged message

/-- The oldest message written on the current stream and not yet acknowledged. -/
def oldest (s : Connection) : Option InnerMessage :=
  s.written.find? fun message => !s.isAcknowledged message

/-- What is held is what is outstanding, but for messages that were cancelled. -/
structure Ordered (s : Connection) : Prop where
  numbered : s.submitted.map InnerMessage.cancelHandler = List.range s.submitted.length
  answered : ∀ handler ∈ s.acknowledged.map Prod.fst, handler < s.submitted.length
  sublist : s.held.Sublist s.submitted
  kept : s.held.filter s.live = s.outstanding
  unacknowledged : ∀ message ∈ s.held, s.isAcknowledged message = false
  stream : s.written.filter (fun message => !s.isAcknowledged message) = s.pendingReplies
  idle : s.awaits = .connect ∨ s.awaits = .timer → s.pendingReplies = []

variable {s s' : Connection} {message : InnerMessage}

theorem Ordered.pairwise (h : Ordered s) :
    (s.held.map InnerMessage.cancelHandler).Pairwise (· < ·) :=
  (h.numbered ▸ List.pairwise_lt_range).sublist (h.sublist.map _)

/-- What happens between the queues: a message goes on, or is dropped once cancelled. -/
structure Shifts (s s' : Connection) : Prop where
  submitted : s'.submitted = s.submitted
  cancelled : s'.cancelled = s.cancelled
  acknowledged : s'.acknowledged = s.acknowledged
  sublist : s'.held.Sublist s.held
  kept : s'.held.filter s'.live = s.held.filter s.live

theorem Ordered.shift (h : Ordered s) (hm : Shifts s s')
    (hstream : s'.written.filter (fun message => !s'.isAcknowledged message) = s'.pendingReplies)
    (hidle : s'.awaits = .connect ∨ s'.awaits = .timer → s'.pendingReplies = []) : Ordered s' where
  numbered := by rw [hm.submitted]; exact h.numbered
  answered := by rw [hm.submitted, hm.acknowledged]; exact h.answered
  sublist := by rw [hm.submitted]; exact hm.sublist.trans h.sublist
  kept := by
    rw [hm.kept, h.kept]
    simp only [outstanding, live, isClosed, isAcknowledged, hm.submitted, hm.cancelled,
      hm.acknowledged]
  unacknowledged := fun message hmem => by
    simpa only [isAcknowledged, hm.acknowledged] using
      h.unacknowledged message (hm.sublist.subset hmem)
  stream := hstream
  idle := hidle

/-! ## The queues -/

theorem filter_dropWhile {α : Type*} (p : α → Bool) (l : List α) :
    (l.dropWhile p).filter (fun a => !p a) = l.filter fun a => !p a := by
  induction l with
  | nil => rfl
  | cons a l ih =>
    rcases ha : p a with _ | _ <;> simp [ha, ih]

section Transmit

variable (s)

@[simp] theorem transmit_submitted : s.transmit.submitted = s.submitted := by
  unfold transmit; split <;> rfl

@[simp] theorem transmit_cancelled : s.transmit.cancelled = s.cancelled := by
  unfold transmit; split <;> rfl

@[simp] theorem transmit_acknowledged : s.transmit.acknowledged = s.acknowledged := by
  unfold transmit; split <;> rfl

@[simp] theorem transmit_written : s.transmit.written = s.written := by
  unfold transmit; split <;> rfl

@[simp] theorem transmit_pendingReplies : s.transmit.pendingReplies = s.pendingReplies := by
  unfold transmit; split <;> rfl

theorem transmit_awaits : s.transmit.awaits ≠ .connect ∧ s.transmit.awaits ≠ .timer := by
  unfold transmit; split <;> exact ⟨nofun, nofun⟩

/-- The messages before the first that is not cancelled are dropped. -/
theorem transmit_held : s.transmit.held =
    s.pendingReplies ++ (s.buffer.dropWhile s.isClosed ++ s.receiver) := by
  unfold transmit
  rcases s.buffer.dropWhile s.isClosed with _ | ⟨message, buffer⟩ <;> rfl

theorem disconnect_held (error : NetworkError) :
    (s.disconnect error).held = s.pendingReplies ++ (s.buffer ++ s.receiver) := by
  simp [disconnect, held, Await.message]

end Transmit

/-- The messages go on to the writer. -/
theorem shifts_transmit (hs : s.held = s'.pendingReplies ++ (s'.buffer ++ s'.receiver))
    (hsubmitted : s'.submitted = s.submitted) (hcancelled : s'.cancelled = s.cancelled)
    (hacknowledged : s'.acknowledged = s.acknowledged) : Shifts s s'.transmit where
  submitted := by rw [transmit_submitted, hsubmitted]
  cancelled := by rw [transmit_cancelled, hcancelled]
  acknowledged := by rw [transmit_acknowledged, hacknowledged]
  sublist := by
    rw [transmit_held, hs]
    exact ((List.dropWhile_sublist _).append_right _).append_left _
  kept := by
    have hlive : s'.transmit.live = fun message => !s'.isClosed message := by
      funext message
      simp [live, isClosed]
    have hlive' : s.live = fun message => !s'.isClosed message := by
      funext message
      simp [live, isClosed, hcancelled]
    rw [transmit_held, hs, hlive, hlive']
    simp only [List.filter_append, filter_dropWhile]

/-! ## Steps -/

theorem Ordered.transmit (h : Ordered s) (hm : Shifts s s'.transmit)
    (hstream : s'.written.filter (fun message => !s.isAcknowledged message) = s'.pendingReplies) :
    Ordered s'.transmit := by
  refine h.shift hm ?_ fun hidle => absurd hidle (not_or.2 (transmit_awaits s'))
  rw [transmit_written, transmit_pendingReplies, ← hstream]
  simp only [isAcknowledged, hm.acknowledged]

/-- A new message is numbered, and the last one. -/
theorem Ordered.submit (h : Ordered s) (data : List UInt8) : Ordered (s.submit data) := by
  let message : InnerMessage := { data, cancelHandler := s.submitted.length }
  have hnew : s.isAcknowledged message = false :=
    decide_eq_false fun hmem => (h.answered _ hmem).false
  have hheld : (s.submit data).held = s.held ++ [message] := by
    simp [Connection.submit, held, message]
  refine ⟨?_, ?_, ?_, ?_, ?_, h.stream, h.idle⟩
  · simp [Connection.submit, h.numbered, List.range_succ]
  · intro handler hmem
    simpa [Connection.submit] using (h.answered handler hmem).trans (Nat.lt_succ_self _)
  · rw [hheld]
    exact h.sublist.append (List.Sublist.refl _)
  · rw [hheld]
    calc (s.held ++ [message]).filter s.live
        = s.outstanding ++ [message].filter s.live := by rw [List.filter_append, h.kept]
      _ = (s.submit data).outstanding := by
        unfold outstanding
        rw [show (s.submit data).submitted = s.submitted ++ [message] from rfl, List.filter_append]
        exact congrArg _ (List.filter_congr fun m hm => by
          obtain rfl := List.mem_singleton.1 hm
          exact (by simp [hnew] : s.live message = (s.live message && !s.isAcknowledged message)))
  · rw [hheld]
    intro m hm
    rcases List.mem_append.1 hm with hm | hm
    · exact h.unacknowledged m hm
    · obtain rfl := List.mem_singleton.1 hm
      exact hnew

theorem Ordered.cancel (h : Ordered s) (handler : ℕ) :
    Ordered { s with cancelled := insert handler s.cancelled } := by
  refine ⟨h.numbered, h.answered, h.sublist, ?_, h.unacknowledged, h.stream, h.idle⟩
  have hlive : ∀ message, live { s with cancelled := insert handler s.cancelled } message =
      (decide (message.cancelHandler ≠ handler) && s.live message) := fun message => by
    simp [live, isClosed, Finset.mem_insert]
  have hkept := congrArg (List.filter fun message => decide (message.cancelHandler ≠ handler)) h.kept
  unfold outstanding at hkept ⊢
  rw [List.filter_filter, List.filter_filter] at hkept
  calc s.held.filter (live { s with cancelled := insert handler s.cancelled })
      = s.held.filter fun message =>
          decide (message.cancelHandler ≠ handler) && s.live message :=
        List.filter_congr fun message _ => hlive message
    _ = _ := hkept
    _ = _ := List.filter_congr fun message _ => by rw [hlive, Bool.and_assoc]; rfl

/-- The head of the messages in flight goes, and nothing else. -/
theorem Ordered.acknowledge {pendingReplies : List InnerMessage} (h : Ordered s)
    (hpending : s.pendingReplies = message :: pendingReplies) (bytes : List UInt8) :
    Ordered { s with
      pendingReplies
      acknowledged := s.acknowledged ++ [(message.cancelHandler, bytes)] } := by
  let rest := pendingReplies ++ (s.awaits.message.toList ++ (s.buffer ++ s.receiver))
  have hheld : s.held = message :: rest := by simp [held, hpending, rest]
  have hlt := h.pairwise
  rw [hheld, List.map_cons, List.pairwise_cons] at hlt
  have hother : ∀ m ∈ rest, m.cancelHandler ≠ message.cancelHandler := fun m hm =>
    (hlt.1 _ (List.mem_map_of_mem hm)).ne'
  have hmem : message ∈ s.submitted := h.sublist.subset (hheld ▸ List.mem_cons_self)
  have hack : ∀ m, isAcknowledged { s with
      pendingReplies
      acknowledged := s.acknowledged ++ [(message.cancelHandler, bytes)] } m =
      (s.isAcknowledged m || decide (m.cancelHandler = message.cancelHandler)) := fun m => by
    simp only [isAcknowledged, List.map_append, List.map_cons, List.map_nil, List.mem_append,
      List.mem_singleton, Bool.decide_or]
  have hrest : rest.filter (fun m => decide (m.cancelHandler ≠ message.cancelHandler)) = rest :=
    List.filter_eq_self.2 fun m hm => decide_eq_true (hother m hm)
  refine ⟨h.numbered, ?_, ?_, ?_, ?_, ?_, fun hidle => absurd (h.idle hidle) (by simp [hpending])⟩
  · intro handler hmem'
    rw [List.map_append, List.mem_append] at hmem'
    rcases hmem' with hold | hnew
    · exact h.answered handler hold
    · obtain rfl := List.mem_singleton.1 hnew
      exact List.mem_range.1 (h.numbered ▸ List.mem_map_of_mem hmem)
  · exact (hheld ▸ List.sublist_cons_self message rest : rest.Sublist s.held).trans h.sublist
  · -- both sides lose the message and nothing else
    have hkept := congrArg
      (List.filter fun m => decide (m.cancelHandler ≠ message.cancelHandler)) h.kept
    unfold outstanding at hkept ⊢
    rw [List.filter_filter, List.filter_filter, hheld, List.filter_cons_of_neg (by simp)] at hkept
    calc rest.filter s.live
        = (rest.filter fun m => decide (m.cancelHandler ≠ message.cancelHandler)).filter s.live := by
          rw [hrest]
      _ = rest.filter fun m =>
            decide (m.cancelHandler ≠ message.cancelHandler) && s.live m := by
          rw [List.filter_filter]
          exact List.filter_congr fun m _ => Bool.and_comm _ _
      _ = _ := hkept
      _ = _ := List.filter_congr fun m _ => by
          rw [hack, Bool.not_or, ← decide_not, Bool.and_left_comm, Bool.and_comm (decide _)]
          rfl
  · intro m hm
    rw [hack, h.unacknowledged m (hheld ▸ List.mem_cons_of_mem _ hm), Bool.false_or]
    exact decide_eq_false (hother m hm)
  · have hpend : pendingReplies.filter
        (fun m => decide (m.cancelHandler ≠ message.cancelHandler)) = pendingReplies :=
      List.filter_eq_self.2 fun m hm => decide_eq_true (hother m (List.mem_append_left _ hm))
    have hstream := congrArg
      (List.filter fun m => decide (m.cancelHandler ≠ message.cancelHandler)) h.stream
    rw [List.filter_filter, hpending, List.filter_cons_of_neg (by simp), hpend] at hstream
    refine Eq.trans (List.filter_congr fun m _ => ?_) hstream
    rw [hack, Bool.not_or, ← decide_not, Bool.and_comm]

theorem Ordered.disconnect (h : Ordered s) (s' : Connection)
    (hs : s.held = s'.pendingReplies ++ (s'.buffer ++ s'.receiver))
    (hsubmitted : s'.submitted = s.submitted) (hcancelled : s'.cancelled = s.cancelled)
    (hacknowledged : s'.acknowledged = s.acknowledged) (error : NetworkError) :
    Ordered (s'.disconnect error) := by
  have hheld : (s'.disconnect error).held = s.held := by rw [disconnect_held, hs]
  have hlive : (s'.disconnect error).live = s.live := by
    funext message
    simp [live, isClosed, Connection.disconnect, hcancelled]
  exact h.shift ⟨hsubmitted, hcancelled, hacknowledged, hheld ▸ List.Sublist.refl _,
    by rw [hheld, hlive]⟩ rfl fun _ => rfl

theorem Ordered.respond (h : Ordered s) (hawaits : s.awaits = .select)
    (response : Option (List UInt8)) : Ordered (s.respond response) := by
  have hheld : s.held = s.pendingReplies ++ (s.buffer ++ s.receiver) := by
    simp [held, hawaits, Await.message]
  unfold Connection.respond
  split
  next => exact h.disconnect s hheld rfl rfl rfl _
  next message pendingReplies hpending =>
    split
    next bytes =>
      have hack := h.acknowledge hpending bytes
      refine hack.transmit (shifts_transmit ?_ rfl rfl rfl) hack.stream
      simp [held, hawaits, Await.message]
    next => exact h.disconnect s hheld rfl rfl rfl _

theorem Ordered.step {event : Event} (h : Ordered s) (hs : s.step event = some s') :
    Ordered s' := by
  unfold Connection.step at hs
  split at hs
  next data =>
    obtain rfl := Option.some.inj hs
    exact h.submit data
  next handler =>
    split_ifs at hs
    obtain rfl := Option.some.inj hs
    exact h.cancel handler
  next hawaits =>
    obtain rfl := Option.some.inj hs
    have hpending := h.idle (.inl hawaits)
    refine h.transmit (shifts_transmit ?_ rfl rfl rfl) rfl
    simp [held, hawaits, hpending, Await.message]
  next hawaits =>
    obtain rfl := Option.some.inj hs
    have hpending := h.idle (.inl hawaits)
    have hheld : held { s with
        warnings := s.warnings ++ [.failedToConnect s.retry], awaits := .timer } = s.held := by
      simp [held, hawaits, Await.message]
    exact h.shift ⟨rfl, rfl, rfl, hheld ▸ List.Sublist.refl _, by rw [hheld]; rfl⟩ h.stream
      fun _ => hpending
  next hawaits =>
    obtain rfl := Option.some.inj hs
    have hpending := h.idle (.inr hawaits)
    have hheld : held { s with
        delay := min (2 * s.delay) 60000, retry := s.retry + 1, awaits := .connect } = s.held := by
      simp [held, hawaits, Await.message]
    exact h.shift ⟨rfl, rfl, rfl, hheld ▸ List.Sublist.refl _, by rw [hheld]; rfl⟩ h.stream
      fun _ => hpending
  next hawaits =>
    split at hs
    next => cases hs
    next message receiver hreceiver =>
      obtain rfl := Option.some.inj hs
      have hheld : s.held = s.buffer ++ [message] ++ receiver := by
        simp [held, hawaits, Await.message, hreceiver, h.idle (.inr hawaits)]
      have hheld' : held { s with
          receiver
          buffer := (s.buffer ++ [message]).filter fun message => !s.isClosed message } =
          (s.buffer ++ [message]).filter s.live ++ receiver := by
        simp [held, hawaits, Await.message, h.idle (.inr hawaits)]
        rfl
      refine h.shift ⟨rfl, rfl, rfl, ?_, ?_⟩ h.stream h.idle
      · rw [hheld, hheld']
        exact (List.filter_sublist).append_right _
      · rw [hheld, hheld']
        change ((s.buffer ++ [message]).filter s.live ++ receiver).filter s.live =
          (s.buffer ++ [message] ++ receiver).filter s.live
        simp only [List.filter_append, List.filter_filter, Bool.and_self]
  next message hawaits =>
    obtain rfl := Option.some.inj hs
    have hmem : message ∈ s.held := by simp [held, hawaits, Await.message]
    refine h.transmit (shifts_transmit ?_ rfl rfl rfl) ?_
    · simp [held, hawaits, Await.message]
    · simp [h.stream, h.unacknowledged message hmem]
  next message hawaits =>
    obtain rfl := Option.some.inj hs
    refine h.disconnect { s with buffer := message :: s.buffer } ?_ rfl rfl rfl _
    simp [held, hawaits, Await.message]
  next hawaits =>
    split at hs
    next => cases hs
    next message receiver hreceiver =>
      obtain rfl := Option.some.inj hs
      refine h.transmit (shifts_transmit ?_ rfl rfl rfl) h.stream
      simp [held, hawaits, Await.message, hreceiver]
  next response hawaits =>
    obtain rfl := Option.some.inj hs
    exact h.respond hawaits response
  next => cases hs

theorem ordered_init : Ordered {} :=
  ⟨rfl, nofun, List.Sublist.refl _, rfl, nofun, rfl, fun _ => rfl⟩

theorem Ordered.run {events : List Event} (h : Ordered s) (hs : s.run events = some s') :
    Ordered s' := by
  induction events generalizing s with
  | nil => exact Option.some.inj hs ▸ h
  | cons event events ih =>
    obtain ⟨s₁, hs₁, hrest⟩ := Option.bind_eq_some_iff.1 hs
    exact ih (h.step hs₁) hrest

/-! ## ACKs -/

theorem Ordered.oldest_eq (h : Ordered s) : s.oldest = s.pendingReplies.head? := by
  rw [← h.stream, oldest, List.head?_filter]

/-- An ACK is for the oldest message without one, and without such a message the stream is given
up. -/
structure Answers (s : Connection) (bytes : List UInt8) (s' : Connection) : Prop where
  oldest : ∀ message, s.oldest = some message →
    s'.acknowledged = s.acknowledged ++ [(message.cancelHandler, bytes)]
  unexpected : s.oldest = none → s'.acknowledged = s.acknowledged ∧
    s'.awaits = .connect ∧ s'.warnings = s.warnings ++ [NetworkError.unexpectedAck]

theorem step_response {response : Option (List UInt8)}
    (hs : s.step (.response response) = some s') : s' = s.respond response := by
  rcases hawaits : s.awaits with _ | _ | _ | _ <;> simp only [step, hawaits, reduceCtorEq] at hs
  exact (Option.some.inj hs).symm

theorem Ordered.answers {bytes : List UInt8} (h : Ordered s)
    (hs : s.step (.response (some bytes)) = some s') : Answers s bytes s' := by
  have holdest := h.oldest_eq
  obtain rfl := step_response hs
  unfold Connection.respond
  rcases hpending : s.pendingReplies with _ | ⟨message, pendingReplies⟩ <;> rw [hpending] at holdest
  · exact ⟨fun message hmessage => by simp [holdest] at hmessage, fun _ => ⟨rfl, rfl, rfl⟩⟩
  · refine ⟨fun message' hmessage => ?_, fun hnone => by simp [holdest] at hnone⟩
    obtain rfl : message = message' := by simpa [holdest] using hmessage
    exact transmit_acknowledged _

/-- In every run, what is outstanding is what is held and not cancelled, in the order of submission
and without duplicates, and every ACK is for the oldest message without one. -/
theorem run_keeps_order {events : List Event} (hs : run {} events = some s) :
    s.held.filter s.live = s.outstanding ∧
      (s.held.map InnerMessage.cancelHandler).Pairwise (· < ·) ∧
      s.submitted.map InnerMessage.cancelHandler = List.range s.submitted.length ∧
      ∀ bytes s', s.step (.response (some bytes)) = some s' → Answers s bytes s' := by
  have h := ordered_init.run hs
  exact ⟨h.kept, h.pairwise, h.numbered, fun bytes s' => h.answers⟩

/-- One message is written, and the stream fails when the next is to be. -/
def retried : List Event :=
  [.submit [], .submit [], .connect true, .recv, .write true, .recv, .write false]

theorem run_keeps_order_retried : (run {} retried).map held = some [⟨[], 0⟩, ⟨[], 1⟩] ∧
    ∃ s, run {} retried = some s ∧ s.held.filter s.live = s.outstanding := by
  obtain ⟨s, hs⟩ : ∃ s, run {} retried = some s := ⟨_, rfl⟩
  exact ⟨rfl, s, hs, (run_keeps_order hs).1⟩

/-- Down, a connection keeps in its buffer a message cancelled there. -/
theorem cancelled_held : ¬ ∀ events s, run {} events = some s →
    s.pendingReplies ++ s.buffer = s.outstanding := fun hall =>
  absurd (hall [.connect false, .submit [], .recv, .cancel 0] _ rfl) (by decide)

end NovelDag.Network.Connection
