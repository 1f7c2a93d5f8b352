import NovelDag.QuorumWaiter

/-!
# What the quorum waiter sends on

The stake the waiter counts is that of all handlers that completed. It is the stake that has the
batch only if none of them was closed without an acknowledgement, or if those do not matter.
-/

namespace NovelDag

namespace QuorumWaiter

variable {q : QuorumWaiter} {message : QuorumWaiterMessage}

theorem waitForQuorum_iff {threshold : ℕ} : ∀ {stakes : List ℕ} {totalStake : ℕ},
    totalStake < threshold →
      (waitForQuorum threshold totalStake stakes = true ↔ threshold ≤ totalStake + stakes.sum)
  | [], totalStake, h => by simp [waitForQuorum, h]
  | stake :: stakes, totalStake, h => by
    rw [waitForQuorum, List.sum_cons]
    split_ifs with hreached
    · simp only [true_iff]
      omega
    · rw [waitForQuorum_iff (not_le.1 hreached), Nat.add_assoc]

/-- The stake of all handlers that completed. -/
def completedStake (q : QuorumWaiter) (message : QuorumWaiterMessage) : ℕ :=
  (message.completed.map fun c => q.committee.stake c.1).sum

/-- The authorities that acknowledged the batch. -/
def ackedBy (message : QuorumWaiterMessage) : Finset PublicKey :=
  ((message.completed.filter fun c => c.2 = .acked).map Prod.fst).toFinset

/-- The stake of the authorities that acknowledged the batch. -/
def ackedStake (q : QuorumWaiter) (message : QuorumWaiterMessage) : ℕ :=
  Weighted.weight q.committee.stake (ackedBy message)

theorem ackedStake_le_completedStake : q.ackedStake message ≤ q.completedStake message := by
  unfold ackedStake completedStake ackedBy
  have hsub : (message.completed.filter fun c => c.2 = .acked).Sublist message.completed :=
    List.filter_sublist
  calc Weighted.weight q.committee.stake _
      ≤ (((message.completed.filter fun c => c.2 = .acked).map Prod.fst).map
          q.committee.stake).sum := Weighted.weight_toFinset_le _ _
    _ = ((message.completed.filter fun c => c.2 = .acked).map fun c =>
          q.committee.stake c.1).sum := by rw [List.map_map]; rfl
    _ ≤ (message.completed.map fun c => q.committee.stake c.1).sum :=
          (hsub.map _).sum_le_sum fun _ _ => Nat.zero_le _

/-- What is sent on is the batch, once, and exactly if all completed handlers bring the quorum. -/
theorem receive_fst : (q.receive message).1 =
    if q.committee.quorumThreshold ≤ q.stake + q.completedStake message then [message.batch]
    else [] := by
  unfold receive
  by_cases hown : q.committee.quorumThreshold ≤ q.stake
  · rw [if_pos hown, if_pos (by omega)]
  · have hloop := @waitForQuorum_iff _ (q.delivered message) _ (not_le.1 hown)
    rw [if_neg hown]
    split_ifs with h₁ h₂ h₂
    · rfl
    · exact absurd (hloop.1 h₁) h₂
    · exact absurd (hloop.2 h₂) h₁
    · rfl

/-- The batch is sent on once at most, and exactly if what was acknowledged brings the quorum. -/
def SentOnQuorum (q : QuorumWaiter) (message : QuorumWaiterMessage)
    (sent : List (List UInt8)) : Prop :=
  (sent = [] ∨ sent = [message.batch]) ∧
    (sent = [message.batch] ↔ q.committee.quorumThreshold ≤ q.stake + q.ackedStake message)

/-- What was closed without an acknowledgement, or names an authority again, does not bring the
quorum. -/
def ClosedIrrelevant (q : QuorumWaiter) (message : QuorumWaiterMessage) : Prop :=
  q.committee.quorumThreshold ≤ q.stake + q.ackedStake message ∨
    q.stake + q.completedStake message < q.committee.quorumThreshold

theorem sentOnQuorum_receive_iff :
    SentOnQuorum q message (q.receive message).1 ↔ ClosedIrrelevant q message := by
  have hle : q.ackedStake message ≤ q.completedStake message := ackedStake_le_completedStake
  unfold SentOnQuorum ClosedIrrelevant
  rw [receive_fst]
  split_ifs with hall
  · simp only [or_true, true_and, true_iff]
    omega
  · simp only [true_or, true_and, false_iff]
    omega

/-- The main loop treats every message it receives alike. -/
theorem mem_zip_run : ∀ {messages : List QuorumWaiterMessage} {e},
    e ∈ messages.zip (q.run messages) → e.2 = (q.receive e.1).1
  | [], e, h => by simp at h
  | message :: messages, e, h => by
    rw [run] at h
    rcases hreceive : q.receive message with ⟨sent, _ | _⟩ <;> rw [hreceive] at h
    · simp only [List.zip_cons_cons, List.zip_nil_right, List.mem_singleton] at h
      rw [h, hreceive]
    · simp only [List.zip_cons_cons, List.mem_cons] at h
      rcases h with rfl | h
      · rw [hreceive]
      · exact mem_zip_run h

/-- Of every message received: the batch is sent on as it should be exactly if the handlers that
were closed make no difference. -/
theorem batch_sent_iff (q : QuorumWaiter) (messages : List QuorumWaiterMessage) :
    ∀ e ∈ messages.zip (q.run messages), SentOnQuorum q e.1 e.2 ↔ ClosedIrrelevant q e.1 := by
  intro e he
  rw [mem_zip_run he]
  exact sentOnQuorum_receive_iff

/-- One of four authorities whose peers are all gone. -/
def alone : QuorumWaiter := ⟨Committee.uniform 4, 1⟩

def closedMessage : QuorumWaiterMessage := ⟨[7], [(1, .closed), (2, .closed), (3, .closed)], []⟩

theorem not_batch_sent : alone.run [closedMessage] = [[[7]]] ∧ ackedBy closedMessage = ∅ ∧
    ¬ SentOnQuorum alone closedMessage [[7]] := by
  refine ⟨by decide, by decide, ?_⟩
  rintro ⟨-, h⟩
  have hquorum := h.1 rfl
  revert hquorum
  decide

def ackedMessage : QuorumWaiterMessage := ⟨[7], [(2, .acked), (1, .closed), (3, .acked)], []⟩

theorem batch_sent_iff_acked : SentOnQuorum alone ackedMessage [[7]] :=
  (batch_sent_iff alone [ackedMessage] (ackedMessage, [[7]]) (by decide)).2
    (.inl (by decide))

end QuorumWaiter

end NovelDag
