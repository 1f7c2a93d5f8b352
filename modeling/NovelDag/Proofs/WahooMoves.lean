import NovelDag.Proofs.WahooRounds

/-!
# What the handlers of a Wahoo node do

A node changes in small moves. A `Scene` is a node in the middle of its handlers, with what they owe:
blocks in hand that are to enter the DAG or to be parked, rounds to be checked for an advance, parked
blocks to be tried again, proposals to be voted on. A handler pays what its caller passes on to it
and whatever it comes to owe itself, so a node that has fully handled a message owes nothing.
-/

namespace NovelDag.Wahoo

open Handler

inductive Debt
  /-- A block of the round and author is in hand. -/
  | hold (round : ℕ) (author : PublicKey)
  /-- `try_to_next_round` is to be called. -/
  | check (round : ℕ)
  /-- `try_to_update_dag_from_pending` is to be called. -/
  | drain (round : ℕ)
  /-- `retry_pending_epbc` is to be called. -/
  | retry (round : ℕ)
  /-- The TS1 and TF shares on the block are to be sent. -/
  | shares (block : Header)
  deriving DecidableEq

abbrev Debts := Multiset Debt

/-- How far the node is with the block of its round. -/
inductive Stage
  | entered
  | marked
  /-- The block, of an odd round, is to be taken as a proposal. -/
  | offered (block : Header)
  | sent

structure Scene where
  node : Node
  debts : Debts := 0
  stage : Stage := .sent
  /-- The odd-round headers met, in proposals and in certificates. -/
  seen : List Header := []
  /-- The odd-round headers handled as proposals. -/
  proposals : List Header := []

/-- An effect that is neither a commit nor a block of the node. -/
def Effect.Quiet : Effect → Prop
  | .commit _ | .broadcastHeader _ => False
  | _ => True

/-- The rest of the node may change, and its trace by what is quiet. -/
structure Node.Frame (n n' : Node) : Prop where
  dag : n'.dag = n.dag
  pending : n'.pendingBlocks = n.pendingBlocks
  index : n'.blocksByDigest = n.blocksByDigest
  epbc : n'.epbcBlocks = n.epbcBlocks
  chain : n'.chain = n.chain
  leader : n'.leader = n.leader
  elected : n'.leaderElect = n.leaderElect
  round : n'.round = n.round
  counts : n'.moveRound = n.moveRound
  signaled : n'.nextRoundSignaled = n.nextRoundSignaled
  blockSend : n'.blockSend = n.blockSend
  votes : n'.sentVotes = n.sentVotes
  output : n'.pb.blockOutput = n.pb.blockOutput
  delivered : ∀ k, (n'.epbcDelivered.lookup k).isSome = (n.epbcDelivered.lookup k).isSome
  pb : ∀ r a b, n'.pb.pendingBlocks.lookup (r, a) = some b →
    n.pb.pendingBlocks.lookup (r, a) = some b ∨ b.round = r ∧ b.author = a ∧ r % 2 = 0
  trace : ∃ new, (∀ e ∈ new, e.1.Quiet) ∧ n'.trace = n.trace ++ new

/-- The votes for a phase of a block that the node has sent. -/
def Node.votesFor (n : Node) (b : Header) (phase : WahooVotePhase) : List Digest :=
  (n.sentVotes.lookup (b.round, b.author, phase)).getD []

/-- The blocks a node has sent. -/
def sentHeaders (trace : List (Effect × Blocks)) : List Header :=
  trace.filterMap fun e => match e.1 with
    | .broadcastHeader h => some h
    | _ => none

theorem sentHeaders_append_of {trace new : List (Effect × Blocks)}
    (h : ∀ e ∈ new, ∀ b, e.1 ≠ .broadcastHeader b) :
    sentHeaders (trace ++ new) = sentHeaders trace := by
  have hnil : sentHeaders new = [] := by
    refine List.filterMap_eq_nil_iff.2 fun e he => ?_
    split
    · exact absurd ‹_› (h e he _)
    · rfl
  unfold sentHeaders at hnil ⊢
  rw [List.filterMap_append, hnil, List.append_nil]

variable [Crypto] (c : NodeConfig) (given : Set Header)

inductive Move : Scene → Scene → Prop
  | frame {x : Scene} {n' : Node} (h : x.node.Frame n') : Move x { x with node := n' }
  | commit {x : Scene} (round : ℕ) :
    Move x { x with node := x.node.tryToCommitLeader c.order round }
  | elect {x : Scene} {round : ℕ} (name : PublicKey) (h : round ∉ x.node.leaderElect) :
    Move x { x with node := { x.node with
      leaderElect := insert round x.node.leaderElect
      leader := x.node.leader.insert (round - 1) name } }
  /-- PB hands on a block. -/
  | output {x : Scene} {b : Header}
    (h : x.node.pb.pendingBlocks.lookup (b.round, b.author) = some b)
    (hnew : (b.round, b.author) ∉ x.node.pb.blockOutput) :
    Move x { x with
      node := { x.node with pb := { x.node.pb with
        blockOutput := insert (b.round, b.author) x.node.pb.blockOutput } }
      debts := .hold b.round b.author ::ₘ x.debts }
  /-- A TS2 or TF certificate delivers a block. -/
  | deliver {x : Scene} {round : ℕ} {author : PublicKey} (phase : WahooVotePhase)
    (hodd : round % 2 = 1) (hnew : x.node.epbcDelivered.lookup (round, author) = none) :
    Move x { x with
      node := { x.node with
        epbcDelivered := x.node.epbcDelivered.insert (round, author) phase }
      debts := .hold round author ::ₘ x.debts }
  | insert {x : Scene} {b : Header} {d : Debts}
    (hd : x.debts = .hold b.round b.author ::ₘ d) (h : x.node.checkWhetherCanAddToDag b = true) :
    Move x { x with
      node := x.node.insertBlock b
      debts := .drain (b.round + 1) ::ₘ .retry (b.round + 1) ::ₘ d }
  | park {x : Scene} {b : Header} {d : Debts}
    (hd : x.debts = .hold b.round b.author ::ₘ d) (h : x.node.checkWhetherCanAddToDag b = false) :
    Move x { x with node := x.node.storePendingBlock b, debts := d }
  | drain {x : Scene} {round : ℕ} {d : Debts} (hd : x.debts = .drain round ::ₘ d) :
    Move x { x with
      node := { x.node with pendingBlocks := x.node.pendingBlocks.erase round }
      debts := ((x.node.pendingBlocks.level round).values.map fun b =>
        Debt.hold b.round b.author : List Debt) + d }
  /-- A block of an even round counts. -/
  | count {x : Scene} (round : ℕ) :
    Move x { x with node := x.node.countBlock round, debts := .check round ::ₘ x.debts }
  /-- A first proof of delivery counts. -/
  | storeDone {x : Scene} {done : WahooDone}
    (hnew : ((x.node.done.lookup done.round).getD ∅).lookup done.blockSender = none) :
    Move x { x with node := x.node.storeDone done, debts := .check done.round ::ₘ x.debts }
  | enter {x : Scene} {round : ℕ} (hstage : x.stage = .sent) (h : round = x.node.round ∧
      c.quorumNum ≤ (x.node.moveRound.lookup round).getD 0 ∧ round ∉ x.node.nextRoundSignaled) :
    Move x { x with
      node := { x.node with
        nextRoundSignaled := insert round x.node.nextRoundSignaled, round := round + 1 }
      debts := .check (round + 1) ::ₘ x.debts
      stage := .entered }
  | checked {x : Scene} {round : ℕ} {d : Debts} (hd : x.debts = .check round ::ₘ d)
    (h : ¬ (round = x.node.round ∧ c.quorumNum ≤ (x.node.moveRound.lookup round).getD 0 ∧
      round ∉ x.node.nextRoundSignaled)) : Move x { x with debts := d }
  | mark {x : Scene} (hstage : x.stage = .entered) (pendingDigests : List (Digest × ℕ)) :
    Move x { x with
      node := { x.node with pendingDigests, blockSend := insert x.node.round x.node.blockSend }
      stage := .marked }
  | send {x : Scene} {b : Header} (hstage : x.stage = .marked) (hround : b.round = x.node.round) :
    Move x { x with
      node := x.node.emit (.broadcastHeader b)
      stage := if b.round % 2 = 1 then .offered b else .sent }
  | propose {x : Scene} {b : Header} (hodd : b.round % 2 = 1)
    (h : x.stage = .sent ∧ b ∈ given ∨ x.stage = .offered b) :
    Move x
      { node := x.node.storeEpbcBlock b
        debts := if x.node.checkWhetherCanAddToDag b then .shares b ::ₘ x.debts else x.debts
        seen := b :: x.seen
        proposals := b :: x.proposals }
  | certify {x : Scene} {b : Header} (hodd : b.round % 2 = 1) (h : b ∈ given ∨ b ∈ x.seen) :
    Move x { x with
      node := { x.node with epbcBlocks := x.node.epbcBlocks.put b }, seen := b :: x.seen }
  | vote {x : Scene} {round : ℕ} {author : PublicKey} {phase : WahooVotePhase} {id : Digest}
    (hnew : (x.node.sentVotes.lookup (round, author, phase)).getD [] = [])
    (h : phase = .ts1 ∨ phase = .tf → ∃ b ∈ x.seen, b.round = round ∧ b.author = author ∧
      b.digest = id) :
    Move x { x with node := { x.node with
      sentVotes := x.node.sentVotes.insert (round, author, phase) [id] } }
  /-- The proposals to be voted on now. -/
  | collect {x : Scene} {round : ℕ} {d : Debts} (hd : x.debts = .retry round ::ₘ d) :
    Move x { x with debts := (((x.node.epbcBlocks.level round).values.filter fun b =>
      x.node.checkWhetherCanAddToDag b).map Debt.shares : List Debt) + d }
  | voted {x : Scene} {b : Header} {d : Debts} (hd : x.debts = .shares b ::ₘ d)
    (h : x.node.votesFor b .ts1 ≠ [] ∧ x.node.votesFor b .tf ≠ []) :
    Move x { x with debts := d }

abbrev Moves : Scene → Scene → Prop := Relation.ReflTransGen (Move c given)

/-- The node when its task starts: round 1 is entered, and its block is to be sent. -/
def start : Scene := { node := {}, stage := .entered }

/-- What the headers a node keeps are filed under. -/
structure Tidy (x : Scene) : Prop where
  dag : x.node.dag.Filed
  pending : x.node.pendingBlocks.Filed
  pb : ∀ r a b, x.node.pb.pendingBlocks.lookup (r, a) = some b →
    b.round = r ∧ b.author = a ∧ r % 2 = 0
  epbc : x.node.epbcBlocks.Filed
  epbcOdd : ∀ r a b, x.node.epbcBlocks.get r a = some b → r % 2 = 1
  epbcSeen : ∀ r a b, x.node.epbcBlocks.get r a = some b → b ∈ x.seen
  sharesSeen : ∀ b, .shares b ∈ x.debts → b ∈ x.seen

variable {c : NodeConfig} {given : Set Header} {x y : Scene}

omit [Crypto] in
theorem Node.storeDone_of_new {n : Node} {done : WahooDone}
    (hnew : ((n.done.lookup done.round).getD ∅).lookup done.blockSender = none) :
    n.storeDone done = { n with
      done := n.done.insert done.round
        (((n.done.lookup done.round).getD ∅).insert done.blockSender done)
      moveRound := n.moveRound.alter done.round fun count => count.getD 0 + 1
    }.emit (.storeDone done) := by
  unfold Node.storeDone
  simp only [hnew, Option.isSome_none, Bool.false_eq_true, if_false]

omit [Crypto] in
theorem tidy_start : Tidy start where
  dag r a b h := by simp [start, Blocks.get, Blocks.level] at h
  pending r a b h := by simp [start, Blocks.get, Blocks.level] at h
  pb r a b h := by simp [start] at h
  epbc r a b h := by simp [start, Blocks.get, Blocks.level] at h
  epbcOdd r a b h := by simp [start, Blocks.get, Blocks.level] at h
  epbcSeen r a b h := by simp [start, Blocks.get, Blocks.level] at h
  sharesSeen b h := by simp [start] at h

omit [Crypto] in
/-- A header of an odd round may be kept as a proposal. -/
theorem Tidy.putEpbc (h : Tidy x) {b : Header} (hodd : b.round % 2 = 1) :
    Tidy { x with
      node := { x.node with epbcBlocks := x.node.epbcBlocks.put b }, seen := b :: x.seen } where
  dag := h.dag
  pending := h.pending
  pb := h.pb
  epbc := h.epbc.put b
  epbcOdd r a b' hb := by
    change (x.node.epbcBlocks.put b).get r a = some b' at hb
    rw [Blocks.get_put] at hb
    split_ifs at hb with hk
    · exact hk.1 ▸ hodd
    · exact h.epbcOdd r a b' hb
  epbcSeen r a b' hb := by
    change (x.node.epbcBlocks.put b).get r a = some b' at hb
    rw [Blocks.get_put] at hb
    split_ifs at hb
    · exact Option.some.inj hb ▸ List.mem_cons_self
    · exact List.mem_cons_of_mem _ (h.epbcSeen r a b' hb)
  sharesSeen b' hb := List.mem_cons_of_mem _ (h.sharesSeen b' hb)

omit [Crypto] in
theorem Tidy.propose (h : Tidy x) {b : Header} (hodd : b.round % 2 = 1) :
    Tidy { x with node := x.node.storeEpbcBlock b, seen := b :: x.seen } := by
  unfold Node.storeEpbcBlock
  split_ifs
  · exact { h with
      epbcSeen := fun r a b' hb => List.mem_cons_of_mem _ (h.epbcSeen r a b' hb)
      sharesSeen := fun b' hb => List.mem_cons_of_mem _ (h.sharesSeen b' hb) }
  · exact h.putEpbc hodd

theorem Move.tidy (h : Move c given x y) (hx : Tidy x) : Tidy y := by
  cases h with
  | @frame n' h =>
    exact ⟨h.dag ▸ hx.dag, h.pending ▸ hx.pending, fun r a b hb => (h.pb r a b hb).elim
      (hx.pb r a b) id, h.epbc ▸ hx.epbc, h.epbc ▸ hx.epbcOdd, h.epbc ▸ hx.epbcSeen, hx.sharesSeen⟩
  | commit round =>
    obtain ⟨chain, iterations, new, -, heq⟩ := Commits.tryToCommitLeader c.order round x.node
    rw [heq]
    exact { hx with }
  | elect name h => exact { hx with }
  | output h hnew =>
    refine { hx with sharesSeen := fun b hb => ?_ }
    exact hx.sharesSeen b ((Multiset.mem_cons.1 hb).resolve_left nofun)
  | deliver phase hodd hnew =>
    refine { hx with sharesSeen := fun b hb => ?_ }
    exact hx.sharesSeen b ((Multiset.mem_cons.1 hb).resolve_left nofun)
  | @insert b d hd h =>
    refine { hx with dag := hx.dag.put b, sharesSeen := fun b' hb => ?_ }
    have hb := (Multiset.mem_cons.1 hb).resolve_left nofun
    have hb := (Multiset.mem_cons.1 hb).resolve_left nofun
    exact hx.sharesSeen b' (hd ▸ Multiset.mem_cons_of_mem hb)
  | @park b d hd h =>
    exact { hx with
      pending := hx.pending.put b
      sharesSeen := fun b' hb => hx.sharesSeen b' (hd ▸ Multiset.mem_cons_of_mem hb) }
  | @drain round d hd =>
    have hpending : Blocks.Filed (AList.erase round x.node.pendingBlocks) := fun r a b hb => by
      rw [Blocks.get_erase] at hb
      split_ifs at hb
      exact hx.pending r a b hb
    refine { hx with pending := hpending, sharesSeen := fun b' hb => ?_ }
    rcases Multiset.mem_add.1 hb with hb | hb
    · obtain ⟨b'', -, hb⟩ := List.mem_map.1 (Multiset.mem_coe.1 hb)
      cases hb
    · exact hx.sharesSeen b' (hd ▸ Multiset.mem_cons_of_mem hb)
  | count round =>
    refine { hx with sharesSeen := fun b hb => ?_ }
    exact hx.sharesSeen b ((Multiset.mem_cons.1 hb).resolve_left nofun)
  | storeDone hnew =>
    rw [Node.storeDone_of_new hnew]
    refine { hx with sharesSeen := fun b hb => ?_ }
    exact hx.sharesSeen b ((Multiset.mem_cons.1 hb).resolve_left nofun)
  | enter hstage h =>
    refine { hx with sharesSeen := fun b hb => ?_ }
    exact hx.sharesSeen b ((Multiset.mem_cons.1 hb).resolve_left nofun)
  | checked hd h =>
    exact { hx with sharesSeen := fun b hb => hx.sharesSeen b (hd ▸ Multiset.mem_cons_of_mem hb) }
  | mark hstage digests => exact { hx with }
  | send hstage hround => exact { hx with }
  | @propose b hodd h =>
    have hb := hx.propose hodd
    refine { hb with sharesSeen := fun b' hb' => ?_ }
    split_ifs at hb'
    · rcases Multiset.mem_cons.1 hb' with hb' | hb'
      · obtain rfl := Debt.shares.inj hb'
        exact List.mem_cons_self
      · exact hb.sharesSeen b' hb'
    · exact hb.sharesSeen b' hb'
  | certify hodd h => exact hx.putEpbc hodd
  | vote hnew h => exact { hx with }
  | @collect round d hd =>
    refine { hx with sharesSeen := fun b hb => ?_ }
    rcases Multiset.mem_add.1 hb with hb | hb
    · obtain ⟨b', hb', heq⟩ := List.mem_map.1 (Multiset.mem_coe.1 hb)
      obtain rfl := Debt.shares.inj heq
      obtain ⟨a, ha⟩ := FinMap.mem_values.1 (List.mem_filter.1 hb').1
      exact hx.epbcSeen round a b' ha
    · exact hx.sharesSeen b (hd ▸ Multiset.mem_cons_of_mem hb)
  | voted hd h =>
    exact { hx with sharesSeen := fun b hb => hx.sharesSeen b (hd ▸ Multiset.mem_cons_of_mem hb) }

/-- Votes are not sent anew for a round, an author and a phase. -/
theorem Move.votes_stay (h : Move c given x y) {key : ℕ × PublicKey × WahooVotePhase}
    (hkey : (x.node.sentVotes.lookup key).getD [] ≠ []) :
    y.node.sentVotes.lookup key = x.node.sentVotes.lookup key := by
  cases h with
  | frame h => rw [h.votes]
  | commit round =>
    obtain ⟨chain, iterations, new, -, heq⟩ := Commits.tryToCommitLeader c.order round x.node
    rw [heq]
  | storeDone hnew =>
    rw [Node.storeDone_of_new hnew]
    rfl
  | propose hodd h =>
    simp only [Node.storeEpbcBlock]
    split_ifs <;> rfl
  | vote hnew h =>
    rw [FinMap.lookup_insert_ite, if_neg]
    rintro rfl
    exact hkey hnew
  | _ => rfl

theorem Moves.votes_stay (h : Moves c given x y) {key : ℕ × PublicKey × WahooVotePhase}
    (hkey : (x.node.sentVotes.lookup key).getD [] ≠ []) :
    y.node.sentVotes.lookup key = x.node.sentVotes.lookup key := by
  induction h with
  | refl => rfl
  | tail _ h ih => rw [h.votes_stay (by rwa [ih]), ih]

theorem Move.proposals_subset (h : Move c given x y) : x.proposals ⊆ y.proposals := by
  cases h with
  | propose => exact List.subset_cons_self _ _
  | _ => exact List.Subset.refl _

theorem Moves.proposals_subset (h : Moves c given x y) : x.proposals ⊆ y.proposals := by
  induction h with
  | refl => exact List.Subset.refl _
  | tail _ h ih => exact List.Subset.trans ih h.proposals_subset

theorem Move.seen_subset (h : Move c given x y) : x.seen ⊆ y.seen := by
  cases h with
  | propose => exact List.subset_cons_self _ _
  | certify => exact List.subset_cons_self _ _
  | _ => exact List.Subset.refl _

theorem Moves.seen_subset (h : Moves c given x y) : x.seen ⊆ y.seen := by
  induction h with
  | refl => exact List.Subset.refl _
  | tail _ h ih => exact List.Subset.trans ih h.seen_subset

theorem Moves.tidy_of (h : Moves c given x y) (hx : Tidy x) : Tidy y := by
  induction h with
  | refl => exact hx
  | tail _ h ih => exact h.tidy ih

theorem Moves.tidy (h : Moves c given start x) : Tidy x := h.tidy_of tidy_start

end NovelDag.Wahoo
