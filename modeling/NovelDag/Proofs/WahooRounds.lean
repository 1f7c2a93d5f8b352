import NovelDag.Proofs.WahooChain
import NovelDag.Proofs.WahooVotes
import NovelDag.Proofs.LeaderLink

/-!
# Rounds of a Wahoo node

A node enters a round when it has counted enough blocks, or proofs of delivery, of the round before,
and its block refers to the blocks of that round in its DAG. The blocks of an even round are counted
as they enter the DAG, each author once, since PB hands on one block of an author; until then a
block is in the hand of a handler or parked, and a token for it says so. The proofs of an odd round
are counted as they are stored, so there the DAG has enough blocks if each proof is for a block in
it.
-/

namespace NovelDag.Wahoo

open Handler

/-- Every proof of delivery was stored in an odd round, for a block in the DAG. -/
def DoneInDag (trace : List (Effect × Blocks)) : Prop :=
  ∀ done dag, (Effect.storeDone done, dag) ∈ trace →
    done.round % 2 = 1 ∧ (dag.get done.round done.blockSender).isSome

section Defs

variable [Crypto] (q : ℕ)

/-- The parents are on the digests of blocks of the round before by `q` authors, all in the DAG. -/
def Quorate (h : Header) (dag : Blocks) : Prop :=
  ∃ authors : Finset PublicKey, q ≤ authors.card ∧ ∀ a ∈ authors, ∃ b,
    dag.get (h.round - 1) a = some b ∧ b.round = h.round - 1 ∧ b.author = a ∧
      b.digest ∈ h.parents

def QuorateBlocks (trace : List (Effect × Blocks)) : Prop :=
  ∀ h dag, (Effect.broadcastHeader h, dag) ∈ trace → 2 ≤ h.round → Quorate q h dag

/-- What holds of a trace also when a handler fails. -/
def Sound (n : Node) : Prop := DoneInDag n.trace → QuorateBlocks q n.trace

end Defs

/-- The part of a node its rounds depend on. -/
structure View where
  dag : Blocks
  pending : Blocks
  output : Finset (ℕ × PublicKey)
  pbBlocks : FinMap (ℕ × PublicKey) Header
  epbcBlocks : Blocks
  moveRound : FinMap ℕ ℕ
  done : FinMap ℕ (FinMap PublicKey WahooDone)
  trace : List (Effect × Blocks)

def Node.view (n : Node) : View :=
  ⟨n.dag, n.pendingBlocks, n.pb.blockOutput, n.pb.pendingBlocks, n.epbcBlocks, n.moveRound, n.done,
    n.trace⟩

def doneLevel (done : FinMap ℕ (FinMap PublicKey WahooDone)) (round : ℕ) :
    FinMap PublicKey WahooDone := (done.lookup round).getD ∅

/-- Tokens for the blocks of even rounds in the hand of a handler. -/
abbrev Tokens := Multiset (ℕ × PublicKey)

def token (b : Header) : Tokens := if b.round % 2 = 0 then {(b.round, b.author)} else 0

/-- Blocks are kept under their round and author. -/
def Blocks.Filed (blocks : Blocks) : Prop :=
  ∀ r a b, blocks.get r a = some b → b.round = r ∧ b.author = a

/-- One where there is a block. -/
def Blocks.count (blocks : Blocks) (r : ℕ) (a : PublicKey) : ℕ := (blocks.get r a).toList.length

/-- The invariant of the rounds, with the tokens in the hands of handlers. -/
structure Inv [Crypto] (q : ℕ) (hand : Tokens) (v : View) : Prop where
  tokens : ∀ r a, r % 2 = 0 → hand.count (r, a) + v.pending.count r a + v.dag.count r a ≤
    if (r, a) ∈ v.output then 1 else 0
  dagFiled : v.dag.Filed
  pendingFiled : v.pending.Filed
  pbFiled : ∀ r a b, v.pbBlocks.lookup (r, a) = some b → b.round = r ∧ b.author = a
  epbcFiled : v.epbcBlocks.Filed
  epbcOdd : ∀ r a b, v.epbcBlocks.get r a = some b → r % 2 = 1
  done : DoneInDag v.trace → ∀ r a, ((doneLevel v.done r).lookup a).isSome →
    r % 2 = 1 ∧ (v.dag.get r a).isSome
  count : DoneInDag v.trace → ∀ r, (v.moveRound.lookup r).getD 0 ≤
    if r % 2 = 0 then (v.dag.level r).keys.length else (doneLevel v.done r).keys.length
  sound : DoneInDag v.trace → QuorateBlocks q v.trace

/-! ## Blocks -/

section Blocks

theorem Blocks.Filed.put {blocks : Blocks} (h : blocks.Filed) (b : Header) :
    (blocks.put b).Filed := fun r a b' hb' => by
  rw [Blocks.get_put] at hb'
  split_ifs at hb' with hk
  · obtain rfl := Option.some.inj hb'
    exact ⟨hk.1.symm, hk.2.symm⟩
  · exact h r a b' hb'

theorem Blocks.count_put (blocks : Blocks) (b : Header) (r : ℕ) (a : PublicKey) :
    (blocks.put b).count r a = if r = b.round ∧ a = b.author then 1 else blocks.count r a := by
  unfold Blocks.count
  rw [Blocks.get_put]
  split_ifs <;> rfl

theorem Blocks.count_eq_zero {blocks : Blocks} {r : ℕ} {a : PublicKey} :
    blocks.count r a = 0 ↔ blocks.get r a = none := by
  unfold Blocks.count
  rcases blocks.get r a with _ | b <;> simp

theorem Blocks.isSome_get_put {blocks : Blocks} {r : ℕ} {a : PublicKey} (b : Header)
    (h : (blocks.get r a).isSome) : ((blocks.put b).get r a).isSome := by
  rw [Blocks.get_put]
  split_ifs
  · rfl
  · exact h

theorem Blocks.level_length_put (blocks : Blocks) (b : Header) (r : ℕ) :
    (blocks.level r).keys.length ≤ ((blocks.put b).level r).keys.length := by
  refine (List.Nodup.subperm (AList.keys_nodup _) fun a ha => ?_).length_le
  obtain ⟨v, hv⟩ := FinMap.mem_keys_iff.1 ha
  have hsome : (blocks.get r a).isSome := by
    rw [Blocks.get, hv]
    rfl
  obtain ⟨w, hw⟩ := Option.isSome_iff_exists.1 (Blocks.isSome_get_put b hsome)
  exact FinMap.mem_keys_iff.2 ⟨w, hw⟩

theorem Blocks.get_erase (blocks : Blocks) (round r : ℕ) (a : PublicKey) :
    Blocks.get (blocks.erase round) r a = if r = round then none else blocks.get r a := by
  unfold Blocks.get Blocks.level
  split_ifs with hr
  · rw [hr, AList.lookup_erase]
    simp
  · rw [AList.lookup_erase_ne hr]

/-- A block of a new author makes its round longer. -/
theorem Blocks.level_length_put_of_none {blocks : Blocks} {b : Header}
    (h : blocks.get b.round b.author = none) :
    ((blocks.put b).level b.round).keys.length = (blocks.level b.round).keys.length + 1 := by
  rw [Blocks.level_put, if_pos rfl, AList.keys_insert, List.length_cons,
    List.erase_of_not_mem]
  exact FinMap.lookup_eq_none_iff.1 h

end Blocks

/-! ## What keeps the invariant -/

namespace Inv

variable [Crypto] {q : ℕ} {hand : Tokens} {v : View}

theorem quorum_le (h : Inv q hand v) (hgood : DoneInDag v.trace) (r : ℕ) :
    (v.moveRound.lookup r).getD 0 ≤ (v.dag.level r).keys.length := by
  refine (h.count hgood r).trans ?_
  split_ifs
  · exact le_rfl
  · refine (List.Nodup.subperm (AList.keys_nodup _) fun a ha => ?_).length_le
    obtain ⟨d, hd⟩ := FinMap.mem_keys_iff.1 ha
    obtain ⟨b, hb⟩ := Option.isSome_iff_exists.1 (h.done hgood r a (by rw [hd]; rfl)).2
    exact FinMap.mem_keys_iff.2 ⟨b, hb⟩

/-- An effect that is neither a stored proof nor a block of the node. -/
def Quiet : Effect → Prop
  | .storeDone _ | .broadcastHeader _ => False
  | _ => True

omit [Crypto] in
theorem quiet_singleton {e : Effect} {dag : Blocks} (he : Quiet e) : ∀ e' ∈ [(e, dag)], Quiet e'.1 :=
  fun e' h => by rwa [List.mem_singleton.1 h]

omit [Crypto] in
theorem doneInDag_append {trace new : List (Effect × Blocks)} (hq : ∀ e ∈ new, Quiet e.1) :
    DoneInDag (trace ++ new) ↔ DoneInDag trace := by
  refine ⟨fun h d dag hm => h d dag (List.mem_append_left _ hm), fun h d dag hm => ?_⟩
  rcases List.mem_append.1 hm with hm | hm
  · exact h d dag hm
  · exact (hq _ hm).elim

/-- What is quiet may be added to the trace. -/
theorem quiet (h : Inv q hand v) {new : List (Effect × Blocks)} (hq : ∀ e ∈ new, Quiet e.1) :
    Inv q hand { v with trace := v.trace ++ new } where
  tokens := h.tokens
  dagFiled := h.dagFiled
  pendingFiled := h.pendingFiled
  pbFiled := h.pbFiled
  epbcFiled := h.epbcFiled
  epbcOdd := h.epbcOdd
  done hgood := h.done ((doneInDag_append hq).1 hgood)
  count hgood := h.count ((doneInDag_append hq).1 hgood)
  sound hgood b dag hm hb := by
    rcases List.mem_append.1 hm with hm | hm
    · exact h.sound ((doneInDag_append hq).1 hgood) b dag hm hb
    · exact (hq _ hm).elim

/-- A block of the node with enough parents may be added to the trace. -/
theorem broadcast (h : Inv q hand v) {b : Header}
    (hb : DoneInDag v.trace → 2 ≤ b.round → Quorate q b v.dag) :
    Inv q hand { v with trace := v.trace ++ [(Effect.broadcastHeader b, v.dag)] } := by
  have hold : ∀ {d dag}, (Effect.storeDone d, dag) ∈ v.trace →
      (Effect.storeDone d, dag) ∈ v.trace ++ [(Effect.broadcastHeader b, v.dag)] :=
    fun hm => List.mem_append_left _ hm
  refine ⟨h.tokens, h.dagFiled, h.pendingFiled, h.pbFiled, h.epbcFiled, h.epbcOdd,
    fun hgood => h.done fun d dag hm => hgood d dag (hold hm),
    fun hgood => h.count fun d dag hm => hgood d dag (hold hm), fun hgood b' dag hm hr => ?_⟩
  have hgood' : DoneInDag v.trace := fun d dag hm => hgood d dag (hold hm)
  rcases List.mem_append.1 hm with hm | hm
  · exact h.sound hgood' b' dag hm hr
  · obtain ⟨he, rfl⟩ := Prod.mk.inj (List.mem_singleton.1 hm)
    obtain rfl := Effect.broadcastHeader.inj he
    exact hb hgood' hr

/-- A proof of delivery may be stored, the first for its block. -/
theorem storeDone (h : Inv q hand v) {d : WahooDone}
    (hnew : (doneLevel v.done d.round).lookup d.blockSender = none) :
    Inv q hand { v with
      done := v.done.insert d.round ((doneLevel v.done d.round).insert d.blockSender d)
      moveRound := v.moveRound.alter d.round fun count => count.getD 0 + 1
      trace := v.trace ++ [(Effect.storeDone d, v.dag)] } := by
  have hlevel : ∀ r, doneLevel
      (v.done.insert d.round ((doneLevel v.done d.round).insert d.blockSender d)) r =
      if r = d.round then (doneLevel v.done d.round).insert d.blockSender d
      else doneLevel v.done r := by
    intro r
    unfold doneLevel
    rw [FinMap.lookup_insert_ite]
    split_ifs <;> rfl
  have hgood : DoneInDag (v.trace ++ [(Effect.storeDone d, v.dag)]) → DoneInDag v.trace :=
    fun hg d' dag hm => hg d' dag (List.mem_append_left _ hm)
  have hthis : DoneInDag (v.trace ++ [(Effect.storeDone d, v.dag)]) →
      d.round % 2 = 1 ∧ (v.dag.get d.round d.blockSender).isSome :=
    fun hg => hg d v.dag (List.mem_append_right _ List.mem_cons_self)
  refine ⟨h.tokens, h.dagFiled, h.pendingFiled, h.pbFiled, h.epbcFiled, h.epbcOdd,
    fun hg r a ha => ?_, fun hg r => ?_, fun hg b dag hm hr => ?_⟩
  · rw [hlevel] at ha
    split_ifs at ha with hr
    · rw [FinMap.lookup_insert_ite] at ha
      split_ifs at ha with hk
      · rw [hr, hk]
        exact hthis hg
      · exact hr ▸ h.done (hgood hg) d.round a ha
    · exact h.done (hgood hg) r a ha
  · have hcount := h.count (hgood hg) r
    simp only [FinMap.lookup_alter, hlevel]
    by_cases hr : r = d.round
    · have hodd : ¬ d.round % 2 = 0 := by
        have := (hthis hg).1
        omega
      subst hr
      rw [if_neg hodd] at hcount
      rw [if_pos rfl, if_neg hodd, if_pos rfl, AList.keys_insert, List.length_cons,
        List.erase_of_not_mem (FinMap.lookup_eq_none_iff.1 hnew), Option.getD_some]
      exact Nat.succ_le_succ hcount
    · rwa [if_neg hr, if_neg hr]
  · rcases List.mem_append.1 hm with hm | hm
    · exact h.sound (hgood hg) b dag hm hr
    · cases List.mem_singleton.1 hm

/-- A block that no token is needed for may enter the DAG. -/
theorem insertOdd (h : Inv q hand v) {b : Header} (hb : b.round % 2 = 1) :
    Inv q hand { v with dag := v.dag.put b } where
  tokens r a hr := by
    rw [Blocks.count_put, if_neg fun hk => by omega]
    exact h.tokens r a hr
  dagFiled := h.dagFiled.put b
  pendingFiled := h.pendingFiled
  pbFiled := h.pbFiled
  epbcFiled := h.epbcFiled
  epbcOdd := h.epbcOdd
  done hgood r a ha := ⟨(h.done hgood r a ha).1, Blocks.isSome_get_put b (h.done hgood r a ha).2⟩
  count hgood r := by
    refine (h.count hgood r).trans ?_
    split_ifs
    · exact v.dag.level_length_put b r
    · exact le_rfl
  sound := h.sound

/-- With its token in hand, a block of an even round enters the DAG and is counted. -/
theorem insertEven {b : Header} (h : Inv q (token b + hand) v) (hb : b.round % 2 = 0) :
    Inv q hand { v with
      dag := v.dag.put b
      moveRound := v.moveRound.alter b.round fun count => count.getD 0 + 1 } := by
  rw [token, if_pos hb] at h
  have hnone : v.dag.get b.round b.author = none := by
    have := h.tokens b.round b.author hb
    rw [Multiset.count_add, Multiset.count_singleton_self] at this
    rw [← Blocks.count_eq_zero]
    split_ifs at this <;> omega
  refine ⟨fun r a hr => ?_, h.dagFiled.put b, h.pendingFiled, h.pbFiled, h.epbcFiled, h.epbcOdd,
    fun hgood r a ha => ⟨(h.done hgood r a ha).1,
      Blocks.isSome_get_put b (h.done hgood r a ha).2⟩, fun hgood r => ?_, h.sound⟩
  · have htok := h.tokens r a hr
    rw [Multiset.count_add, Multiset.count_singleton] at htok
    simp only [Blocks.count_put]
    by_cases hk : r = b.round ∧ a = b.author
    · rw [if_pos (Prod.ext hk.1 hk.2)] at htok
      rw [if_pos hk]
      omega
    · rw [if_neg fun he => hk (Prod.mk.inj he)] at htok
      rw [if_neg hk]
      omega
  · have hcount := h.count hgood r
    simp only [FinMap.lookup_alter]
    by_cases hr : r = b.round
    · subst hr
      rw [if_pos hb] at hcount
      rw [if_pos rfl, if_pos hb, Blocks.level_length_put_of_none hnone, Option.getD_some]
      exact Nat.succ_le_succ hcount
    · rw [if_neg hr]
      refine hcount.trans ?_
      split_ifs
      · exact v.dag.level_length_put b r
      · exact le_rfl

/-- A block is parked instead. -/
theorem park {b : Header} (h : Inv q (token b + hand) v) :
    Inv q hand { v with pending := v.pending.put b } := by
  refine ⟨fun r a hr => ?_, h.dagFiled, h.pendingFiled.put b, h.pbFiled, h.epbcFiled, h.epbcOdd,
    h.done, h.count, h.sound⟩
  have htok := h.tokens r a hr
  rw [Multiset.count_add] at htok
  simp only [Blocks.count_put]
  by_cases hk : r = b.round ∧ a = b.author
  · rw [token, if_pos (hk.1 ▸ hr), ← hk.1, ← hk.2, Multiset.count_singleton_self] at htok
    rw [if_pos hk]
    omega
  · rw [if_neg hk]
    omega

omit [Crypto] in
/-- The tokens of the blocks of a round, one for each author. -/
theorem count_tokens {level : FinMap PublicKey Header} {r : ℕ}
    (hl : ∀ a b, level.lookup a = some b → b.round = r ∧ b.author = a) (r' : ℕ) (a : PublicKey) :
    Multiset.count (r', a) (level.values.map token).sum ≤
      if r' = r then (level.lookup a).toList.length else 0 := by
  have hkeys : ∀ keys : List PublicKey, keys.Nodup →
      Multiset.count (r', a) (keys.map fun a => ({(r, a)} : Tokens)).sum ≤
        if r' = r ∧ a ∈ keys then 1 else 0 := by
    intro keys hn
    induction keys with
    | nil => simp
    | cons k keys ih =>
      obtain ⟨hk, hn⟩ := List.nodup_cons.1 hn
      have ih := ih hn
      rw [List.map_cons, List.sum_cons, Multiset.count_add, Multiset.count_singleton]
      by_cases hr : r' = r
      · by_cases ha : a = k
        · subst ha
          rw [if_neg fun h => hk h.2] at ih
          rw [if_pos (by rw [hr]), if_pos ⟨hr, List.mem_cons_self⟩]
          omega
        · rw [if_neg fun h => ha (Prod.mk.inj h).2]
          refine (Nat.zero_add _).le.trans (ih.trans ?_)
          simp [hr, ha]
      · rw [if_neg fun h => hr (Prod.mk.inj h).1]
        rw [if_neg fun h => hr h.1] at ih ⊢
        omega
  by_cases heven : r % 2 = 0
  · have htoken : level.values.map token = level.keys.map fun a => ({(r, a)} : Tokens) := by
      rw [FinMap.values, AList.keys, List.keys, List.map_map, List.map_map]
      refine List.map_congr_left fun e he => ?_
      obtain ⟨h₁, h₂⟩ := hl e.1 e.2 (FinMap.ext_lookup_iff.2 he)
      rw [Function.comp_apply, token, h₁, if_pos heven, h₂]
      rfl
    rw [htoken]
    refine (hkeys _ (AList.keys_nodup _)).trans ?_
    split_ifs with h₁ h₂ h₂
    · obtain ⟨b, hb⟩ := FinMap.mem_keys_iff.1 h₁.2
      simp [hb]
    · exact absurd h₁.1 h₂
    · exact Nat.zero_le _
    · exact le_rfl
  · have htoken : level.values.map token = level.values.map fun _ => (0 : Tokens) := by
      refine List.map_congr_left fun b hb => ?_
      obtain ⟨a, ha⟩ := FinMap.mem_values.1 hb
      rw [token, (hl a b ha).1, if_neg heven]
    rw [htoken]
    simp

/-- The blocks parked for a round are taken in hand. -/
theorem drain (h : Inv q hand v) (r : ℕ) :
    Inv q (((v.pending.level r).values.map token).sum + hand)
      { v with pending := v.pending.erase r } := by
  refine ⟨fun r' a hr => ?_, h.dagFiled, fun r' a b hb => ?_, h.pbFiled, h.epbcFiled, h.epbcOdd,
    h.done, h.count, h.sound⟩
  · have htok := h.tokens r' a hr
    have hcount := count_tokens (fun a b hb => h.pendingFiled r a b hb) r' a
    rw [Multiset.count_add]
    simp only [Blocks.count, Blocks.get_erase] at htok ⊢
    by_cases hr' : r' = r
    · rw [if_pos hr'] at hcount ⊢
      rw [Blocks.get, hr'] at htok
      rw [hr'] at hcount ⊢
      simp only [Option.toList_none, List.length_nil]
      omega
    · rw [if_neg hr'] at hcount ⊢
      omega
  · rw [Blocks.get_erase] at hb
    split_ifs at hb
    exact h.pendingFiled r' a b hb

/-- PB may keep a block under its round and author. -/
theorem keepPb (h : Inv q hand v) {pbBlocks : FinMap (ℕ × PublicKey) Header}
    (hb : ∀ r a b, pbBlocks.lookup (r, a) = some b →
      v.pbBlocks.lookup (r, a) = some b ∨ b.round = r ∧ b.author = a) :
    Inv q hand { v with pbBlocks := pbBlocks } :=
  ⟨h.tokens, h.dagFiled, h.pendingFiled, fun r a b hl => (hb r a b hl).elim (h.pbFiled r a b) id,
    h.epbcFiled, h.epbcOdd, h.done, h.count, h.sound⟩

/-- PB hands on a block of an author it has not handed on before. -/
theorem output (h : Inv q hand v) {r : ℕ} {a : PublicKey} {b : Header}
    (hl : v.pbBlocks.lookup (r, a) = some b) (hnew : (r, a) ∉ v.output) :
    Inv q (token b + hand) { v with output := insert (r, a) v.output } := by
  obtain ⟨rfl, rfl⟩ := h.pbFiled r a b hl
  refine ⟨fun r' a' hr => ?_, h.dagFiled, h.pendingFiled, h.pbFiled, h.epbcFiled, h.epbcOdd,
    h.done, h.count, h.sound⟩
  have htok := h.tokens r' a' hr
  simp only [Multiset.count_add, Finset.mem_insert]
  by_cases hk : (r', a') = (b.round, b.author)
  · rw [hk, if_neg hnew] at htok
    obtain ⟨rfl, rfl⟩ := Prod.mk.inj hk
    rw [token, if_pos hr, Multiset.count_singleton_self, if_pos (.inl rfl)]
    omega
  · have hzero : Multiset.count (r', a') (token b) = 0 := by
      unfold token
      split_ifs
      · rw [Multiset.count_singleton, if_neg hk]
      · rfl
    rw [hzero]
    simp only [hk, false_or]
    omega

/-- An odd-round proposal may be kept. -/
theorem putEpbc (h : Inv q hand v) {b : Header} (hb : b.round % 2 = 1) :
    Inv q hand { v with epbcBlocks := v.epbcBlocks.put b } :=
  ⟨h.tokens, h.dagFiled, h.pendingFiled, h.pbFiled, h.epbcFiled.put b, fun r a b' hb' => by
    rw [Blocks.get_put] at hb'
    split_ifs at hb' with hk
    · exact hk.1 ▸ hb
    · exact h.epbcOdd r a b' hb', h.done, h.count, h.sound⟩

end Inv

/-! ## Handlers -/

section Handlers

variable [Crypto] {c : NodeConfig} {q : ℕ}

/-- The handler keeps the invariant and whatever is in the hands of its callers. -/
abbrev KeepsRounds (q : ℕ) {α : Type} (m : NodeM α) : Prop :=
  Keeps (fun hand n => Inv q hand n.view) (fun _ _ => Sound q) m

/-- What a call takes over from its caller. -/
def callTokens : Call → Tokens
  | .updateDag block => token block
  | _ => 0

/-- What a call relies on. -/
def CallOk (q : ℕ) (n : Node) : Call → Prop
  | .broadcastBlock round =>
    DoneInDag n.trace → 2 ≤ round → q ≤ (n.dag.level (round - 1)).keys.length
  | _ => True

def CallSpec (q : ℕ) (k : Call) (m : NodeM Unit) : Prop :=
  ∀ hand n, CallOk q n k → Inv q (callTokens k + hand) n.view →
    wp m (fun _ n' => Inv q hand n'.view) (fun _ => Sound q) n

theorem CallSpec.from {k : Call} {m : NodeM Unit} (h : CallSpec q k m) (hk : callTokens k = 0)
    {hand : Tokens} {n : Node} (hok : CallOk q n k) (hi : Inv q hand n.view) :
    wp m (fun _ n' => Inv q hand n'.view) (fun _ => Sound q) n :=
  h hand n hok (by rwa [hk, zero_add])

theorem CallSpec.keeps {k : Call} {m : NodeM Unit} (h : CallSpec q k m) (hk : callTokens k = 0)
    (hok : ∀ n, CallOk q n k) : KeepsRounds q m := fun _ n hi => h.from hk (hok n) hi

theorem Inv.ofCommits {hand : Tokens} {n n' : Node} (h : Inv q hand n.view) (hc : Commits n n') :
    Inv q hand n'.view := by
  obtain ⟨chain, iterations, new, hnew, rfl⟩ := hc
  have hquiet : ∀ e ∈ new, Inv.Quiet e.1 := fun e he => by
    obtain ⟨b, rfl⟩ := hnew e he
    trivial
  exact h.quiet hquiet

omit [Crypto] in
/-- What a handler does to the rest of the node does not matter. -/
theorem keeps_view [Crypto] {α : Type} {f : Node → α × Node} (h : ∀ n, (f n).2.view = n.view) :
    KeepsRounds q (modifyGet f : NodeM α) :=
  .ofModifyGet fun hand n hi => by rwa [h n]

theorem keeps_modify_view {f : Node → Node} (h : ∀ n, (f n).view = n.view) :
    KeepsRounds q (modify f : NodeM Unit) :=
  .ofModify fun hand n hi => by rwa [h n]

theorem keeps_emit {e : Effect} (he : Inv.Quiet e) : KeepsRounds q (NodeConfig.emit e) :=
  .ofModify fun _ _ hi => hi.quiet (Inv.quiet_singleton he)

theorem keeps_iterate {α : Type} (l : List α) : KeepsRounds q (c.iterate l) := keeps_view fun _ => rfl

theorem keeps_commitLeader (round : ℕ) : KeepsRounds q (c.commitLeader round) :=
  .ofModify fun _ n hi => hi.ofCommits (Commits.tryToCommitLeader c.order round n)

theorem keeps_tryToElectLeader (round : ℕ) : KeepsRounds q (c.tryToElectLeader round) := by
  refine .get_bind fun hand n hi => ?_
  simp only []
  rw [wp_ite]
  refine ⟨fun _ => hi, fun _ => ?_⟩
  split
  · exact hi.sound
  · exact hi
  · rw [wp_bind, wp_modify]
    exact keeps_commitLeader _ hand _ hi

theorem keeps_handleElect (elect : WahooElect) : KeepsRounds q (c.handleElect elect) := by
  refine .bind (keeps_modify_view ?_) fun _ => keeps_tryToElectLeader _
  exact fun _ => rfl

theorem keeps_broadcastElect (round : ℕ) : KeepsRounds q (c.broadcastElect round) :=
  (keeps_handleElect _).bind fun _ => keeps_emit trivial

theorem keeps_storeDone (done : WahooDone) :
    KeepsRounds q (modify fun n => n.storeDone done : NodeM Unit) := by
  refine .ofModify fun hand n hi => ?_
  unfold Node.storeDone
  simp only []
  split_ifs with hnew
  · exact hi
  · exact hi.storeDone (Option.not_isSome_iff_eq_none.1 hnew)

omit [Crypto] in
theorem shouldSendVote_view (round : ℕ) (origin : PublicKey) (phase : WahooVotePhase)
    (id : Digest) (n : Node) : (Node.shouldSendVote round origin phase id n).2.view = n.view := by
  unfold Node.shouldSendVote
  split_ifs <;> rfl

omit [Crypto] in
/-- A vote changes the aggregators, and its certificate is for the header kept. -/
theorem appendEpbcVote_spec (committee : Committee) (vote : Vote) (n : Node) :
    (∃ epbcVotes epbcCertSent,
      (n.appendEpbcVote committee vote).2 = { n with epbcVotes, epbcCertSent }) ∧
      ∀ quorum, (n.appendEpbcVote committee vote).1 = some quorum →
        ∃ header, n.epbcBlocks.get vote.round vote.origin = some header ∧
          quorum.certificate.header = header := by
  unfold Node.appendEpbcVote
  simp only []
  rcases hl : n.epbcBlocks.get vote.round vote.origin with _ | header
  · exact ⟨⟨_, _, rfl⟩, fun _ h => by cases h⟩
  simp only []
  rcases happ : ((n.epbcVotes.lookup (vote.round, vote.origin)).getD {}).append committee vote header
    with e | ⟨aggregator, quorum⟩
  · exact ⟨⟨_, _, rfl⟩, fun _ h => by cases h⟩
  have hheader : ∀ q, quorum = some q → q.certificate.header = header :=
    fun q hq => WahooVotesAggregator.append_header _ (hq ▸ happ)
  simp only []
  rcases quorum with _ | ⟨_ | _ | _ | _, cert⟩
  · exact ⟨⟨_, _, rfl⟩, fun _ h => by cases h⟩
  all_goals simp only []
  on_goal 4 => exact ⟨⟨_, _, rfl⟩, fun _ h => by cases h⟩
  all_goals
    split_ifs
    · exact ⟨⟨_, _, rfl⟩, fun _ h => by cases h⟩
    · refine ⟨⟨_, _, rfl⟩, fun q h => ⟨header, rfl, ?_⟩⟩
      obtain rfl := Option.some.inj h
      exact hheader _ rfl

/-- The tokens of the blocks that the actions hand on. -/
def actionTokens : PbAction → Tokens
  | .outputBlock block => token block
  | _ => 0

/-- A step of PB that keeps the invariant, with tokens for the blocks it hands on. -/
def PbOk (q : ℕ) (f : Pb → Pb × List PbAction) : Prop :=
  ∀ (hand : Tokens) (n : Node), Inv q hand n.view →
    Inv q (((f n.pb).2.map actionTokens).sum + hand) { n with pb := (f n.pb).1 }.view

omit [Crypto] in
theorem sum_actionTokens_option (block : Option Header) :
    ((block.map PbAction.outputBlock).toList.map actionTokens).sum = block.elim 0 token := by
  rcases block with _ | b
  · rfl
  · exact add_zero _

theorem inv_outputActions {hand : Tokens} {n : Node} {pb : Pb}
    (h : Inv q hand { n with pb }.view) (round : ℕ) (sender : PublicKey) :
    Inv q (((pb.outputActions round sender).2.map actionTokens).sum + hand)
      { n with pb := (pb.outputActions round sender).1 }.view := by
  unfold Pb.outputActions
  simp only [sum_actionTokens_option]
  rcases pb.tryToOutput_cases round sender with he | ⟨block, hl, hnew, he⟩ <;> rw [he]
  · exact (zero_add hand).symm ▸ h
  · exact h.output hl hnew

omit [Crypto] in
/-- The block proposed first stays. -/
theorem lookup_storeBlockMsg_cases {pb : Pb} {block b : Header} {r : ℕ} {a : PublicKey}
    (h : (pb.storeBlockMsg block).pendingBlocks.lookup (r, a) = some b) :
    pb.pendingBlocks.lookup (r, a) = some b ∨
      b = block ∧ block.round = r ∧ block.author = a := by
  rw [Pb.storeBlockMsg, FinMap.lookup_alter] at h
  split_ifs at h with hk
  · obtain ⟨rfl, rfl⟩ := Prod.mk.inj hk
    rcases ho : pb.pendingBlocks.lookup (block.round, block.author) with _ | old
    · rw [ho] at h
      exact .inr ⟨(Option.some.inj h).symm, rfl, rfl⟩
    · rw [ho] at h
      exact .inl h
  · exact .inl h

theorem inv_storeBlockMsg {hand : Tokens} {n : Node} (pb : Pb)
    (h : Inv q hand { n with pb }.view) (block : Header) :
    Inv q hand { n with pb := pb.storeBlockMsg block }.view := by
  exact h.keepPb fun r a b hl => (lookup_storeBlockMsg_cases hl).imp_right fun ⟨hb, hr, ha⟩ =>
    ⟨hb ▸ hr, hb ▸ ha⟩

theorem pbOk_handleBlock (name : PublicKey) (block : Header) :
    PbOk q fun pb => pb.handleBlock name block := by
  intro hand n h
  have hstore := inv_storeBlockMsg n.pb h block
  unfold Pb.handleBlock
  simp only []
  split_ifs
  · exact (zero_add hand).symm ▸ h
  · change Inv q ((0 + _) + hand) _
    rw [zero_add]
    exact inv_outputActions hstore block.round block.author
  · exact (zero_add hand).symm ▸ hstore

theorem pbOk_handleCertificate (cert : Certificate) :
    PbOk q fun pb => pb.handleCertificate cert := by
  intro hand n h
  let kept := n.pb.pendingBlocks.insert (cert.round, cert.origin) cert.header
  let pb := Pb.storeCertificate { n.pb with pendingBlocks := kept } cert
  have hpb : Inv q hand { n with pb }.view := h.keepPb fun r a b hl => ?_
  · exact inv_outputActions hpb cert.round cert.origin
  change kept.lookup (r, a) = some b at hl
  rw [FinMap.lookup_insert_ite] at hl
  split_ifs at hl with hk
  · obtain ⟨rfl, rfl⟩ := Prod.mk.inj hk
    obtain rfl := Option.some.inj hl
    exact .inr ⟨rfl, rfl⟩
  · exact .inl hl

omit [Crypto] in
theorem appendVote_blocks (committee : Committee) (pb : Pb) (vote : Vote) (header : Header) :
    (pb.appendVote committee vote header).1.pendingBlocks = pb.pendingBlocks ∧
      (pb.appendVote committee vote header).1.blockOutput = pb.blockOutput := by
  unfold Pb.appendVote
  simp only []
  split <;> exact ⟨rfl, rfl⟩

theorem pbOk_handleVote (committee : Committee) (vote : Vote) :
    PbOk q fun pb => pb.handleVote committee vote := by
  intro hand n h
  have hquiet : ∀ pb : Pb, pb.pendingBlocks = n.pb.pendingBlocks →
      pb.blockOutput = n.pb.blockOutput → Inv q hand { n with pb }.view := by
    intro pb h₁ h₂
    unfold Node.view at h ⊢
    simp only [h₁, h₂]
    exact h
  unfold Pb.handleVote
  simp only []
  rcases n.pb.pendingBlocks.lookup (vote.round, vote.origin) with _ | header
  · exact (zero_add hand).symm ▸ h
  obtain ⟨h₁, h₂⟩ := appendVote_blocks committee n.pb vote header
  simp only []
  rcases happ : n.pb.appendVote committee vote header with ⟨pb, quorum⟩
  rw [happ] at h₁ h₂
  have hpb := hquiet pb h₁ h₂
  rcases quorum with _ | ⟨_ | _ | _ | _, cert⟩
  · exact (zero_add hand).symm ▸ hpb
  · exact (zero_add hand).symm ▸ hpb
  · exact (zero_add hand).symm ▸ hpb
  · exact (zero_add hand).symm ▸ hpb
  simp only []
  split_ifs
  · exact inv_outputActions hpb vote.round vote.origin
  · let pb' := Pb.storeCertificate { pb with block2Send := insert vote.round pb.block2Send } cert
    have hpb' : Inv q hand { n with pb := pb' }.view := hpb
    change Inv q ((0 + _) + hand) _
    rw [zero_add]
    exact inv_outputActions hpb' vote.round vote.origin

variable {call : Call → NodeM Unit} (hcall : ∀ k, CallSpec c.quorumNum k (call k))

include hcall

theorem keeps_tryToNextRound (round : ℕ) :
    KeepsRounds c.quorumNum (c.tryToNextRound call round) := by
  refine .get_bind fun hand n hi => ?_
  rw [wp_ite]
  refine ⟨?_, fun _ => hi⟩
  rintro ⟨-, hcount, -⟩
  rw [wp_bind, wp_modify, wp_bind]
  have hok : CallOk c.quorumNum n (.broadcastBlock (round + 1)) :=
    fun hgood _ => hcount.trans (hi.quorum_le hgood round)
  refine wp_mono ((hcall (.broadcastBlock (round + 1))).from rfl hok hi) (fun _ n' hi' => ?_)
    fun _ _ h => h
  exact (hcall (.nextRound (round + 1))).from rfl trivial hi'

theorem keeps_handleDone (done : WahooDone) :
    KeepsRounds c.quorumNum (c.handleDone call done) :=
  .ite (fun _ => (keeps_storeDone done).bind fun _ =>
    (keeps_tryToNextRound hcall done.round).bind fun _ => keeps_commitLeader done.round)
    fun _ => .pure _

theorem keeps_sendEpbcVote (round : ℕ) (id : Digest) (sender : PublicKey)
    (phase : WahooVotePhase) :
    KeepsRounds c.quorumNum (c.sendEpbcVote call round id sender phase) :=
  (keeps_view (shouldSendVote_view round sender phase id)).bind fun _ =>
    .ite (fun _ => .ite (fun _ => .bind (keeps_emit (by trivial)) fun _ =>
      (hcall (.epbcVote _)).keeps rfl fun _ => trivial) fun _ => keeps_emit (by trivial))
      fun _ => .pure _

theorem keeps_sendEpbcShares (block : Header) :
    KeepsRounds c.quorumNum (c.sendEpbcShares call block) :=
  (keeps_sendEpbcVote hcall _ _ _ _).bind fun _ => keeps_sendEpbcVote hcall _ _ _ _

theorem keeps_deliverEpbc {cert : Certificate} (hodd : cert.header.round % 2 = 1)
    (phase : WahooVotePhase) : KeepsRounds c.quorumNum (c.deliverEpbc call cert phase) := by
  have htoken : callTokens (.updateDag cert.header) = 0 := if_neg (by omega)
  refine .bind (keeps_view ?_) fun _ => .ite (fun _ => .pure _) fun _ =>
    ((hcall (.updateDag cert.header)).keeps htoken fun _ => trivial).bind fun _ =>
      (keeps_handleDone hcall _).bind fun _ =>
        .ite (fun _ => keeps_emit trivial) fun _ => .pure _
  exact fun _ => rfl

theorem keeps_handleEpbcCertificate {cert : Certificate} (hodd : cert.header.round % 2 = 1) :
    KeepsRounds c.quorumNum (c.handleEpbcCertificate call cert) := by
  unfold NodeConfig.handleEpbcCertificate
  split
  · exact .pure _
  · refine .bind (.ofModify fun hand n hi => hi.putEpbc hodd) fun _ => ?_
    split
    · exact keeps_sendEpbcVote hcall _ _ _ _
    · exact keeps_deliverEpbc hcall hodd _
    · exact keeps_deliverEpbc hcall hodd _
    · exact .pure _

theorem keeps_handleEpbcVote (vote : Vote) :
    KeepsRounds c.quorumNum (c.handleEpbcVote call vote) := by
  intro hand n hi
  unfold NodeConfig.handleEpbcVote
  rw [wp_bind, wp_modifyGet]
  obtain ⟨⟨votes, sent, heq⟩, hquorum⟩ := appendEpbcVote_spec c.committee vote n
  have hi' : Inv c.quorumNum hand (n.appendEpbcVote c.committee vote).2.view := by
    rw [heq]
    exact hi
  split
  · exact hi'
  · rename_i quorum hq
    obtain ⟨header, hget, hheader⟩ := hquorum quorum hq
    have hodd : quorum.certificate.header.round % 2 = 1 := by
      rw [hheader, (hi.epbcFiled _ _ _ hget).1]
      exact hi.epbcOdd _ _ _ hget
    exact ((keeps_emit (by trivial)).bind fun _ => keeps_handleEpbcCertificate hcall hodd) hand _ hi'

theorem keeps_handleFastBlock {block : Header} (hodd : block.round % 2 = 1) :
    KeepsRounds c.quorumNum (c.handleFastBlock call block) := by
  refine .bind (.ofModify fun hand n hi => ?_) fun _ => .get_bind fun hand n hi => ?_
  · unfold Node.storeEpbcBlock
    split_ifs
    · exact hi
    · exact hi.putEpbc hodd
  · exact Keeps.ite (fun _ => keeps_sendEpbcShares hcall block) (fun _ => .pure _) hand n hi

/-- An action is executed with the tokens of those that follow it still in hand. -/
theorem dispatchPbAction_spec (action : PbAction) (hand : Tokens) (n : Node)
    (hi : Inv c.quorumNum (actionTokens action + hand) n.view) :
    wp (c.dispatchPbAction call action) (fun _ n' => Inv c.quorumNum hand n'.view)
      (fun _ => Sound c.quorumNum) n := by
  cases action with
  | sendVote target vote =>
    change Inv _ (0 + hand) _ at hi
    rw [zero_add] at hi
    unfold NodeConfig.dispatchPbAction
    simp only []
    split
    · exact hi.sound
    · exact ((keeps_view (shouldSendVote_view _ _ _ _)).bind fun _ =>
        .ite (fun _ => keeps_emit (by trivial)) fun _ => .pure _) hand n hi
  | broadcastCertificate cert =>
    change Inv _ (0 + hand) _ at hi
    rw [zero_add] at hi
    exact keeps_emit (by trivial) hand n hi
  | outputBlock block => exact hcall (.updateDag block) hand n trivial hi

theorem keeps_runPb {f : Pb → Pb × List PbAction} (hf : PbOk c.quorumNum f) :
    KeepsRounds c.quorumNum (c.runPb call f) := by
  intro hand n hi
  unfold NodeConfig.runPb
  rw [wp_bind, wp_modifyGet]
  refine wp_mono (wp_forM (J := fun l n' => Inv c.quorumNum ((l.map actionTokens).sum + hand) n'.view)
    (fun action l n' hi' => ?_) (hf hand n hi)) (fun _ n' hi' => ?_) fun _ _ h => h
  · rw [List.map_cons, List.sum_cons, add_assoc] at hi'
    exact dispatchPbAction_spec hcall action _ n' hi'
  · rwa [List.map_nil, List.sum_nil, zero_add] at hi'

omit hcall in
theorem nextBlock_spec [ThresholdBls] (round : ℕ) (n : Node) :
    (Node.nextBlock c round n).2.view = n.view ∧ (Node.nextBlock c round n).1.round = round ∧
      (2 ≤ round → ∀ a b, n.dag.get (round - 1) a = some b →
        b.digest ∈ (Node.nextBlock c round n).1.parents) := by
  refine ⟨rfl, rfl, fun hr a b hb => ?_⟩
  change b.digest ∈ n.selectPreviousBlocks (round - 1)
  rw [Node.selectPreviousBlocks, if_neg (by omega), SortedSet.mem_ofList]
  exact List.mem_map_of_mem (FinMap.mem_values.2 ⟨a, hb⟩)

omit hcall in
/-- The shares on the blocks of a round leave the DAG as it is. -/
theorem broadcastSelfRecps_spec (round : ℕ) {hand : Tokens} {n : Node}
    (hi : Inv q hand n.view) : wp (c.broadcastSelfRecps round)
      (fun _ n' => Inv q hand n'.view ∧ n'.dag = n.dag ∧ (DoneInDag n'.trace → DoneInDag n.trace))
      (fun _ => Sound q) n := by
  let I : Unit → Node → Prop := fun _ n' =>
    Inv q hand n'.view ∧ n'.dag = n.dag ∧ (DoneInDag n'.trace → DoneInDag n.trace)
  have hiterate : ∀ l : List Header, Keeps I (fun _ _ => Sound q) (c.iterate l) := fun _ _ _ h => h
  have hkeep : Keeps I (fun _ _ => Sound q) (c.broadcastSelfRecps round) := by
    refine .get_bind fun _ n' h => (hiterate _).bind (fun blocks => .forM (fun block => ?_) _) () n' h
    split
    · exact .pure _
    · refine .bind (.ofModify fun _ _ h => h) fun _ => .ofModify fun _ n' h => ?_
      refine ⟨h.1.quiet (Inv.quiet_singleton (by trivial)), h.2.1, fun hg => h.2.2 ?_⟩
      exact (Inv.doneInDag_append (Inv.quiet_singleton (by trivial))).1 hg
  exact hkeep () n ⟨hi, rfl, id⟩

theorem broadcastBlock_spec [ThresholdBls] (round : ℕ) :
    CallSpec c.quorumNum (.broadcastBlock round) (c.broadcastBlock call round) := by
  intro hand n hok hi
  rw [show callTokens (.broadcastBlock round) = 0 from rfl, zero_add] at hi
  obtain ⟨hview, hround, hparents⟩ := nextBlock_spec (c := c) round n
  unfold NodeConfig.broadcastBlock
  rw [wp_bind, wp_modifyGet, wp_bind]
  generalize Node.nextBlock c round n = next at hview hround hparents
  obtain ⟨block, n₁⟩ := next
  have hdag : n₁.dag = n.dag := congrArg View.dag hview
  have htrace : n₁.trace = n.trace := congrArg View.trace hview
  have hi₁ : Inv c.quorumNum hand n₁.view := by
    rw [show n₁.view = n.view from hview]
    exact hi
  have hrecps : wp (c.broadcastRecpsFor round)
      (fun _ n' => Inv c.quorumNum hand n'.view ∧ n'.dag = n.dag ∧
        (DoneInDag n'.trace → DoneInDag n.trace)) (fun _ => Sound c.quorumNum) n₁ := by
    rw [NodeConfig.broadcastRecpsFor, wp_ite, ← hdag, ← htrace]
    exact ⟨fun _ => broadcastSelfRecps_spec _ hi₁, fun _ => ⟨hi₁, rfl, id⟩⟩
  refine wp_mono hrecps (fun _ n₂ ⟨hi₂, hdag₂, htrace₂⟩ => ?_) fun _ _ h => h
  have hquorate : DoneInDag n₂.trace → 2 ≤ block.round →
      Quorate c.quorumNum block n₂.dag := by
    intro hgood hr
    rw [show block.round = round from hround] at hr
    refine ⟨(n.dag.level (round - 1)).keys.toFinset, ?_, fun a ha => ?_⟩
    · rw [List.toFinset_card_of_nodup (AList.keys_nodup _)]
      exact hok (htrace₂ hgood) hr
    · obtain ⟨b, hb⟩ := FinMap.mem_keys_iff.1 (List.mem_toFinset.1 ha)
      rw [hdag₂, show block.round = round from hround]
      exact ⟨b, hb, (hi.dagFiled _ _ _ hb).1, (hi.dagFiled _ _ _ hb).2, hparents hr a b hb⟩
  rw [wp_bind]
  change wp _ _ _ (n₂.emit (.broadcastHeader block))
  have hi₃ : Inv c.quorumNum hand (n₂.emit (.broadcastHeader block)).view := hi₂.broadcast hquorate
  rw [NodeConfig.handleOwnBlock, wp_ite]
  refine ⟨fun _ => ?_, fun hodd => ?_⟩
  · exact (Keeps.bind (.ofModify fun hand n h => inv_storeBlockMsg n.pb h block) fun _ =>
      (keeps_runPb hcall (pbOk_handleBlock c.name block)).bind fun _ =>
        keeps_broadcastElect round) hand _ hi₃
  · have hblock : block.round % 2 = 1 := by
      rw [show block.round = round from hround]
      omega
    exact keeps_handleFastBlock hcall hblock hand _ hi₃

theorem tryToUpdateDag_spec (block : Header) :
    CallSpec c.quorumNum (.updateDag block) (c.tryToUpdateDag call block) := by
  intro hand n _ hi
  change Inv c.quorumNum (token block + hand) n.view at hi
  have hrest : KeepsRounds c.quorumNum (do
      call (.updateDagFromPending (block.round + 1))
      call (.retryPendingEpbc (block.round + 1))) :=
    ((hcall (.updateDagFromPending _)).keeps rfl fun _ => trivial).bind fun _ =>
      (hcall (.retryPendingEpbc _)).keeps rfl fun _ => trivial
  unfold NodeConfig.tryToUpdateDag
  rw [wp_bind, wp_get, wp_ite]
  refine ⟨fun _ => ?_, fun _ => hi.park⟩
  rw [wp_bind, wp_modify, wp_bind]
  refine wp_mono ?_ (fun _ n' h => hrest hand n' h) fun _ _ h => h
  rw [NodeConfig.advance, wp_ite]
  refine ⟨fun heven => ?_, fun hodd => ?_⟩
  · have hi' : Inv c.quorumNum hand ((n.insertBlock block).countBlock block.round).view :=
      hi.insertEven heven
    rw [wp_bind, wp_modify]
    exact keeps_tryToNextRound hcall block.round hand _ hi'
  · rw [token, if_neg hodd, zero_add] at hi
    have hi' : Inv c.quorumNum hand (n.insertBlock block).view := hi.insertOdd (by omega)
    exact keeps_commitLeader block.round hand _ hi'

theorem tryToUpdateDagFromPending_spec (round : ℕ) :
    CallSpec c.quorumNum (.updateDagFromPending round)
      (c.tryToUpdateDagFromPending call round) := by
  intro hand n _ hi
  rw [show callTokens (.updateDagFromPending round) = 0 from rfl, zero_add] at hi
  unfold NodeConfig.tryToUpdateDagFromPending
  rw [wp_bind, wp_modifyGet, wp_bind]
  unfold NodeConfig.iterate
  rw [wp_modifyGet]
  have hperm := c.order.perm n.iterations (n.pendingBlocks.level round).values
  refine wp_mono (wp_forM
    (J := fun l n' => Inv c.quorumNum ((l.map token).sum + hand) n'.view)
    (fun block l n' hi' => ?_) ?_) (fun _ n' hi' => ?_) fun _ _ h => h
  · rw [List.map_cons, List.sum_cons, add_assoc] at hi'
    exact hcall (.updateDag block) _ n' trivial hi'
  · change Inv _ (((c.order.order n.iterations _).map token).sum + hand) _
    rw [(hperm.map token).sum_eq]
    exact hi.drain round
  · rwa [List.map_nil, List.sum_nil, zero_add] at hi'

theorem keeps_retryPendingEpbc (round : ℕ) :
    KeepsRounds c.quorumNum (c.retryPendingEpbc call round) := by
  refine .get_bind fun hand n hi => ?_
  exact ((keeps_iterate _).bind fun _ =>
    .forM (fun block => keeps_sendEpbcShares hcall block) _) hand n hi

theorem keeps_handleReady (ready : WahooReady) :
    KeepsRounds c.quorumNum (c.handleReady call ready) := by
  refine .bind (.ofModify fun _ _ h => h) fun _ => .get_bind fun hand n hi => ?_
  rw [wp_ite]
  refine ⟨fun _ => ?_, fun _ => hi⟩
  rw [wp_bind, wp_modify]
  exact ((keeps_iterate _).bind fun _ => (keeps_handleDone hcall _).bind fun _ =>
    keeps_emit (by trivial)) hand _ hi

/-- The body of every call keeps the invariant if the calls it makes do. -/
theorem body_spec [ThresholdBls] (k : Call) : CallSpec c.quorumNum k (c.body call k) := by
  have hkeep : ∀ {k : Call} {m : NodeM Unit}, callTokens k = 0 → KeepsRounds c.quorumNum m →
      CallSpec c.quorumNum k m := fun hk hm hand n _ hi => hm hand n (by rwa [hk, zero_add] at hi)
  cases k with
  | epbcVote vote => exact hkeep rfl (keeps_handleEpbcVote hcall vote)
  | broadcastBlock round => exact broadcastBlock_spec hcall round
  | nextRound round => exact hkeep rfl (keeps_tryToNextRound hcall round)
  | updateDag block => exact tryToUpdateDag_spec hcall block
  | updateDagFromPending round => exact tryToUpdateDagFromPending_spec hcall round
  | retryPendingEpbc round => exact hkeep rfl (keeps_retryPendingEpbc hcall round)

end Handlers

/-! ## Runs -/

section Runs

variable [Crypto] [ThresholdBls] {c : NodeConfig}

omit [ThresholdBls] in
/-- A certificate that the receiver passes on as an odd-round certificate is one. -/
theorem odd_of_verifyWahooCertificate {committee : Committee} {cert : Certificate}
    (h : verifyWahooCertificate committee cert = .ok ())
    (hphase : cert.votes.head?.bind Vote.wahooPhase ≠ some .pbc) : cert.header.round % 2 = 1 := by
  unfold verifyWahooCertificate at h
  obtain ⟨-, h⟩ := Fallible.check_bind_eq_ok.1 h
  obtain ⟨-, h⟩ := Fallible.check_bind_eq_ok.1 h
  obtain ⟨-, h⟩ := Fallible.check_bind_eq_ok.1 h
  obtain ⟨phase, hp, h⟩ := Fallible.bind_eq_ok.1 h
  obtain ⟨hfit, -⟩ := Fallible.check_bind_eq_ok.1 h
  rw [Fallible.ensure_eq_ok] at hfit
  rcases hv : cert.votes.head?.bind Vote.wahooPhase with _ | p
  · rw [hv] at hp
    cases hp
  · rw [hv, Option.elim_some, Except.ok.injEq] at hp
    subst hp
    cases p with
    | pbc => exact absurd hv hphase
    | ts1 | ts2 | tf => exact of_decide_eq_true hfit

theorem perform_spec (fuel : ℕ) (k : Call) : CallSpec c.quorumNum k (c.perform fuel k) :=
  Handler.tie_spec (S := CallSpec c.quorumNum) (fun _ _ _ _ hi => hi.sound)
    (fun _ hcall k => body_spec hcall k) fuel k

theorem keeps_handleMessage (fuel : ℕ) {m : WahooMessage} (hm : m.Received c.committee) :
    KeepsRounds c.quorumNum (c.handleMessage (c.perform fuel) m) := by
  have hcall := perform_spec (c := c) fuel
  cases m with
  | block b =>
    exact .ite (fun _ => keeps_runPb hcall (pbOk_handleBlock c.name b)) fun hodd =>
      keeps_handleFastBlock hcall (by omega)
  | vote v =>
    exact .ite (fun _ => keeps_runPb hcall (pbOk_handleVote c.committee v)) fun _ =>
      keeps_handleEpbcVote hcall v
  | pbcCertificate cert =>
    change KeepsRounds c.quorumNum (c.runPb (c.perform fuel) fun pb => pb.handleCertificate cert)
    exact keeps_runPb hcall (pbOk_handleCertificate cert)
  | epbcCertificate cert =>
    exact keeps_handleEpbcCertificate hcall (odd_of_verifyWahooCertificate hm.1 hm.2)
  | elect e => exact keeps_handleElect e
  | ready r => exact keeps_handleReady hcall r
  | done d => exact keeps_handleDone hcall d
  | reVote => exact .pure _

theorem keeps_handleInput (fuel : ℕ) {i : Input} (hi : i.Received c.committee) :
    KeepsRounds c.quorumNum (c.handleInput fuel i) := by
  cases i with
  | message m => exact keeps_handleMessage fuel hi
  | worker digest wid => exact .ofModify fun _ _ h => h
  | recp r => exact .ofModify fun _ _ h => h

omit [ThresholdBls] in
theorem inv_start : Inv c.quorumNum 0 ({} : Node).view where
  tokens r a _ := by
    change 0 + Blocks.count ∅ r a + Blocks.count ∅ r a ≤ _
    simp [Blocks.count, Blocks.get, Blocks.level]
  dagFiled r a b h := by simp [Node.view, Blocks.get, Blocks.level] at h
  pendingFiled r a b h := by simp [Node.view, Blocks.get, Blocks.level] at h
  pbFiled r a b h := by simp [Node.view] at h
  epbcFiled r a b h := by simp [Node.view, Blocks.get, Blocks.level] at h
  epbcOdd r a b h := by simp [Node.view, Blocks.get, Blocks.level] at h
  done _ r a h := by simp [Node.view, doneLevel] at h
  count _ r := by simp [Node.view]
  sound _ h dag hm := by simp [Node.view] at hm

/-- The trace of a run. -/
def trace (c : NodeConfig) (fuel : ℕ) (inputs : List Input) : List (Effect × Blocks) :=
  (exec (c.run fuel inputs) {}).2.trace

/-- If every proof of delivery a node stores is of an odd round and for a block in its DAG, each of
its blocks from round 2 on refers to blocks of the round before by enough authors. -/
theorem blocks_quorate (c : NodeConfig) (fuel : ℕ) (inputs : List Input)
    (hreceived : ∀ i ∈ inputs, i.Received c.committee)
    (hdone : DoneInDag (trace c fuel inputs)) :
    ∀ h dag, (Effect.broadcastHeader h, dag) ∈ trace c fuel inputs → 2 ≤ h.round →
      Quorate c.quorumNum h dag := by
  have hstart : wp (c.perform fuel (.broadcastBlock 1)) (fun _ n => Inv c.quorumNum 0 n.view)
      (fun _ => Sound c.quorumNum) {} :=
    (perform_spec fuel (.broadcastBlock 1)).from rfl (fun _ h => absurd h (by omega)) inv_start
  have hinputs : ∀ n : Node, Inv c.quorumNum 0 n.view →
      wp (inputs.forM (c.handleInput fuel)) (fun _ n => Inv c.quorumNum 0 n.view)
        (fun _ => Sound c.quorumNum) n := by
    intro n hn
    have := wp_forM (J := fun l n => (∀ i ∈ l, i.Received c.committee) ∧ Inv c.quorumNum 0 n.view)
      (E := fun _ => Sound c.quorumNum) (f := c.handleInput fuel) (fun i l n ⟨hl, hn⟩ => by
        obtain ⟨hi, hl⟩ := List.forall_mem_cons.1 hl
        exact wp_mono (keeps_handleInput fuel hi 0 n hn) (fun _ _ h => ⟨hl, h⟩) fun _ _ h => h)
      ⟨hreceived, hn⟩
    exact wp_mono this (fun _ _ h => h.2) fun _ _ h => h
  have hrun : wp (c.run fuel inputs) (fun _ => Sound c.quorumNum) (fun _ => Sound c.quorumNum)
      {} := by
    rw [NodeConfig.run, wp_bind]
    exact wp_mono hstart (fun _ n hn => wp_mono (hinputs n hn) (fun _ _ h => h.sound)
      fun _ _ h => h) fun _ _ h => h
  have hsound : Sound c.quorumNum (exec (c.run fuel inputs) {}).2 := by
    unfold wp at hrun
    rcases hx : exec (c.run fuel inputs) {} with ⟨_ | _, n⟩ <;> rw [hx] at hrun <;> exact hrun
  exact hsound hdone

end Runs

end NovelDag.Wahoo

/-! ## A node that enters round 2 -/

namespace NovelDag.Wahoo

section Toy

variable [Crypto]

/-- The votes of three authorities on a block. -/
def phaseVotes (phase : WahooVotePhase) (block : Header) : List Vote :=
  [1, 2, 3].map fun author =>
    let vote : Vote :=
      { id := block.id, round := block.round, voterRound := block.round, origin := block.author,
        author, wahooPhase := some phase }
    { vote with signature := Crypto.sign author vote.digest }

def signedBlock (block : Header) : Header :=
  let block := { block with id := block.digest }
  { block with signature := Crypto.sign block.author block.id }

def pbcCertificate (block : Header) : Input :=
  .message (.pbcCertificate { header := block, votes := phaseVotes .pbc block })

def epbcCertificate (block : Header) : Input :=
  .message (.epbcCertificate { header := block, votes := phaseVotes .ts2 block })

/-- The block of round 1 of an author. -/
def firstBlock (author : PublicKey) : Header :=
  signedBlock { author, round := 1, wahooTag := some .epbcTf }

def ts2Certificate (author : PublicKey) : Input := epbcCertificate (firstBlock author)

def doneMessage (author : PublicKey) : Input :=
  .message (.done
    { doneSender := author, blockSender := author
      done := (phaseVotes .ts2 (firstBlock author)).map fun v => (v.author, v.signature.toBytes)
      hash := (firstBlock author).id, round := 1 })

end Toy

def isSecondBlock (p : Header → Blocks → Bool) (e : Effect × Blocks) : Bool :=
  match e.1 with
  | .broadcastHeader h => decide (h.round = 2) && p h e.2
  | _ => false

theorem exists_secondBlock {p : Header → Blocks → Bool} (entries : List (Effect × Blocks))
    (h : entries.any (isSecondBlock p) = true) :
    ∃ b dag, (Effect.broadcastHeader b, dag) ∈ entries ∧ b.round = 2 ∧ p b dag = true := by
  obtain ⟨⟨e, dag⟩, hm, he⟩ := List.any_eq_true.1 h
  unfold isSecondBlock at he
  split at he
  · rename_i b hb
    obtain ⟨hr, hp⟩ := Bool.and_eq_true_iff.1 he
    exact ⟨b, dag, by rwa [show e = .broadcastHeader b from hb] at hm, of_decide_eq_true hr, hp⟩
  · cases he

instance (entries : List (Effect × Blocks)) : Decidable (DoneInDag entries) :=
  decidable_of_iff (entries.all fun e => match e.1 with
    | .storeDone d => decide (d.round % 2 = 1 ∧ (e.2.get d.round d.blockSender).isSome)
    | _ => true) (by
      rw [List.all_eq_true]
      constructor
      · intro h d dag hm
        exact of_decide_eq_true (h _ hm)
      · rintro h ⟨e, dag⟩ hm
        split
        · rename_i d hd
          exact decide_eq_true (h d dag (by rwa [show e = .storeDone d from hd] at hm))
        · rfl)

/-- Proofs of delivery of three blocks the node has not seen take it to a round 2 without parents. -/
theorem not_blocks_quorate : letI := toyCrypto; letI := toyBls
    (∀ i ∈ [doneMessage 1, doneMessage 2, doneMessage 3], i.Received fourNodes.committee) ∧
      ∃ h dag, (Effect.broadcastHeader h, dag) ∈
        trace fourNodes 9 [doneMessage 1, doneMessage 2, doneMessage 3] ∧ 2 ≤ h.round ∧
          ¬ Quorate fourNodes.quorumNum h dag := by
  let _ := toyCrypto
  let _ := toyBls
  refine ⟨?_, ?_⟩
  · have hstake : ∀ a ∈ [(1 : PublicKey), 2, 3], 0 < fourNodes.committee.stake a := by
      decide
    simp only [List.forall_mem_cons, List.not_mem_nil, false_implies, implies_true,
      and_true] at hstake ⊢
    exact hstake
  · obtain ⟨h, dag, hm, hr, hp⟩ := exists_secondBlock
      (p := fun _ dag => decide ((dag.level 1).entries = []))
      (trace fourNodes 9 [doneMessage 1, doneMessage 2, doneMessage 3])
      (by decide +kernel)
    refine ⟨h, dag, hm, hr.ge, ?_⟩
    rintro ⟨authors, hcard, hall⟩
    have hpos : 0 < fourNodes.quorumNum := by decide
    obtain ⟨a, ha⟩ := Finset.card_pos.1 (hpos.trans_le hcard)
    obtain ⟨b, hb, -⟩ := hall a ha
    rw [hr] at hb
    have hmem := FinMap.ext_lookup_iff.1 hb
    rw [of_decide_eq_true hp] at hmem
    exact List.not_mem_nil hmem

theorem ts2Certificates_received : letI := toyCrypto; letI := toyBls
    ∀ i ∈ [ts2Certificate 1, ts2Certificate 2, ts2Certificate 3],
      i.Received fourNodes.committee := by
  let _ := toyCrypto
  let _ := toyBls
  simp only [List.forall_mem_cons, List.not_mem_nil, false_implies, implies_true, and_true]
  refine ⟨⟨?_, ?_⟩, ⟨?_, ?_⟩, ⟨?_, ?_⟩⟩ <;> exact of_decide_eq_true (by decide +kernel)

theorem blocks_quorate_ts2 : letI := toyCrypto; letI := toyBls
    ∃ h dag, (Effect.broadcastHeader h, dag) ∈
      trace fourNodes 9 [ts2Certificate 1, ts2Certificate 2, ts2Certificate 3] ∧ h.round = 2 ∧
        Quorate fourNodes.quorumNum h dag := by
  let _ := toyCrypto
  let _ := toyBls
  obtain ⟨h, dag, hm, hr, -⟩ := exists_secondBlock (p := fun _ _ => true)
    (trace fourNodes 9 [ts2Certificate 1, ts2Certificate 2, ts2Certificate 3])
    (by decide +kernel)
  exact ⟨h, dag, hm, hr, blocks_quorate fourNodes 9 _ ts2Certificates_received (by decide +kernel)
    h dag hm hr.ge⟩

end NovelDag.Wahoo
