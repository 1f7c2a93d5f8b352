import NovelDag.MahiMahi
import NovelDag.Lib.AnchorDecision

/-!
# Evidence in an uncertified DAG

All blocks there are, by digest. The block a vote supports is a function of the vote's history, so
two quorums of votes share the vote of an honest author and point one way: no slot has two
certified leaders, nor a certified leader and a quorum of votes against it, and a leader certified
by a quorum is certified by a parent of every block beyond.
-/

namespace NovelDag

namespace MahiMahi

open AnchorDecision

variable [Crypto]

section Universe

/-- The blocks of all rounds. Authors outside `B` have one block a round; a block above round zero
has parents of lower rounds only, and among them blocks of the round before by authors with the
stake of a quorum. -/
structure MahiUniverse (committee : Committee) (B : Finset PublicKey)
    (U : Digest → Option Header) : Prop where
  byzantine : Weighted.weight committee.stake B ≤ committee.totalVotes - committee.quorumThreshold
  genesis : ∀ g ∈ Certificate.genesis committee, U g.digest = some g.header
  honest : ∀ d d' c c', U d = some c → U d' = some c' → c.author = c'.author →
    c.round = c'.round → c.author ∉ B → d = d'
  lower : ∀ d c, U d = some c → 0 < c.round → ∀ p ∈ c.parents,
    ∃ q, U p = some q ∧ q.round < c.round
  quorum : ∀ d c, U d = some c → 0 < c.round → ∃ S : Finset PublicKey,
    committee.quorumThreshold ≤ Weighted.weight committee.stake S ∧
      ∀ a ∈ S, ∃ p ∈ c.parents, ∃ q, U p = some q ∧ q.author = a ∧ q.round + 1 = c.round

end Universe

/-! ## Votes -/

section Votes

variable (U : Digest → Option Header) (authority : PublicKey) (round : ℕ)

/-- The first block at `(authority, round)` among the parents and what `inner` finds from them. -/
def firstSupport (inner : Digest → Option Digest) : List Digest → Option Digest
  | [] => none
  | p :: ps =>
    match U p with
    | none => firstSupport inner ps
    | some q =>
      if q.round < round then firstSupport inner ps
      else if q.round = round ∧ q.author = authority then some p
      else if round < q.round then (inner p).or (firstSupport inner ps)
      else firstSupport inner ps

/-- The search of `find_support` over all blocks, without caches. -/
def supportIn : ℕ → Digest → Option Digest
  | 0, _ => none
  | n + 1, v =>
    match U v with
    | none => none
    | some c =>
      if c.round ≤ round then none
      else firstSupport U authority round (supportIn n) c.parents.toList

/-- The block at `(authority, round)` that a block supports. -/
def supportOf (v : Digest) : Option Digest :=
  supportIn U authority round ((U v).elim 0 Header.round + 1) v

variable {U authority round} {committee : Committee} {B : Finset PublicKey}

omit [Crypto] in
theorem firstSupport_congr {f g : Digest → Option Digest} : ∀ {l : List Digest},
    (∀ p ∈ l, f p = g p) → firstSupport U authority round f l = firstSupport U authority round g l
  | [], _ => rfl
  | p :: ps, h => by
    rw [firstSupport, firstSupport, firstSupport_congr fun q hq => h q (List.mem_cons_of_mem _ hq),
      h p List.mem_cons_self]

omit [Crypto] in
theorem firstSupport_eq_some {inner : Digest → Option Digest} {d : Digest} :
    ∀ {l : List Digest}, firstSupport U authority round inner l = some d →
      d ∈ l ∨ ∃ p ∈ l, inner p = some d
  | [], h => by cases h
  | p :: ps, h => by
    have tail : firstSupport U authority round inner ps = some d →
        d ∈ p :: ps ∨ ∃ p' ∈ p :: ps, inner p' = some d := fun h =>
      (firstSupport_eq_some h).imp (List.mem_cons_of_mem _)
        fun ⟨p', hp', h⟩ => ⟨p', List.mem_cons_of_mem _ hp', h⟩
    rcases hp : U p with _ | q
    · simp only [firstSupport, hp] at h
      exact tail h
    · simp only [firstSupport, hp] at h
      split_ifs at h
      · exact tail h
      · exact .inl (Option.some.inj h ▸ List.mem_cons_self)
      · rcases Option.or_eq_some_iff.1 h with h | ⟨-, h⟩
        · exact .inr ⟨p, List.mem_cons_self, h⟩
        · exact tail h
      · exact tail h

/-- Fuel beyond the round changes nothing. -/
theorem supportIn_eq (hU : MahiUniverse committee B U) : ∀ (n m : ℕ) {v : Digest} {c : Header},
    U v = some c → c.round < n → c.round < m →
      supportIn U authority round n v = supportIn U authority round m v
  | 0, _, _, _, _, hn, _ => absurd hn (Nat.not_lt_zero _)
  | _, 0, _, _, _, _, hm => absurd hm (Nat.not_lt_zero _)
  | n + 1, m + 1, v, c, hv, hn, hm => by
    simp only [supportIn, hv]
    split_ifs with hle
    · rfl
    · refine firstSupport_congr fun p hp => ?_
      obtain ⟨q, hq, hlt⟩ := hU.lower v c hv (by omega) p hp
      exact supportIn_eq hU n m hq (by omega) (by omega)

theorem supportIn_eq_supportOf (hU : MahiUniverse committee B U) {n : ℕ} {v : Digest}
    {c : Header} (hv : U v = some c) (hn : c.round < n) :
    supportIn U authority round n v = supportOf U authority round v := by
  refine supportIn_eq hU _ _ hv hn ?_
  rw [hv, Option.elim_some]
  exact Nat.lt_succ_self _

/-- The block above the slot looks through its parents. -/
theorem supportOf_eq (hU : MahiUniverse committee B U) {v : Digest} {c : Header}
    (hv : U v = some c) : supportOf U authority round v =
      if c.round ≤ round then none
      else firstSupport U authority round (supportOf U authority round)
        c.parents.toList := by
  simp only [supportOf, supportIn, hv, Option.elim_some]
  split_ifs with hle
  · rfl
  · refine firstSupport_congr fun p hp => ?_
    obtain ⟨q, hq, hlt⟩ := hU.lower v c hv (by omega) p hp
    exact supportIn_eq_supportOf hU hq hlt

variable (U committee)

/-- The author of a block in the vote round that supports the leader. -/
def voter (c leader : Header) (d p : Digest) : Option PublicKey :=
  (U p).bind fun q =>
    if q.round = c.round - 1 ∧ supportOf U leader.author leader.round p = some d
    then some q.author else none

/-- The authors among the parents that support the leader. -/
def voters (c leader : Header) (d : Digest) : List PublicKey :=
  c.parents.toList.filterMap (voter U c leader d)

/-- The block `c` certifies the leader `d`. -/
def Certifies (c d : Digest) : Prop :=
  ∃ cert leader, U c = some cert ∧ U d = some leader ∧
    committee.quorumThreshold ≤
      Weighted.weight committee.stake (voters U cert leader d).toFinset

/-- `p` is a parent of `d` of a lower round. -/
def Below (d p : Digest) : Prop :=
  ∃ c q, U d = some c ∧ p ∈ c.parents ∧ U p = some q ∧ q.round < c.round

/-- The target is the block itself or is reached through parents. -/
abbrev Reach : Digest → Digest → Prop := Relation.ReflTransGen (Below U)

/-- `d` is a block of an author in a round. -/
def BlockAt (r : ℕ) (a : PublicKey) (d : Digest) : Prop :=
  ∃ c, U d = some c ∧ c.round = r ∧ c.author = a

end Votes

/-! ## Evidence on a slot -/

section Evidence

variable (committee : Committee) (U : Digest → Option Header) (waveLength : ℕ)
  (leaderRound : ℕ → ℕ) (leader : ℕ → PublicKey)

/-- Authors with the stake of a quorum each have a block in a round with a property. -/
def QuorumAt (r : ℕ) (P : Digest → Prop) : Prop :=
  ∃ S : Finset PublicKey, committee.quorumThreshold ≤ Weighted.weight committee.stake S ∧
    ∀ a ∈ S, ∃ d, BlockAt U r a d ∧ P d

def candidate (s : ℕ) (d : Digest) : Prop := BlockAt U (leaderRound s) (leader s) d

/-- A quorum of decision blocks certifies the block. -/
def commits (s : ℕ) (d : Digest) : Prop :=
  candidate U leaderRound leader s d ∧
    QuorumAt committee U (leaderRound s + waveLength - 1) fun c => Certifies U committee c d

/-- A quorum of vote blocks supports no block of the slot. -/
def skips (s : ℕ) : Prop :=
  QuorumAt committee U (leaderRound s + waveLength - 2) fun v =>
    supportOf U (leader s) (leaderRound s) v = none

/-- The anchor reaches a decision block that certifies the block. -/
def certifies (anchor : Digest) (s : ℕ) (d : Digest) : Prop :=
  candidate U leaderRound leader s d ∧
    ∃ c a, BlockAt U (leaderRound s + waveLength - 1) a c ∧ Reach U anchor c ∧
      Certifies U committee c d

/-- The slot `t` lies beyond the decision round of `s`. -/
def past (s t : ℕ) : Prop := leaderRound s + waveLength - 1 < leaderRound t

variable {committee U waveLength leaderRound leader} {B : Finset PublicKey}

omit [Crypto] in
theorem certifies_iff {c d : Digest} {cert l : Header} (hc : U c = some cert)
    (hd : U d = some l) : Certifies U committee c d ↔ committee.quorumThreshold ≤
      Weighted.weight committee.stake (voters U cert l d).toFinset := by
  constructor
  · rintro ⟨cert', l', hc', hd', hq⟩
    rw [hc] at hc'
    rw [hd] at hd'
    cases hc'
    cases hd'
    exact hq
  · exact fun hq => ⟨cert, l, hc, hd, hq⟩

omit [Crypto] in
theorem mem_voters {c l : Header} {d : Digest} {a : PublicKey} :
    a ∈ voters U c l d ↔ ∃ p ∈ c.parents, ∃ q, U p = some q ∧ q.round = c.round - 1 ∧
      supportOf U l.author l.round p = some d ∧ q.author = a := by
  simp only [voters, voter, List.mem_filterMap, Option.bind_eq_some_iff,
    Option.ite_none_right_eq_some,
    Option.some.injEq, and_assoc]
  rfl

/-- Two votes of one honest author in one round are one vote. -/
theorem support_unique (hU : MahiUniverse committee B U) {r : ℕ} {a : PublicKey} (ha : a ∉ B)
    {v v' : Digest} (hv : BlockAt U r a v) (hv' : BlockAt U r a v') : v = v' := by
  obtain ⟨c, hc, hcr, hca⟩ := hv
  obtain ⟨c', hc', hcr', hca'⟩ := hv'
  exact hU.honest v v' c c' hc hc' (hca.trans hca'.symm) (hcr.trans hcr'.symm) (hca ▸ ha)

omit [Crypto] in
theorem QuorumAt.mono {r : ℕ} {P Q : Digest → Prop} (h : QuorumAt committee U r P)
    (hPQ : ∀ d, P d → Q d) : QuorumAt committee U r Q := by
  obtain ⟨S, hS, hP⟩ := h
  refine ⟨S, hS, fun a ha => ?_⟩
  obtain ⟨d, hd, hPd⟩ := hP a ha
  exact ⟨d, hd, hPQ d hPd⟩

omit [Crypto] in
/-- A decision block that certifies a leader has a quorum of votes for it below. -/
theorem Certifies.quorumAt {c d : Digest} {r : ℕ} {a b : PublicKey} {s : ℕ}
    (h : Certifies U committee c d) (hc : BlockAt U r a c) (hd : BlockAt U s b d) :
    QuorumAt committee U (r - 1) fun v => supportOf U b s v = some d := by
  obtain ⟨cert, hcert, rfl, -⟩ := hc
  obtain ⟨l, hl, rfl, rfl⟩ := hd
  refine ⟨_, (certifies_iff hcert hl).1 h, fun a ha => ?_⟩
  obtain ⟨p, -, q, hp, hqr, hs, hqa⟩ := mem_voters.1 (List.mem_toFinset.1 ha)
  exact ⟨p, ⟨q, hp, hqr, hqa⟩, hs⟩

/-- Two quorums of blocks in one round share the block of an honest author. -/
theorem QuorumAt.inter (hU : MahiUniverse committee B U) {r : ℕ} {P Q : Digest → Prop}
    (hP : QuorumAt committee U r P) (hQ : QuorumAt committee U r Q) :
    ∃ d, (∃ a, BlockAt U r a d) ∧ P d ∧ Q d := by
  obtain ⟨S, hS, hSP⟩ := hP
  obtain ⟨T, hT, hTQ⟩ := hQ
  obtain ⟨a, haS, haT, haB⟩ := committee.quorum_inter hU.byzantine hS hT
  obtain ⟨d, hd, hPd⟩ := hSP a haS
  obtain ⟨d', hd', hQd⟩ := hTQ a haT
  obtain rfl := support_unique hU haB hd hd'
  exact ⟨d, ⟨a, hd⟩, hPd, hQd⟩

theorem below (hU : MahiUniverse committee B U) {d p : Digest} {c : Header} (hd : U d = some c)
    (hr : 0 < c.round) (hp : p ∈ c.parents) : Below U d p := by
  obtain ⟨q, hq, hlt⟩ := hU.lower d c hd hr p hp
  exact ⟨c, q, hd, hp, hq, hlt⟩

/-- Blocks beyond the decision round reach a certificate of a directly committed leader. -/
theorem commits.reach (hU : MahiUniverse committee B U) {r : ℕ} {d : Digest}
    (hq : QuorumAt committee U r fun c => Certifies U committee c d) :
    ∀ (n : ℕ) {x : Digest} {c : Header}, U x = some c → c.round = r + 1 + n →
      ∃ y a, BlockAt U r a y ∧ Reach U x y ∧ Certifies U committee y d
  | 0, x, c, hx, hr => by
    obtain ⟨S, hS, hpar⟩ := hU.quorum x c hx (by omega)
    have hpar' : QuorumAt committee U r fun p => p ∈ c.parents :=
      ⟨S, hS, fun a ha => by
        obtain ⟨p, hp, q, hq, hqa, hqr⟩ := hpar a ha
        exact ⟨p, ⟨q, hq, by omega, hqa⟩, hp⟩⟩
    obtain ⟨y, ⟨a, hy⟩, hp, hcert⟩ := hpar'.inter hU hq
    exact ⟨y, a, hy, .single (below hU hx (by omega) hp), hcert⟩
  | n + 1, x, c, hx, hr => by
    obtain ⟨S, hS, hpar⟩ := hU.quorum x c hx (by omega)
    obtain ⟨a, ha⟩ := Weighted.nonempty_of_pos committee.stake
      (committee.quorumThreshold_pos.trans_le hS)
    obtain ⟨p, hp, q, hpq, -, hqr⟩ := hpar a ha
    obtain ⟨y, b, hy, hreach, hcert⟩ := commits.reach hU hq n hpq (by omega)
    exact ⟨y, b, hy, hreach.head (below hU hx (by omega) hp), hcert⟩

/-- The evidence of an uncertified DAG never points two ways. -/
theorem consistent (hU : MahiUniverse committee B U) :
    Consistent (commits committee U waveLength leaderRound leader)
      (skips committee U waveLength leaderRound leader) (past waveLength leaderRound)
      (certifies committee U waveLength leaderRound leader)
      (candidate U leaderRound leader) := by
  -- the votes for two certified leaders of a slot meet, and so do votes for one and for none
  have unique : ∀ {s c c' d d'} {a a' : PublicKey},
      BlockAt U (leaderRound s + waveLength - 1) a c →
      BlockAt U (leaderRound s + waveLength - 1) a' c' → candidate U leaderRound leader s d →
      candidate U leaderRound leader s d' → Certifies U committee c d →
      Certifies U committee c' d' → d = d' := by
    intro s c c' d d' a a' hc hc' hd hd' h h'
    obtain ⟨v, -, hv, hv'⟩ := (h.quorumAt hc hd).inter hU (h'.quorumAt hc' hd')
    exact Option.some.inj (hv.symm.trans hv')
  have noSkip : ∀ {s c d} {a : PublicKey}, BlockAt U (leaderRound s + waveLength - 1) a c →
      candidate U leaderRound leader s d → Certifies U committee c d →
      ¬ skips committee U waveLength leaderRound leader s := by
    intro s c d a hc hd h hs
    obtain ⟨v, -, hv, hv'⟩ := (h.quorumAt hc hd).inter hU hs
    cases hv.symm.trans hv'
  have witness : ∀ {s d}, commits committee U waveLength leaderRound leader s d →
      ∃ c a, BlockAt U (leaderRound s + waveLength - 1) a c ∧ Certifies U committee c d := by
    rintro s d ⟨-, hq⟩
    obtain ⟨c, ⟨a, hc⟩, h, -⟩ := hq.inter hU hq
    exact ⟨c, a, hc, h⟩
  constructor
  · intro s d d' h h'
    obtain ⟨c, a, hc, hcert⟩ := witness h
    obtain ⟨c', a', hc', hcert'⟩ := witness h'
    exact unique hc hc' h.1 h'.1 hcert hcert'
  · exact fun s d h => h.1
  · intro s d h
    obtain ⟨c, a, hc, hcert⟩ := witness h
    exact noSkip hc h.1 hcert
  · rintro s t x d h hst ⟨c, hx, hr, -⟩
    have hst' : leaderRound s + waveLength - 1 < leaderRound t := hst
    obtain ⟨y, a, hy, hreach, hcert⟩ := commits.reach hU h.2
      (c.round - (leaderRound s + waveLength - 1 + 1)) hx (by omega)
    exact ⟨h.1, y, a, hy, hreach, hcert⟩
  · rintro s x x' d d' ⟨hd, c, a, hc, -, hcert⟩ ⟨hd', c', a', hc', -, hcert'⟩
    exact unique hc hc' hd hd' hcert hcert'
  · exact fun s x d h => h.1
  · rintro s x d ⟨hd, c, a, hc, -, hcert⟩
    exact noSkip hc hd hcert

end Evidence

end MahiMahi

end NovelDag
