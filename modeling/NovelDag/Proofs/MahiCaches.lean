import NovelDag.Proofs.MahiMahi

/-!
# The caches of the Mahi-Mahi DAG

The recursions of the queries once more, over the blocks alone and without caches. Blocks come in
any order, so a history can have gaps. An answer of a recursion stays what it is when more blocks
come, and without an answer there is a gap in what the recursion read; so an entry of a cache is
what the recursion would answer on every later DAG, and the queries answer as if there were none.
-/

namespace NovelDag

namespace MahiMahi

open Fallible

/-! ## The recursions without caches -/

section Uncached

variable (block : Digest → Option Certificate)

/-- The loop of `find_support_inner` over the parents. -/
def supportAmong (inner : Digest → Option (Option Digest)) (authority : PublicKey) (round : ℕ) :
    List Digest → Option (Option Digest)
  | [] => some none
  | parent :: parents =>
    match block parent with
    | none => none
    | some b =>
      if b.round < round then supportAmong inner authority round parents
      else if b.round = round ∧ b.origin = authority then some (some parent)
      else if round < b.round then
        match inner parent with
        | some (some support) => some (some support)
        | some none => supportAmong inner authority round parents
        | none => none
      else supportAmong inner authority round parents

/-- `find_support_inner`. -/
def supportFrom (authority : PublicKey) (round : ℕ) :
    ℕ → Digest → List Digest → Option (Option Digest)
  | 0, _, _ => none
  | n + 1, from_, visiting =>
    if from_ ∈ visiting then none
    else match block from_ with
      | none => none
      | some b =>
        if b.round ≤ round then some none
        else supportAmong block (fun parent => supportFrom authority round n parent
          (from_ :: visiting)) authority round b.header.parents.toList

/-- `is_vote`, given the answers of `find_support`. -/
def voteFrom (support : Digest → PublicKey → ℕ → Option (Option Digest)) (vote leader : Digest) :
    Option Bool :=
  match block leader with
  | none => none
  | some b => (support vote b.origin b.round).map fun support => decide (support = some leader)

/-- The loop of `is_certificate` over the parents. -/
def certifiesAmong (committee : Committee) (isVote : Digest → Option Bool) (voteRound : ℕ) :
    List Digest → List PublicKey → ℕ → Bool → Option Bool
  | [], _, _, incomplete => if incomplete then none else some false
  | parent :: parents, voters, stake, incomplete =>
    match block parent with
    | none => certifiesAmong committee isVote voteRound parents voters stake true
    | some b =>
      if b.round ≠ voteRound ∨ b.origin ∈ voters then
        certifiesAmong committee isVote voteRound parents voters stake incomplete
      else
        match isVote parent with
        | some true =>
          if committee.quorumThreshold ≤ stake + committee.stake b.origin then some true
          else certifiesAmong committee isVote voteRound parents (b.origin :: voters)
            (stake + committee.stake b.origin) incomplete
        | some false => certifiesAmong committee isVote voteRound parents voters stake incomplete
        | none => certifiesAmong committee isVote voteRound parents voters stake true

/-- `is_certificate`, given the answers of `is_vote`. -/
def certifiesFrom (committee : Committee) (isVote : Digest → Digest → Option Bool)
    (certificate leader : Digest) : Option Bool :=
  match block certificate with
  | none => none
  | some b => certifiesAmong block committee (isVote · leader) (b.round - 1)
      b.header.parents.toList [] 0 false

/-- The loop of `linked_inner` over the parents. -/
def linkedAmong (inner : Digest → Option Bool) (targetRound : ℕ) :
    List Digest → Bool → Option Bool
  | [], incomplete => if incomplete then none else some false
  | parent :: parents, incomplete =>
    match block parent with
    | none => linkedAmong inner targetRound parents true
    | some b =>
      if b.round < targetRound then linkedAmong inner targetRound parents incomplete
      else
        match inner parent with
        | some true => some true
        | some false => linkedAmong inner targetRound parents incomplete
        | none => linkedAmong inner targetRound parents true

/-- `linked_inner`. -/
def linkedFrom (target : Digest) : ℕ → Digest → List Digest → Option Bool
  | 0, _, _ => none
  | n + 1, from_, visiting =>
    if from_ = target then some true
    else if from_ ∈ visiting then none
    else match block target, block from_ with
      | some targetBlock, some b =>
        if b.round ≤ targetBlock.round then some false
        else linkedAmong block (fun parent => linkedFrom target n parent (from_ :: visiting))
          targetBlock.round b.header.parents.toList false
      | _, _ => none

end Uncached

namespace MahiDag

variable (dag : MahiDag)

def findSupportUncached (from_ : Digest) (authority : PublicKey) (round : ℕ) :
    Option (Option Digest) :=
  supportFrom dag.block authority round dag.fuel from_ []

def isVoteUncached (vote leader : Digest) : Option Bool :=
  voteFrom dag.block dag.findSupportUncached vote leader

def isCertificateUncached (committee : Committee) (certificate leader : Digest) : Option Bool :=
  certifiesFrom dag.block committee dag.isVoteUncached certificate leader

def linkedUncached (from_ target : Digest) : Option Bool :=
  linkedFrom dag.block target dag.fuel from_ []

end MahiDag

/-! ## Recursions down the rounds -/

section Rounds

variable {block : Digest → Option Certificate}

/-- The parents that are there are of lower rounds. -/
def Descends (block : Digest → Option Certificate) : Prop :=
  ∀ ⦃d c p q⦄, block d = some c → p ∈ c.header.parents → block p = some q → q.round < c.round

/-- The blocks being looked at are above `v`. -/
def Above (block : Digest → Option Certificate) (v : Digest) (visiting : List Digest) : Prop :=
  ∀ c, block v = some c → ∀ x ∈ visiting, ∃ y, block x = some y ∧ c.round < y.round

/-- Fuel for the rounds below `v`. -/
def Fuels (block : Digest → Option Certificate) (v : Digest) (n : ℕ) : Prop :=
  0 < n ∧ ∀ c, block v = some c → c.round < n

theorem Above.notMem {v : Digest} {visiting : List Digest} (h : Above block v visiting)
    {c : Certificate} (hv : block v = some c) : v ∉ visiting := fun hmem => by
  obtain ⟨y, hy, hlt⟩ := h c hv v hmem
  rw [hv] at hy
  cases hy
  exact lt_irrefl _ hlt

theorem Above.nil {v : Digest} : Above block v [] := fun _ _ _ hx => nomatch hx

theorem Above.cons {v p : Digest} {visiting : List Digest} {c : Certificate}
    (hlow : Descends block) (h : Above block v visiting) (hv : block v = some c)
    (hp : p ∈ c.header.parents) : Above block p (v :: visiting) := fun q hq x hx => by
  have hlt := hlow hv hp hq
  rcases List.mem_cons.1 hx with rfl | hx
  · exact ⟨c, hv, hlt⟩
  · obtain ⟨y, hy, hlt'⟩ := h c hv x hx
    exact ⟨y, hy, hlt.trans hlt'⟩

theorem Fuels.parent {v p : Digest} {n : ℕ} {c : Certificate} (hlow : Descends block)
    (h : Fuels block v (n + 1)) (hv : block v = some c) (hp : p ∈ c.header.parents)
    {q : Certificate} (hq : block p = some q) : Fuels block p n := by
  have hlt := hlow hv hp hq
  have hn := h.2 c hv
  refine ⟨by omega, fun q' hq' => ?_⟩
  rw [hq] at hq'
  cases hq'
  omega

/-- Fuel for the round of the block itself. -/
theorem Fuels.round (block : Digest → Option Certificate) (v : Digest) :
    Fuels block v ((block v).elim 0 Certificate.round + 1) :=
  ⟨Nat.succ_pos _, fun c hc => by rw [hc]; exact Nat.lt_succ_self _⟩

/-- What more blocks leave of the blocks there are. -/
def Extends (block block' : Digest → Option Certificate) : Prop :=
  ∀ ⦃d c⦄, block d = some c → block' d = some c

/-- `p` is a parent of a block above the round. -/
def References (block : Digest → Option Certificate) (round : ℕ) (d p : Digest) : Prop :=
  ∃ c, block d = some c ∧ round < c.round ∧ p ∈ c.header.parents

/-- A block referenced in the history above the round is missing. -/
def Gap (block : Digest → Option Certificate) (round : ℕ) (d : Digest) : Prop :=
  ∃ p, Relation.ReflTransGen (References block round) d p ∧ block p = none

theorem Gap.here {round : ℕ} {d : Digest} (h : block d = none) : Gap block round d := ⟨d, .refl, h⟩

theorem Gap.parent {round : ℕ} {d p : Digest} {c : Certificate} (hd : block d = some c)
    (hr : round < c.round) (hp : p ∈ c.header.parents) (h : Gap block round p) :
    Gap block round d := by
  obtain ⟨m, hm, hnone⟩ := h
  exact ⟨m, hm.head ⟨c, hd, hr, hp⟩, hnone⟩

end Rounds

/-! ## Support -/

section Support

variable {block block' : Digest → Option Certificate} {a : PublicKey} {r : ℕ}

theorem supportAmong_congr {f g : Digest → Option (Option Digest)} : ∀ {l : List Digest},
    (∀ p ∈ l, ∀ q, block p = some q → f p = g p) →
      supportAmong block f a r l = supportAmong block g a r l
  | [], _ => rfl
  | p :: ps, h => by
    have ih := supportAmong_congr fun q hq => h q (List.mem_cons_of_mem _ hq)
    rcases hp : block p with _ | b
    · simp only [supportAmong, hp]
    · simp only [supportAmong, hp, ih, h p List.mem_cons_self b hp]

theorem supportFrom_eq (hlow : Descends block) : ∀ (n m : ℕ) {v : Digest}
    {visiting visiting' : List Digest}, Fuels block v n → Fuels block v m →
      Above block v visiting → Above block v visiting' →
      supportFrom block a r n v visiting = supportFrom block a r m v visiting'
  | 0, _, _, _, _, hn, _, _, _ => absurd hn.1 (lt_irrefl 0)
  | _ + 1, 0, _, _, _, _, hm, _, _ => absurd hm.1 (lt_irrefl 0)
  | n + 1, m + 1, v, visiting, visiting', hn, hm, hvis, hvis' => by
    rcases hv : block v with _ | c
    · simp [supportFrom, hv]
    · rw [supportFrom, supportFrom, if_neg (hvis.notMem hv), if_neg (hvis'.notMem hv)]
      simp only [hv]
      split_ifs with hle
      · rfl
      · refine supportAmong_congr fun p hp q hq => ?_
        exact supportFrom_eq hlow n m (hn.parent hlow hv hp hq) (hm.parent hlow hv hp hq)
          (hvis.cons hlow hv hp) (hvis'.cons hlow hv hp)

/-- What the recursion without caches answers, with fuel for the rounds below. -/
def supportAt (block : Digest → Option Certificate) (a : PublicKey) (r : ℕ) (v : Digest) :
    Option (Option Digest) :=
  supportFrom block a r ((block v).elim 0 Certificate.round + 1) v []

theorem supportAt_of_none {v : Digest} (hv : block v = none) : supportAt block a r v = none := by
  simp [supportAt, supportFrom, hv]

theorem supportAt_of_some (hlow : Descends block) {v : Digest} {c : Certificate}
    (hv : block v = some c) : supportAt block a r v = if c.round ≤ r then some none
      else supportAmong block (supportAt block a r) a r c.header.parents.toList := by
  have hfuel : Fuels block v (c.round + 1) := by simpa [hv] using Fuels.round block v
  rw [supportAt, hv, Option.elim_some, supportFrom, if_neg List.not_mem_nil]
  simp only [hv]
  split_ifs with hle
  · rfl
  · refine supportAmong_congr fun p hp q hq => ?_
    exact supportFrom_eq hlow _ _ (hfuel.parent hlow hv hp hq) (Fuels.round block p)
      (Above.nil.cons hlow hv hp) .nil

theorem supportAmong_mono (hext : Extends block block') {f g : Digest → Option (Option Digest)}
    {x : Option Digest} : ∀ {l : List Digest},
      (∀ p ∈ l, ∀ q x, block p = some q → f p = some x → g p = some x) →
      supportAmong block f a r l = some x → supportAmong block' g a r l = some x
  | [], _, h => h
  | p :: ps, hfg, h => by
    have ih : supportAmong block f a r ps = some x → supportAmong block' g a r ps = some x :=
      supportAmong_mono hext fun q hq => hfg q (List.mem_cons_of_mem _ hq)
    rcases hp : block p with _ | b
    · simp [supportAmong, hp] at h
    · simp only [supportAmong, hp] at h
      simp only [supportAmong, hext hp]
      split_ifs at h ⊢ with h₁ h₂ h₃
      · exact ih h
      · exact h
      · rcases hf : f p with _ | s
        · simp [hf] at h
        · rw [hfg p List.mem_cons_self b s hp hf]
          rw [hf] at h
          rcases s with _ | s
          · exact ih h
          · exact h
      · exact ih h

/-- More blocks do not change an answer. -/
theorem supportAt_mono (hlow : Descends block) (hlow' : Descends block')
    (hext : Extends block block') {x : Option Digest} : ∀ (n : ℕ) {v : Digest} {c : Certificate},
      block v = some c → c.round < n → supportAt block a r v = some x →
      supportAt block' a r v = some x
  | 0, _, _, _, hn, _ => absurd hn (Nat.not_lt_zero _)
  | n + 1, v, c, hv, hn, h => by
    rw [supportAt_of_some hlow hv] at h
    rw [supportAt_of_some hlow' (hext hv)]
    split_ifs at h ⊢ with hle
    · exact h
    · refine supportAmong_mono hext (fun p hp q x hq hx => ?_) h
      have hlt := hlow hv hp hq
      exact supportAt_mono hlow hlow' hext n hq (by omega) hx

theorem supportAmong_eq_none {f : Digest → Option (Option Digest)} : ∀ {l : List Digest},
    supportAmong block f a r l = none →
      ∃ p ∈ l, block p = none ∨ ∃ q, block p = some q ∧ f p = none
  | p :: ps, h => by
    have tail : supportAmong block f a r ps = none →
        ∃ p' ∈ p :: ps, block p' = none ∨ ∃ q, block p' = some q ∧ f p' = none := fun h => by
      obtain ⟨p', hp', h⟩ := supportAmong_eq_none h
      exact ⟨p', List.mem_cons_of_mem _ hp', h⟩
    rcases hp : block p with _ | b
    · exact ⟨p, List.mem_cons_self, .inl hp⟩
    · simp only [supportAmong, hp] at h
      split_ifs at h
      · exact tail h
      · rcases hf : f p with _ | _ | s
        · exact ⟨p, List.mem_cons_self, .inr ⟨b, hp, hf⟩⟩
        · rw [hf] at h
          exact tail h
        · simp [hf] at h
      · exact tail h

theorem supportAt_eq_none (hlow : Descends block) : ∀ (n : ℕ) {v : Digest} {c : Certificate},
    block v = some c → c.round < n → supportAt block a r v = none → Gap block r v
  | 0, _, _, _, hn, _ => absurd hn (Nat.not_lt_zero _)
  | n + 1, v, c, hv, hn, h => by
    rw [supportAt_of_some hlow hv] at h
    split_ifs at h with hle
    obtain ⟨p, hp, h⟩ := supportAmong_eq_none h
    refine .parent hv (not_le.1 hle) hp ?_
    rcases h with h | ⟨q, hq, h⟩
    · exact .here h
    · have hlt := hlow hv hp hq
      exact supportAt_eq_none hlow n hq (by omega) h

/-- There is no answer only for a gap in the history. -/
theorem supportAt.gap (hlow : Descends block) {v : Digest} (h : supportAt block a r v = none) :
    Gap block r v := by
  rcases hv : block v with _ | c
  · exact .here hv
  · exact supportAt_eq_none hlow _ hv (Nat.lt_succ_self _) h

theorem supportAt.mono (hlow : Descends block) (hlow' : Descends block')
    (hext : Extends block block') {v : Digest} {x : Option Digest}
    (h : supportAt block a r v = some x) : supportAt block' a r v = some x := by
  rcases hv : block v with _ | c
  · rw [supportAt_of_none hv] at h
    cases h
  · exact supportAt_mono hlow hlow' hext _ hv (Nat.lt_succ_self _) h

end Support

/-! ## Certificates -/

section Certificates

variable {block block' : Digest → Option Certificate} {committee : Committee}
  {vote vote' : Digest → Option Bool} {r : ℕ}

theorem certifiesAmong_incomplete : ∀ {l : List Digest} {voters : List PublicKey} {stake : ℕ},
    certifiesAmong block committee vote r l voters stake true ≠ some false
  | [], _, _ => by simp [certifiesAmong]
  | p :: ps, voters, stake => by
    have ih : ∀ {voters stake}, certifiesAmong block committee vote r ps voters stake true ≠
        some false := certifiesAmong_incomplete
    rcases hp : block p with _ | b
    · simpa only [certifiesAmong, hp] using ih
    simp only [certifiesAmong, hp]
    by_cases hskip : b.round ≠ r ∨ b.origin ∈ voters
    · rw [if_pos hskip]
      exact ih
    rw [if_neg hskip]
    rcases vote p with _ | _ | _
    · exact ih
    · exact ih
    · dsimp only
      split_ifs
      · nofun
      · exact ih

/-- Without a quorum among all parents there is none with more blocks. -/
theorem certifiesAmong_false (hext : Extends block block')
    (hvote : ∀ p q b, block p = some q → vote p = some b → vote' p = some b) :
    ∀ {l : List Digest} {voters : List PublicKey} {stake : ℕ},
      certifiesAmong block committee vote r l voters stake false = some false →
      certifiesAmong block' committee vote' r l voters stake false = some false
  | [], _, _, h => h
  | p :: ps, voters, stake, h => by
    rcases hp : block p with _ | b
    · simp only [certifiesAmong, hp] at h
      exact absurd h certifiesAmong_incomplete
    simp only [certifiesAmong, hp] at h
    simp only [certifiesAmong, hext hp]
    by_cases hskip : b.round ≠ r ∨ b.origin ∈ voters
    · rw [if_pos hskip] at h ⊢
      exact certifiesAmong_false hext hvote h
    rw [if_neg hskip] at h ⊢
    rcases hv : vote p with _ | _ | _ <;> simp only [hv] at h
    · exact absurd h certifiesAmong_incomplete
    · simp only [hvote p b _ hp hv]
      exact certifiesAmong_false hext hvote h
    · simp only [hvote p b _ hp hv]
      split_ifs at h ⊢ with hle
      · cases h
      · exact certifiesAmong_false hext hvote h

/-- The author of a parent in the vote round that votes for the leader. -/
def supporter (block : Digest → Option Certificate) (vote : Digest → Option Bool) (r : ℕ)
    (p : Digest) : Option PublicKey :=
  (block p).bind fun b => if b.round = r ∧ vote p = some true then some b.origin else none

theorem mem_supporters {l : List Digest} {a : PublicKey} :
    a ∈ (l.filterMap (supporter block vote r)).toFinset ↔
      ∃ p ∈ l, ∃ b, block p = some b ∧ b.round = r ∧ vote p = some true ∧ b.origin = a := by
  simp only [supporter, List.mem_toFinset, List.mem_filterMap, Option.bind_eq_some_iff,
    Option.ite_none_right_eq_some, Option.some.injEq, and_assoc]

/-- The loop says yes when the votes, with those met before, are a quorum. -/
theorem certifiesAmong_eq_true : ∀ {l : List Digest} {voters : List PublicKey} {stake : ℕ}
    {incomplete : Bool}, stake = Weighted.weight committee.stake voters.toFinset →
      stake < committee.quorumThreshold →
      (certifiesAmong block committee vote r l voters stake incomplete = some true ↔
        committee.quorumThreshold ≤ Weighted.weight committee.stake
          (voters.toFinset ∪ (l.filterMap (supporter block vote r)).toFinset))
  | [], voters, stake, incomplete, hs, hlt => by
    have hno : ¬ committee.quorumThreshold ≤ Weighted.weight committee.stake
        (voters.toFinset ∪ ([].filterMap (supporter block vote r)).toFinset) := by
      rw [List.filterMap_nil, List.toFinset_nil, Finset.union_empty]
      omega
    rw [iff_false_right hno, certifiesAmong]
    cases incomplete <;> simp
  | p :: ps, voters, stake, incomplete, hs, hlt => by
    rcases hp : block p with _ | b
    · have hnone : supporter block vote r p = none := by rw [supporter, hp, Option.bind_none]
      simp only [certifiesAmong, hp, List.filterMap_cons_none hnone]
      exact certifiesAmong_eq_true hs hlt
    have hsupporter : supporter block vote r p =
        if b.round = r ∧ vote p = some true then some b.origin else none := by
      rw [supporter, hp, Option.bind_some]
    simp only [certifiesAmong, hp]
    by_cases hskip : b.round ≠ r ∨ b.origin ∈ voters
    · rw [if_pos hskip, certifiesAmong_eq_true hs hlt]
      by_cases hvotes : b.round = r ∧ vote p = some true
      · have hmem := List.mem_toFinset.2 (hskip.resolve_left (not_not.2 hvotes.1))
        rw [if_pos hvotes] at hsupporter
        rw [List.filterMap_cons_some hsupporter, List.toFinset_cons, Finset.union_insert,
          Finset.insert_eq_of_mem (Finset.mem_union_left _ hmem)]
      · rw [if_neg hvotes] at hsupporter
        rw [List.filterMap_cons_none hsupporter]
    rw [if_neg hskip]
    simp only [not_or, not_not] at hskip
    by_cases hv : vote p = some true
    · rw [if_pos ⟨hskip.1, hv⟩] at hsupporter
      have hnew : b.origin ∉ voters.toFinset := fun h => hskip.2 (List.mem_toFinset.1 h)
      have hs' : stake + committee.stake b.origin =
          Weighted.weight committee.stake (insert b.origin voters.toFinset) := by
        rw [Weighted.weight_insert_of_notMem _ hnew, hs, add_comm]
      rw [List.filterMap_cons_some hsupporter, List.toFinset_cons, Finset.union_insert,
        ← Finset.insert_union]
      simp only [hv]
      split_ifs with hle
      · refine iff_of_true rfl ((hs' ▸ hle).trans ?_)
        exact Weighted.weight_mono _ Finset.subset_union_left
      · rw [certifiesAmong_eq_true (by rw [hs', List.toFinset_cons]) (not_le.1 hle),
          List.toFinset_cons]
    · rw [if_neg fun h => hv h.2] at hsupporter
      rw [List.filterMap_cons_none hsupporter]
      rcases hv' : vote p with _ | _ | _
      · exact certifiesAmong_eq_true hs hlt
      · exact certifiesAmong_eq_true hs hlt
      · exact absurd hv' hv

theorem certifiesAmong_mono (hext : Extends block block')
    (hvote : ∀ p q b, block p = some q → vote p = some b → vote' p = some b) {l : List Digest} :
    ∀ {b : Bool}, certifiesAmong block committee vote r l [] 0 false = some b →
      certifiesAmong block' committee vote' r l [] 0 false = some b
  | false, h => certifiesAmong_false hext hvote h
  | true, h => by
    have hzero : 0 = Weighted.weight committee.stake ([] : List PublicKey).toFinset := rfl
    rw [certifiesAmong_eq_true hzero committee.quorumThreshold_pos] at h ⊢
    refine h.trans (Weighted.weight_mono _ (Finset.union_subset_union_right fun a ha => ?_))
    obtain ⟨p, hp, b, hb, hr, hv, rfl⟩ := mem_supporters.1 ha
    exact mem_supporters.2 ⟨p, hp, b, hext hb, hr, hvote p b _ hb hv, rfl⟩

theorem certifiesAmong_eq_none : ∀ {l : List Digest} {voters : List PublicKey} {stake : ℕ},
    certifiesAmong block committee vote r l voters stake false = none →
      ∃ p ∈ l, block p = none ∨ ∃ q, block p = some q ∧ vote p = none
  | p :: ps, voters, stake, h => by
    have tail : ∀ {voters stake}, certifiesAmong block committee vote r ps voters stake false =
        none → ∃ p' ∈ p :: ps, block p' = none ∨ ∃ q, block p' = some q ∧ vote p' = none :=
      fun h => by
        obtain ⟨p', hp', h⟩ := certifiesAmong_eq_none h
        exact ⟨p', List.mem_cons_of_mem _ hp', h⟩
    rcases hp : block p with _ | b
    · exact ⟨p, List.mem_cons_self, .inl hp⟩
    simp only [certifiesAmong, hp] at h
    by_cases hskip : b.round ≠ r ∨ b.origin ∈ voters
    · rw [if_pos hskip] at h
      exact tail h
    rw [if_neg hskip] at h
    rcases hv : vote p with _ | _ | _ <;> simp only [hv] at h
    · exact ⟨p, List.mem_cons_self, .inr ⟨b, hp, hv⟩⟩
    · exact tail h
    · split_ifs at h
      exact tail h

/-- `is_vote` and `is_certificate` from what the recursion answers. -/
def voteAt (block : Digest → Option Certificate) (v l : Digest) : Option Bool :=
  voteFrom block (fun v a r => supportAt block a r v) v l

def certificateAt (block : Digest → Option Certificate) (committee : Committee) (c l : Digest) :
    Option Bool :=
  certifiesFrom block committee (voteAt block) c l

theorem voteAt.mono (hlow : Descends block) (hlow' : Descends block')
    (hext : Extends block block') {v l : Digest} {b : Bool} (h : voteAt block v l = some b) :
    voteAt block' v l = some b := by
  unfold voteAt voteFrom at h ⊢
  rcases hl : block l with _ | leader <;> simp only [hl] at h
  · cases h
  · simp only [hext hl]
    obtain ⟨s, hs, rfl⟩ := Option.map_eq_some_iff.1 h
    rw [supportAt.mono hlow hlow' hext hs, Option.map_some]

theorem certificateAt.mono (hlow : Descends block) (hlow' : Descends block')
    (hext : Extends block block') {c l : Digest} {b : Bool}
    (h : certificateAt block committee c l = some b) :
    certificateAt block' committee c l = some b := by
  unfold certificateAt certifiesFrom at h ⊢
  rcases hc : block c with _ | cert <;> simp only [hc] at h
  · cases h
  · simp only [hext hc]
    exact certifiesAmong_mono hext (fun _ _ _ _ => voteAt.mono hlow hlow' hext) h

/-- There is no verdict only when one of the two blocks is missing, or there is a gap in the history
of a vote. -/
theorem certificateAt.gap (hlow : Descends block) {c l : Digest}
    (h : certificateAt block committee c l = none) :
    block c = none ∨ block l = none ∨ ∃ cert leader, block c = some cert ∧
      block l = some leader ∧ ∃ p ∈ cert.header.parents, Gap block leader.round p := by
  rcases hc : block c with _ | cert
  · exact .inl rfl
  rcases hl : block l with _ | leader
  · exact .inr (.inl rfl)
  simp only [certificateAt, certifiesFrom, hc] at h
  obtain ⟨p, hp, h⟩ := certifiesAmong_eq_none h
  refine .inr (.inr ⟨cert, leader, rfl, rfl, p, hp, ?_⟩)
  rcases h with h | ⟨q, hq, h⟩
  · exact .here h
  · simp only [voteAt, voteFrom, hl, Option.map_eq_none_iff] at h
    exact supportAt.gap hlow h

end Certificates

/-! ## Links -/

section Links

variable {block block' : Digest → Option Certificate} {r : ℕ}

theorem linkedAmong_congr {f g : Digest → Option Bool} : ∀ {l : List Digest} {incomplete : Bool},
    (∀ p ∈ l, ∀ q, block p = some q → f p = g p) →
      linkedAmong block f r l incomplete = linkedAmong block g r l incomplete
  | [], _, _ => rfl
  | p :: ps, incomplete, h => by
    have ih : ∀ {incomplete}, linkedAmong block f r ps incomplete =
        linkedAmong block g r ps incomplete :=
      linkedAmong_congr fun q hq => h q (List.mem_cons_of_mem _ hq)
    rcases hp : block p with _ | b
    · simp only [linkedAmong, hp, ih]
    · simp only [linkedAmong, hp, ih, h p List.mem_cons_self b hp]

theorem linkedFrom_eq (hlow : Descends block) {t : Digest} : ∀ (n m : ℕ) {v : Digest}
    {visiting visiting' : List Digest}, Fuels block v n → Fuels block v m →
      Above block v visiting → Above block v visiting' →
      linkedFrom block t n v visiting = linkedFrom block t m v visiting'
  | 0, _, _, _, _, hn, _, _, _ => absurd hn.1 (lt_irrefl 0)
  | _ + 1, 0, _, _, _, _, hm, _, _ => absurd hm.1 (lt_irrefl 0)
  | n + 1, m + 1, v, visiting, visiting', hn, hm, hvis, hvis' => by
    rcases hv : block v with _ | c
    · simp [linkedFrom, hv]
    · rw [linkedFrom, linkedFrom, if_neg (hvis.notMem hv), if_neg (hvis'.notMem hv)]
      rcases ht : block t with _ | target
      · rfl
      simp only [hv]
      split_ifs with hvt hle
      · rfl
      · rfl
      · exact linkedAmong_congr fun p hp q hq => linkedFrom_eq hlow n m
          (hn.parent hlow hv hp hq) (hm.parent hlow hv hp hq) (hvis.cons hlow hv hp)
          (hvis'.cons hlow hv hp)

def linkAt (block : Digest → Option Certificate) (t v : Digest) : Option Bool :=
  linkedFrom block t ((block v).elim 0 Certificate.round + 1) v []

theorem linkAt_self {t : Digest} : linkAt block t t = some true := by
  rw [linkAt, linkedFrom, if_pos rfl]

theorem linkAt_of_target_none {t v : Digest} (hvt : v ≠ t) (ht : block t = none) :
    linkAt block t v = none := by
  simp [linkAt, linkedFrom, hvt, ht]

theorem linkAt_of_none {t v : Digest} (hvt : v ≠ t) (hv : block v = none) :
    linkAt block t v = none := by
  simp [linkAt, linkedFrom, hvt, hv]

theorem linkAt_of_some (hlow : Descends block) {t v : Digest} {target c : Certificate}
    (hvt : v ≠ t) (ht : block t = some target) (hv : block v = some c) :
    linkAt block t v = if c.round ≤ target.round then some false
      else linkedAmong block (linkAt block t) target.round c.header.parents.toList false := by
  have hfuel : Fuels block v (c.round + 1) := by simpa [hv] using Fuels.round block v
  rw [linkAt, hv, Option.elim_some, linkedFrom, if_neg hvt, if_neg List.not_mem_nil]
  simp only [ht, hv]
  split_ifs with hle
  · rfl
  · exact linkedAmong_congr fun p hp q hq => linkedFrom_eq hlow _ _
      (hfuel.parent hlow hv hp hq) (Fuels.round block p) (Above.nil.cons hlow hv hp) .nil

theorem linkedAmong_incomplete {f : Digest → Option Bool} : ∀ {l : List Digest},
    linkedAmong block f r l true ≠ some false
  | [] => by simp [linkedAmong]
  | p :: ps => by
    have ih : linkedAmong block f r ps true ≠ some false := linkedAmong_incomplete
    rcases hp : block p with _ | b
    · simpa only [linkedAmong, hp] using ih
    simp only [linkedAmong, hp]
    split_ifs
    · exact ih
    · rcases f p with _ | _ | _
      · exact ih
      · exact ih
      · nofun

theorem linkedAmong_false (hext : Extends block block') {f g : Digest → Option Bool} :
    ∀ {l : List Digest}, (∀ p ∈ l, ∀ q x, block p = some q → f p = some x → g p = some x) →
      linkedAmong block f r l false = some false → linkedAmong block' g r l false = some false
  | [], _, h => h
  | p :: ps, hfg, h => by
    have ih : linkedAmong block f r ps false = some false →
        linkedAmong block' g r ps false = some false :=
      linkedAmong_false hext fun q hq => hfg q (List.mem_cons_of_mem _ hq)
    rcases hp : block p with _ | b
    · simp only [linkedAmong, hp] at h
      exact absurd h linkedAmong_incomplete
    simp only [linkedAmong, hp] at h
    simp only [linkedAmong, hext hp]
    split_ifs at h ⊢ with hlt
    · exact ih h
    · rcases hf : f p with _ | _ | _ <;> simp only [hf] at h
      · exact absurd h linkedAmong_incomplete
      · simp only [hfg p List.mem_cons_self b _ hp hf]
        exact ih h
      · cases h

/-- The loop says yes when one of the parents at or above the target does. -/
theorem linkedAmong_eq_true {f : Digest → Option Bool} : ∀ {l : List Digest} {incomplete : Bool},
    linkedAmong block f r l incomplete = some true ↔
      ∃ p ∈ l, ∃ q, block p = some q ∧ r ≤ q.round ∧ f p = some true
  | [], incomplete => by cases incomplete <;> simp [linkedAmong]
  | p :: ps, incomplete => by
    rw [List.exists_mem_cons_iff]
    rcases hp : block p with _ | b
    · simp only [linkedAmong, hp, linkedAmong_eq_true]
      simp
    simp only [linkedAmong, hp, Option.some.injEq, exists_eq_left']
    split_ifs with hlt
    · rw [linkedAmong_eq_true, or_iff_right fun h => not_le.2 hlt h.1]
    · rcases hf : f p with _ | _ | _
      · simp [linkedAmong_eq_true]
      · simp [linkedAmong_eq_true]
      · simp [not_lt.1 hlt]

theorem linkedAmong_mono (hext : Extends block block') {f g : Digest → Option Bool}
    {l : List Digest} (hfg : ∀ p ∈ l, ∀ q x, block p = some q → f p = some x → g p = some x) :
    ∀ {b : Bool}, linkedAmong block f r l false = some b →
      linkedAmong block' g r l false = some b
  | false, h => linkedAmong_false hext hfg h
  | true, h => by
    rw [linkedAmong_eq_true] at h ⊢
    obtain ⟨p, hp, q, hq, hr, hf⟩ := h
    exact ⟨p, hp, q, hext hq, hr, hfg p hp q true hq hf⟩

theorem linkedAmong_eq_none {f : Digest → Option Bool} : ∀ {l : List Digest},
    linkedAmong block f r l false = none →
      ∃ p ∈ l, block p = none ∨ ∃ q, block p = some q ∧ f p = none
  | p :: ps, h => by
    have tail : linkedAmong block f r ps false = none →
        ∃ p' ∈ p :: ps, block p' = none ∨ ∃ q, block p' = some q ∧ f p' = none := fun h => by
      obtain ⟨p', hp', h⟩ := linkedAmong_eq_none h
      exact ⟨p', List.mem_cons_of_mem _ hp', h⟩
    rcases hp : block p with _ | b
    · exact ⟨p, List.mem_cons_self, .inl hp⟩
    simp only [linkedAmong, hp] at h
    split_ifs at h
    · exact tail h
    · rcases hf : f p with _ | _ | _ <;> simp only [hf] at h
      · exact ⟨p, List.mem_cons_self, .inr ⟨b, hp, hf⟩⟩
      · exact tail h
      · cases h

theorem linkAt_mono (hlow : Descends block) (hlow' : Descends block')
    (hext : Extends block block') {t : Digest} {target : Certificate} (ht : block t = some target)
    {x : Bool} : ∀ (n : ℕ) {v : Digest} {c : Certificate}, block v = some c → c.round < n →
      linkAt block t v = some x → linkAt block' t v = some x
  | 0, _, _, _, hn, _ => absurd hn (Nat.not_lt_zero _)
  | n + 1, v, c, hv, hn, h => by
    by_cases hvt : v = t
    · rw [hvt, linkAt_self] at h ⊢
      exact h
    rw [linkAt_of_some hlow hvt ht hv] at h
    rw [linkAt_of_some hlow' hvt (hext ht) (hext hv)]
    split_ifs at h ⊢ with hle
    · exact h
    · refine linkedAmong_mono hext (fun p hp q x hq hx => ?_) h
      have hlt := hlow hv hp hq
      exact linkAt_mono hlow hlow' hext ht n hq (by omega) hx

theorem linkAt.mono (hlow : Descends block) (hlow' : Descends block')
    (hext : Extends block block') {t v : Digest} {x : Bool} (h : linkAt block t v = some x) :
    linkAt block' t v = some x := by
  by_cases hvt : v = t
  · rw [hvt, linkAt_self] at h ⊢
    exact h
  rcases ht : block t with _ | target
  · rw [linkAt_of_target_none hvt ht] at h
    cases h
  rcases hv : block v with _ | c
  · rw [linkAt_of_none hvt hv] at h
    cases h
  · exact linkAt_mono hlow hlow' hext ht _ hv (Nat.lt_succ_self _) h

theorem linkAt_eq_none (hlow : Descends block) {t : Digest} {target : Certificate}
    (ht : block t = some target) : ∀ (n : ℕ) {v : Digest} {c : Certificate},
      block v = some c → c.round < n → linkAt block t v = none → Gap block target.round v
  | 0, _, _, _, hn, _ => absurd hn (Nat.not_lt_zero _)
  | n + 1, v, c, hv, hn, h => by
    by_cases hvt : v = t
    · rw [hvt, linkAt_self] at h
      cases h
    rw [linkAt_of_some hlow hvt ht hv] at h
    split_ifs at h with hle
    obtain ⟨p, hp, h⟩ := linkedAmong_eq_none h
    refine .parent hv (not_le.1 hle) hp ?_
    rcases h with h | ⟨q, hq, h⟩
    · exact .here h
    · have hlt := hlow hv hp hq
      exact linkAt_eq_none hlow ht n hq (by omega) h

/-- There is no verdict only when the target is missing or there is a gap in the history. -/
theorem linkAt.gap (hlow : Descends block) {t v : Digest} (h : linkAt block t v = none) :
    block t = none ∨ ∃ target, block t = some target ∧ Gap block target.round v := by
  rcases ht : block t with _ | target
  · exact .inl rfl
  rcases hv : block v with _ | c
  · exact .inr ⟨target, rfl, .here hv⟩
  · exact .inr ⟨target, rfl, linkAt_eq_none hlow ht _ hv (Nat.lt_succ_self _) h⟩

end Links

/-! ## The queries -/

section Queries

open MahiDag

/-- What the caches hold is what the recursion answers over the blocks. -/
structure Cached (committee : Committee) (block : Digest → Option Certificate) (D : MahiDag) :
    Prop where
  support : ∀ {v a r s}, D.supportCache.lookup (v, a, r) = some s → supportAt block a r v = some s
  certificate : ∀ {c l b}, D.certificateCache.lookup (c, l) = some b →
    certificateAt block committee c l = some b
  link : ∀ {v t b}, D.linkCache.lookup (v, t) = some b → linkAt block t v = some b

/-- A state that queries reach from `D₀`. -/
structure Queried (committee : Committee) (D₀ D : MahiDag) : Prop where
  byRound : D.byRound = D₀.byRound
  byDigest : D.byDigest = D₀.byDigest
  cached : Cached committee D₀.block D

variable {committee : Committee} {D₀ D : MahiDag}

theorem Queried.block (h : Queried committee D₀ D) : D.block = D₀.block := by
  funext d
  rw [MahiDag.block, MahiDag.block, h.byDigest]

theorem Queried.fuel (h : Queried committee D₀ D) : D.fuel = D₀.fuel := by
  rw [MahiDag.fuel, MahiDag.fuel, highestRound, highestRound, h.byRound, h.byDigest]

theorem queried_cacheSupport {v : Digest} {a : PublicKey} {r : ℕ} {s : Option Digest}
    (h : supportAt D₀.block a r v = some s) :
    Computes (Queried committee D₀) (cacheSupport (v, a, r) s) ⟨⟩ := by
  refine .ofModify fun D hD => ⟨hD.byRound, hD.byDigest, { hD.cached with support := ?_ }⟩
  intro v' a' r' s' hl
  rw [FinMap.lookup_insert_ite] at hl
  split_ifs at hl with hk
  · obtain ⟨rfl, rfl, rfl⟩ := hk
    rw [h, hl]
  · exact hD.cached.support hl

theorem queried_cacheCertificate {c l : Digest} {b : Bool}
    (h : certificateAt D₀.block committee c l = some b) :
    Computes (Queried committee D₀) (cacheCertificate (c, l) b) ⟨⟩ := by
  refine .ofModify fun D hD => ⟨hD.byRound, hD.byDigest, { hD.cached with certificate := ?_ }⟩
  intro c' l' b' hl
  rw [FinMap.lookup_insert_ite] at hl
  split_ifs at hl with hk
  · obtain ⟨rfl, rfl⟩ := hk
    rw [h, hl]
  · exact hD.cached.certificate hl

theorem queried_cacheLink {v t : Digest} {b : Bool} (h : linkAt D₀.block t v = some b) :
    Computes (Queried committee D₀) (cacheLink (v, t) b) ⟨⟩ := by
  refine .ofModify fun D hD => ⟨hD.byRound, hD.byDigest, { hD.cached with link := ?_ }⟩
  intro v' t' b' hl
  rw [FinMap.lookup_insert_ite] at hl
  split_ifs at hl with hk
  · obtain ⟨rfl, rfl⟩ := hk
    rw [h, hl]
  · exact hD.cached.link hl

section Support

variable {a : PublicKey} {r : ℕ}

theorem queried_findSupportLoop {inner : Digest → DagM (Option (Option Digest))} {v : Digest} :
    ∀ {ps : List Digest},
      supportAmong D₀.block (supportAt D₀.block a r) a r ps = supportAt D₀.block a r v →
      (∀ p ∈ ps, ∀ q, D₀.block p = some q →
        Computes (Queried committee D₀) (inner p) (supportAt D₀.block a r p)) →
      Computes (Queried committee D₀) (findSupportLoop inner v a r ps)
        (supportAt D₀.block a r v)
  | [], hv, _ => by
    rw [findSupportLoop, ← hv]
    exact .bind (queried_cacheSupport hv.symm) (.pure _)
  | p :: ps, hv, hps => by
    have hps' := fun p hp => hps p (List.mem_cons_of_mem _ hp)
    have ih : supportAmong D₀.block (supportAt D₀.block a r) a r ps = supportAt D₀.block a r v →
        Computes (Queried committee D₀) (findSupportLoop inner v a r ps)
          (supportAt D₀.block a r v) := fun hv => queried_findSupportLoop hv hps'
    rw [findSupportLoop]
    refine .get_bind fun D hD => ?_
    simp only [hD.block]
    rcases hp : D₀.block p with _ | q <;> simp only [supportAmong, hp] at hv
    · rw [← hv]
      exact .pure _
    dsimp only
    split_ifs at hv ⊢ with h₁ h₂ h₃
    · exact ih hv
    · rw [← hv]
      exact .bind (queried_cacheSupport hv.symm) (.pure _)
    · refine .bind (hps p List.mem_cons_self q hp) ?_
      rcases hs : supportAt D₀.block a r p with _ | _ | s <;> simp only [hs] at hv
      · rw [← hv]
        exact .pure _
      · exact ih hv
      · rw [← hv]
        exact .bind (queried_cacheSupport hv.symm) (.pure _)
    · exact ih hv

theorem queried_findSupportInner (hlow : Descends D₀.block) : ∀ (n : ℕ) {v : Digest}
    {visiting : List Digest}, Fuels D₀.block v n → Above D₀.block v visiting →
      Computes (Queried committee D₀) (findSupportInner a r n v visiting)
        (supportAt D₀.block a r v)
  | 0, _, _, hn, _ => absurd hn.1 (lt_irrefl 0)
  | n + 1, v, visiting, hn, hvis => by
    rw [findSupportInner]
    refine .get_bind fun D hD => ?_
    rcases hc : D.supportCache.lookup (v, a, r) with _ | s
    · rcases hv : D₀.block v with _ | c
      · rw [supportAt_of_none hv]
        simp only [hD.block, hv]
        split_ifs <;> exact .pure _
      have heq := supportAt_of_some (a := a) (r := r) hlow hv
      simp only [hD.block, hv, if_neg (hvis.notMem hv)]
      split_ifs at heq ⊢ with hle
      · rw [heq]
        exact .bind (queried_cacheSupport heq) (.pure _)
      · exact queried_findSupportLoop heq.symm fun p hp q hq =>
          queried_findSupportInner hlow n (hn.parent hlow hv hp hq) (hvis.cons hlow hv hp)
    · simp only
      rw [hD.cached.support hc]
      exact .pure _

end Support

/-- The rounds of the blocks are among those of the index. -/
def Bounded (D : MahiDag) : Prop := ∀ ⦃d c⦄, D.block d = some c → c.round ≤ D.highestRound

theorem Bounded.fuels (h : Bounded D) (v : Digest) : Fuels D.block v D.fuel := by
  refine ⟨by rw [MahiDag.fuel]; omega, fun c hc => ?_⟩
  have hle := h hc
  rw [MahiDag.fuel]
  omega

theorem queried_findSupport (hlow : Descends D₀.block) (hb : Bounded D₀) (v : Digest)
    (a : PublicKey) (r : ℕ) : Computes (Queried committee D₀) (findSupport v a r)
      (supportAt D₀.block a r v) := by
  rw [findSupport]
  refine .get_bind fun D hD => queried_findSupportInner hlow _ ?_ .nil
  rw [hD.fuel]
  exact hb.fuels v

theorem queried_isVote (hlow : Descends D₀.block) (hb : Bounded D₀) (v l : Digest) :
    Computes (Queried committee D₀) (isVote v l) (voteAt D₀.block v l) := by
  rw [isVote]
  refine .get_bind fun D hD => ?_
  rcases hl : D₀.block l with _ | leader <;> simp only [hD.block, hl, voteAt, voteFrom]
  · exact .pure _
  · exact .bind (queried_findSupport hlow hb v _ _) (.pure _)

theorem queried_isCertificateLoop (hlow : Descends D₀.block) (hb : Bounded D₀) {c l : Digest}
    {r : ℕ} : ∀ {ps : List Digest} {voters : List PublicKey} {stake : ℕ} {incomplete : Bool},
      certifiesAmong D₀.block committee (voteAt D₀.block · l) r ps voters stake incomplete =
        certificateAt D₀.block committee c l →
      Computes (Queried committee D₀)
        (isCertificateLoop committee c l r ps voters stake incomplete)
        (certificateAt D₀.block committee c l)
  | [], voters, stake, incomplete, hc => by
    rw [isCertificateLoop, ← hc]
    cases incomplete
    · exact .bind (queried_cacheCertificate hc.symm) (.pure _)
    · exact .pure _
  | p :: ps, voters, stake, incomplete, hc => by
    rw [isCertificateLoop]
    refine .get_bind fun D hD => ?_
    rcases hp : D₀.block p with _ | q <;> simp only [certifiesAmong, hp] at hc <;>
      simp only [hD.block, hp]
    · exact queried_isCertificateLoop hlow hb hc
    by_cases hskip : q.round ≠ r ∨ q.origin ∈ voters
    · rw [if_pos hskip] at hc ⊢
      exact queried_isCertificateLoop hlow hb hc
    rw [if_neg hskip] at hc ⊢
    refine .bind (queried_isVote hlow hb p l) ?_
    rcases hv : voteAt D₀.block p l with _ | _ | _ <;> simp only [hv] at hc
    · exact queried_isCertificateLoop hlow hb hc
    · exact queried_isCertificateLoop hlow hb hc
    · dsimp only
      split_ifs at hc ⊢ with hle
      · rw [← hc]
        exact .bind (queried_cacheCertificate hc.symm) (.pure _)
      · exact queried_isCertificateLoop hlow hb hc

theorem queried_isCertificate (hlow : Descends D₀.block) (hb : Bounded D₀) (c l : Digest) :
    Computes (Queried committee D₀) (isCertificate committee c l)
      (certificateAt D₀.block committee c l) := by
  rw [isCertificate]
  refine .get_bind fun D hD => ?_
  rcases hcache : D.certificateCache.lookup (c, l) with _ | b
  · rcases hc : D₀.block c with _ | cert <;> simp only [hD.block, hc]
    · rw [certificateAt, certifiesFrom, hc]
      exact .pure _
    · refine queried_isCertificateLoop hlow hb ?_
      rw [certificateAt, certifiesFrom, hc]
  · simp only
    rw [hD.cached.certificate hcache]
    exact .pure _

theorem queried_linkedLoop {inner : Digest → DagM (Option Bool)} {v t : Digest} {r : ℕ} :
    ∀ {ps : List Digest} {incomplete : Bool},
      linkedAmong D₀.block (linkAt D₀.block t) r ps incomplete = linkAt D₀.block t v →
      (∀ p ∈ ps, ∀ q, D₀.block p = some q →
        Computes (Queried committee D₀) (inner p) (linkAt D₀.block t p)) →
      Computes (Queried committee D₀) (linkedLoop inner v t r ps incomplete)
        (linkAt D₀.block t v)
  | [], incomplete, hv, _ => by
    rw [linkedLoop, ← hv]
    cases incomplete
    · exact .bind (queried_cacheLink hv.symm) (.pure _)
    · exact .pure _
  | p :: ps, incomplete, hv, hps => by
    have hps' := fun p hp => hps p (List.mem_cons_of_mem _ hp)
    rw [linkedLoop]
    refine .get_bind fun D hD => ?_
    rcases hp : D₀.block p with _ | q <;> simp only [linkedAmong, hp] at hv <;>
      simp only [hD.block, hp]
    · exact queried_linkedLoop hv hps'
    split_ifs at hv ⊢ with hlt
    · exact queried_linkedLoop hv hps'
    · refine .bind (hps p List.mem_cons_self q hp) ?_
      rcases hs : linkAt D₀.block t p with _ | _ | _ <;> simp only [hs] at hv
      · exact queried_linkedLoop hv hps'
      · exact queried_linkedLoop hv hps'
      · rw [← hv]
        exact .bind (queried_cacheLink hv.symm) (.pure _)

theorem queried_linkedInner (hlow : Descends D₀.block) {t : Digest} : ∀ (n : ℕ) {v : Digest}
    {visiting : List Digest}, Fuels D₀.block v n → Above D₀.block v visiting →
      Computes (Queried committee D₀) (linkedInner t n v visiting) (linkAt D₀.block t v)
  | 0, _, _, hn, _ => absurd hn.1 (lt_irrefl 0)
  | n + 1, v, visiting, hn, hvis => by
    rw [linkedInner]
    by_cases hvt : v = t
    · rw [if_pos hvt, hvt, linkAt_self]
      exact .pure _
    rw [if_neg hvt]
    refine .get_bind fun D hD => ?_
    rcases hc : D.linkCache.lookup (v, t) with _ | b
    · simp only [hD.block]
      rcases hv : D₀.block v with _ | c
      · rw [linkAt_of_none hvt hv]
        split_ifs
        · exact .pure _
        · rcases D₀.block t with _ | target <;> exact .pure _
      rcases ht : D₀.block t with _ | target
      · rw [linkAt_of_target_none hvt ht, if_neg (hvis.notMem hv)]
        exact .pure _
      have heq := linkAt_of_some hlow hvt ht hv
      simp only [if_neg (hvis.notMem hv)]
      split_ifs at heq ⊢ with hle
      · rw [heq]
        exact .bind (queried_cacheLink heq) (.pure _)
      · exact queried_linkedLoop heq.symm fun p hp q hq =>
          queried_linkedInner hlow n (hn.parent hlow hv hp hq) (hvis.cons hlow hv hp)
    · simp only
      rw [hD.cached.link hc]
      exact .pure _

theorem queried_linked (hlow : Descends D₀.block) (hb : Bounded D₀) (v t : Digest) :
    Computes (Queried committee D₀) (linked v t) (linkAt D₀.block t v) := by
  rw [linked]
  refine .get_bind fun D hD => queried_linkedInner hlow _ ?_ .nil
  rw [hD.fuel]
  exact hb.fuels v

end Queries

/-! ## Runs -/

section Runs

open MahiDag

variable [Crypto]

/-- Blocks put in by then, and the DAG after inserts, queries and cleanups in any order. -/
inductive Run (committee : Committee) (genesis : List Certificate) :
    List Certificate → MahiDag → Prop
  | new : Run committee genesis [] (MahiDag.new genesis)
  | insert {xs D} (x : Certificate) (h : Run committee genesis xs D) :
      Run committee genesis (xs ++ [x]) (D.insert x).1
  | findSupport {xs D D' v a r s} (h : Run committee genesis xs D)
      (hq : (findSupport v a r).run D = .ok (s, D')) : Run committee genesis xs D'
  | isCertificate {xs D D' c l b} (h : Run committee genesis xs D)
      (hq : (isCertificate committee c l).run D = .ok (b, D')) : Run committee genesis xs D'
  | linked {xs D D' v t b} (h : Run committee genesis xs D)
      (hq : (linked v t).run D = .ok (b, D')) : Run committee genesis xs D'
  | prune {xs D} (minRootRound : ℕ) (h : Run committee genesis xs D) :
      Run committee genesis xs (D.pruneCaches minRootRound)

/-- Parents are of lower rounds than their children. -/
def Lower (blocks : List Certificate) : Prop :=
  ∀ c ∈ blocks, ∀ q ∈ blocks, q.digest ∈ c.header.parents → q.round < c.round

instance (blocks : List Certificate) : Decidable (Lower blocks) := by
  unfold Lower; infer_instance

variable {committee : Committee} {genesis xs : List Certificate} {D : MahiDag}

theorem Lower.mono {ys : List Certificate} (h : Lower ys) (hsub : xs ⊆ ys) : Lower xs :=
  fun c hc q hq => h c (hsub hc) q (hsub hq)

/-- The blocks are of a list, under their digests, and in the index. -/
structure Stored (xs : List Certificate) (D : MahiDag) : Prop where
  mem : ∀ {d c}, D.block d = some c → c ∈ xs ∧ c.digest = d
  slot : ∀ {a r d}, d ∈ D.slotDigests a r ↔ ∃ c, D.block d = some c ∧ c.round = r ∧ c.origin = a

namespace Stored

theorem insert (h : Stored xs D) (x : Certificate) : Stored (xs ++ [x]) (D.insert x).1 where
  mem hd := by
    rcases block_insert_eq_some hd with hd | ⟨rfl, rfl⟩
    · exact ⟨List.mem_append_left _ (h.mem hd).1, (h.mem hd).2⟩
    · exact ⟨List.mem_append_right _ List.mem_cons_self, rfl⟩
  slot := slot_insert h.slot

theorem insertAll : ∀ (ys : List Certificate) {xs : List Certificate} {D : MahiDag},
    Stored xs D → Stored (xs ++ ys) (D.insertAll ys)
  | [], xs, D, h => by
    rw [List.append_nil]
    exact h
  | y :: ys, xs, D, h => by
    rw [List.append_cons, insertAll_cons]
    exact insertAll ys (h.insert y)

theorem new : Stored genesis (MahiDag.new genesis) := by
  have hempty : Stored [] {} := ⟨nofun, by simp [slotDigests, block]⟩
  exact insertAll genesis hempty

theorem descends (h : Stored xs D) (hlow : Lower xs) : Descends D.block :=
  fun _ c _ q hd hp hq => hlow c (h.mem hd).1 q (h.mem hq).1 ((h.mem hq).2.symm ▸ hp)

theorem bounded (h : Stored xs D) : Bounded D :=
  fun _ _ hd => le_highestRound (h.slot.2 ⟨_, hd, rfl, rfl⟩)

end Stored

namespace Cached

variable {block block' : Digest → Option Certificate}

omit [Crypto] in
/-- What the recursion answers it answers with more blocks too. -/
theorem mono (h : Cached committee block D) (hlow : Descends block) (hlow' : Descends block')
    (hext : Extends block block') : Cached committee block' D where
  support hl := supportAt.mono hlow hlow' hext (h.support hl)
  certificate hl := certificateAt.mono hlow hlow' hext (h.certificate hl)
  link hl := linkAt.mono hlow hlow' hext (h.link hl)

theorem insert (h : Cached committee block D) (x : Certificate) :
    Cached committee block (D.insert x).1 := by
  by_cases hx : (D.block x.digest).isSome = true
  · rwa [insert_of_isSome hx]
  · rw [MahiDag.insert, if_neg hx]
    exact ⟨h.support, h.certificate, h.link⟩

omit [Crypto] in
theorem prune (h : Cached committee block D) (m : ℕ) :
    Cached committee block (D.pruneCaches m) where
  support hl := h.support (FinMap.lookup_retain_eq_some.1 hl).1
  certificate hl := h.certificate (FinMap.lookup_retain_eq_some.1 hl).1
  link hl := h.link (FinMap.lookup_retain_eq_some.1 hl).1

end Cached

omit [Crypto] in
theorem cached_empty {block : Digest → Option Certificate} : Cached committee block {} :=
  ⟨nofun, nofun, nofun⟩

theorem Cached.new {block : Digest → Option Certificate} :
    Cached committee block (MahiDag.new genesis) := by
  have hall : ∀ (gs : List Certificate) {D : MahiDag}, Cached committee block D →
      Cached committee block (gs.foldl (fun D g => (D.insert g).1) D) := by
    intro gs
    induction gs with
    | nil => exact fun h => h
    | cons g gs ih => exact fun h => ih (h.insert g)
  exact hall genesis cached_empty

theorem Queried.stored {D' : MahiDag} (h : Stored xs D) (hq : Queried committee D D') :
    Stored xs D' where
  mem := hq.block ▸ h.mem
  slot := by
    have hslot : D'.slotDigests = D.slotDigests := by
      funext a r
      rw [MahiDag.slotDigests, MahiDag.slotDigests, hq.byRound]
    intro a r d
    rw [hslot, hq.block]
    exact h.slot

omit [Crypto] in
/-- A query leaves what it should. -/
theorem Queried.of_run {α : Type} {m : DagM α} {a b : α} {D' : MahiDag}
    (hm : Computes (Queried committee D) m a) (hc : Cached committee D.block D)
    (hrun : m.run D = .ok (b, D')) : Queried committee D D' := by
  obtain ⟨D'', hs, h⟩ := hm D ⟨rfl, rfl, hc⟩
  have heq : (.ok (a, D'') : Except String (α × MahiDag)) = .ok (b, D') := hs.symm.trans hrun
  cases heq
  exact h

/-- After every run the blocks are stored and what the caches hold is what the recursions answer. -/
theorem Run.inv (h : Run committee genesis xs D) (hlow : Lower (genesis ++ xs)) :
    Stored (genesis ++ xs) D ∧ Cached committee D.block D := by
  induction h with
  | new => exact ⟨by simpa using Stored.new, .new⟩
  | @insert xs D x h ih =>
    obtain ⟨hs, hc⟩ := ih (hlow.mono (by simp))
    have hs' : Stored (genesis ++ (xs ++ [x])) (D.insert x).1 := by simpa using hs.insert x
    exact ⟨hs', (hc.mono (hs.descends (hlow.mono (by simp))) (hs'.descends hlow)
      fun _ _ => block_insert_of_block).insert x⟩
  | findSupport h hq ih =>
    obtain ⟨hs, hc⟩ := ih hlow
    have hq := Queried.of_run (queried_findSupport (hs.descends hlow) hs.bounded _ _ _) hc hq
    exact ⟨hq.stored hs, hq.block ▸ hq.cached⟩
  | isCertificate h hq ih =>
    obtain ⟨hs, hc⟩ := ih hlow
    have hq := Queried.of_run (queried_isCertificate (hs.descends hlow) hs.bounded _ _) hc hq
    exact ⟨hq.stored hs, hq.block ▸ hq.cached⟩
  | linked h hq ih =>
    obtain ⟨hs, hc⟩ := ih hlow
    have hq := Queried.of_run (queried_linked (hs.descends hlow) hs.bounded _ _) hc hq
    exact ⟨hq.stored hs, hq.block ▸ hq.cached⟩
  | prune m h ih =>
    obtain ⟨hs, hc⟩ := ih hlow
    exact ⟨⟨hs.mem, hs.slot⟩, hc.prune m⟩

/-! ## The recursions of a DAG -/

section

variable (hs : Stored xs D) (hlow : Lower xs)
include hs hlow

theorem findSupportUncached_eq (v : Digest) (a : PublicKey) (r : ℕ) :
    D.findSupportUncached v a r = supportAt D.block a r v :=
  supportFrom_eq (hs.descends hlow) _ _ (hs.bounded.fuels v) (.round _ v) .nil .nil

theorem isCertificateUncached_eq (c l : Digest) :
    D.isCertificateUncached committee c l = certificateAt D.block committee c l := by
  have hvote : D.isVoteUncached = voteAt D.block := by
    funext v l
    simp only [isVoteUncached, voteAt, voteFrom, findSupportUncached_eq hs hlow]
  rw [isCertificateUncached, hvote, certificateAt]

theorem linkedUncached_eq (v t : Digest) : D.linkedUncached v t = linkAt D.block t v :=
  linkedFrom_eq (hs.descends hlow) _ _ (hs.bounded.fuels v) (.round _ v) .nil .nil

end

/-- A query answers as the recursion without caches does, an answer stays what it is on later DAGs,
and there is none only if something is missing. -/
structure Transparent {β : Type} (later : MahiDag → Prop) (D : MahiDag) (query : DagM (Option β))
    (uncached : MahiDag → Option β) (missing : Prop) : Prop where
  answer : ∃ D', query.run D = .ok (uncached D, D')
  stable : ∀ x, uncached D = some x → ∀ D', later D' → uncached D' = some x
  gap : uncached D = none → missing

/-- The DAGs from further inserts. -/
def Later (blocks : List Certificate) (D D' : MahiDag) : Prop :=
  ∃ more, Lower (blocks ++ more) ∧ D' = D.insertAll more

/-- The caches are transparent. -/
theorem caches_transparent (h : Run committee genesis xs D) (hlow : Lower (genesis ++ xs)) :
    (∀ v a r, Transparent (Later (genesis ++ xs) D) D (findSupport v a r)
      (·.findSupportUncached v a r) (Gap D.block r v)) ∧
    (∀ c l, Transparent (Later (genesis ++ xs) D) D (isCertificate committee c l)
      (·.isCertificateUncached committee c l)
      (D.block c = none ∨ D.block l = none ∨ ∃ cert leader, D.block c = some cert ∧
        D.block l = some leader ∧ ∃ p ∈ cert.header.parents, Gap D.block leader.round p)) ∧
    ∀ v t, Transparent (Later (genesis ++ xs) D) D (linked v t) (·.linkedUncached v t)
      (D.block t = none ∨ ∃ target, D.block t = some target ∧ Gap D.block target.round v) := by
  obtain ⟨hs, hc⟩ := h.inv hlow
  have hdesc := hs.descends hlow
  have hstart : Queried committee D D := ⟨rfl, rfl, hc⟩
  have hlater : ∀ {D'}, Later (genesis ++ xs) D D' → ∃ ys, Stored ys D' ∧ Lower ys ∧
      Extends D.block D'.block := by
    rintro _ ⟨more, hmore, rfl⟩
    exact ⟨_, hs.insertAll more, hmore, fun _ _ => block_insertAll_of_block more⟩
  refine ⟨fun v a r => ⟨?_, fun x hx D' hD' => ?_, fun hn => ?_⟩,
    fun c l => ⟨?_, fun x hx D' hD' => ?_, fun hn => ?_⟩,
    fun v t => ⟨?_, fun x hx D' hD' => ?_, fun hn => ?_⟩⟩
  · obtain ⟨D', hrun, -⟩ := queried_findSupport hdesc hs.bounded v a r D hstart
    rw [findSupportUncached_eq hs hlow]
    exact ⟨D', hrun⟩
  · obtain ⟨ys, hs', hlow', hext⟩ := hlater hD'
    rw [findSupportUncached_eq hs hlow] at hx
    rw [findSupportUncached_eq hs' hlow']
    exact supportAt.mono hdesc (hs'.descends hlow') hext hx
  · rw [findSupportUncached_eq hs hlow] at hn
    exact supportAt.gap hdesc hn
  · obtain ⟨D', hrun, -⟩ := queried_isCertificate hdesc hs.bounded c l D hstart
    rw [isCertificateUncached_eq hs hlow]
    exact ⟨D', hrun⟩
  · obtain ⟨ys, hs', hlow', hext⟩ := hlater hD'
    rw [isCertificateUncached_eq hs hlow] at hx
    rw [isCertificateUncached_eq hs' hlow']
    exact certificateAt.mono hdesc (hs'.descends hlow') hext hx
  · rw [isCertificateUncached_eq hs hlow] at hn
    exact certificateAt.gap hdesc hn
  · obtain ⟨D', hrun, -⟩ := queried_linked hdesc hs.bounded v t D hstart
    rw [linkedUncached_eq hs hlow]
    exact ⟨D', hrun⟩
  · obtain ⟨ys, hs', hlow', hext⟩ := hlater hD'
    rw [linkedUncached_eq hs hlow] at hx
    rw [linkedUncached_eq hs' hlow']
    exact linkAt.mono hdesc (hs'.descends hlow') hext hx
  · rw [linkedUncached_eq hs hlow] at hn
    exact linkAt.gap hdesc hn

end Runs

/-- A block of round 1. -/
def lateParent [Crypto] : Certificate :=
  Certificate.on (Certificate.genesis (.uniform 4)) 1 0 [0, 1, 2]

/-- A block of round 2 that comes before its parent. -/
def earlyChild [Crypto] : Certificate :=
  Certificate.on [lateParent] 2 0 [0]

/-- Which block of round 0 by author 1 it supports is open at first, and answered out of what the
parent has supported from then on. -/
theorem caches_transparent_lateParent :
    letI := toyCrypto
    let query := MahiDag.findSupport earlyChild.digest 1 0
    let D := ((MahiDag.new (Certificate.genesis (.uniform 4))).insert earlyChild).1
    ∃ D₁ D₂, query.run D = .ok (none, D₁) ∧ (∃ support, query.run (D₁.insert lateParent).1 =
      .ok (some (some support), D₂)) ∧ D₂.supportCache.entries.length = 2 ∧
        ∃ D', query.run D₂ = .ok (D₂.findSupportUncached earlyChild.digest 1 0, D') := by
  let _ := toyCrypto
  intro query D
  have hqueries : (query.run D >>= fun p => (query.run (p.2.insert lateParent).1).map fun q =>
      (p.1, q.1.map Option.isSome, q.2.supportCache.entries.length)) =
        .ok (none, some true, 2) := by decide +kernel
  obtain ⟨⟨first, D₁⟩, h₁, hqueries⟩ := Fallible.bind_eq_ok.1 hqueries
  rcases h₂ : query.run (D₁.insert lateParent).1 with e | ⟨second, D₂⟩
  · rw [h₂] at hqueries
    cases hqueries
  · rw [h₂] at hqueries
    obtain ⟨rfl, hsecond, hlen⟩ : first = none ∧ second.map Option.isSome = some true ∧
        D₂.supportCache.entries.length = 2 := by
      simpa [Except.map] using hqueries
    have hsupport : ∃ support, second = some (some support) := by
      rcases second with _ | _ | support
      · cases hsecond
      · cases hsecond
      · exact ⟨support, rfl⟩
    have hrun : Run (.uniform 4) (Certificate.genesis (.uniform 4)) [earlyChild, lateParent] D₂ :=
      .findSupport (.insert lateParent (.findSupport (.insert earlyChild .new) h₁)) h₂
    obtain ⟨support, rfl⟩ := hsupport
    exact ⟨D₁, D₂, h₁, ⟨support, h₂⟩, hlen,
      ((caches_transparent hrun (by decide +kernel)).1 _ _ _).answer⟩

end MahiMahi

end NovelDag
