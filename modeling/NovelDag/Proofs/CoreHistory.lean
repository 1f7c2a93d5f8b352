import NovelDag.CoreState
import NovelDag.Lib.Search

/-!
# The history queries of the core

A query goes down the references from its roots, with a cache. For the authors of a round it goes on
from certificates of higher rounds, and ends at those of the round. For a header it goes on from
certificates that are not it, not of lower rounds and without an entry in the cache. What it finds is
compared with what can be reached.
-/

namespace NovelDag.Core

open Search

/-! ## References -/

section Graph

variable (certs : FinMap Digest Certificate)

/-- The certificate of the first digest refers to the second. -/
def Refers (x y : Digest) : Prop := ∃ c, certs.lookup x = some c ∧ y ∈ allParents c

/-- Certificates closed under references, without cycles. -/
structure History : Prop where
  closed : ∀ x c, certs.lookup x = some c → ∀ p ∈ allParents c, (certs.lookup p).isSome
  acyclic : Acyclic (Refers certs)

/-- The digests on a path so far are above its end. -/
def OnPath (visiting : Finset Digest) (root : Digest) : Prop :=
  ∀ v ∈ visiting, Relation.TransGen (Refers certs) v root

variable {certs} {visiting : Finset Digest} {root p : Digest} {c : Certificate}

theorem onPath_empty : OnPath certs ∅ root := fun v hv => absurd hv (Finset.notMem_empty v)

theorem OnPath.root_notMem (h : OnPath certs visiting root) (ha : Acyclic (Refers certs)) :
    root ∉ visiting := fun hroot => ha root (h root hroot)

theorem OnPath.insert (h : OnPath certs visiting root) (hc : certs.lookup root = some c)
    (hp : p ∈ allParents c) : OnPath certs (insert root visiting) p := by
  intro v hv
  have hedge : Refers certs root p := ⟨c, hc, hp⟩
  rcases Finset.mem_insert.1 hv with rfl | hv
  · exact .single hedge
  · exact (h v hv).tail hedge

end Graph

/-! ## Authors of a round -/

section Authors

variable (certs : FinMap Digest Certificate) (round : ℕ)

/-- The certificate is of a round above. -/
def Above (x : Digest) : Prop := ∃ c, certs.lookup x = some c ∧ round < c.round

/-- The certificate is of the round and the author. -/
def AuthoredBy (a : PublicKey) (x : Digest) : Prop :=
  ∃ c, certs.lookup x = some c ∧ c.round = round ∧ c.origin = a

/-- The author of a certificate of the round that is met going down through higher rounds only. -/
def MetAuthor (root : Digest) (a : PublicKey) : Prop :=
  LeadsTo (Refers certs) (Above certs round) (AuthoredBy certs round a) root

/-- An answer, if there is one, has the authors met. -/
def AnswersAuthors (root : Digest) (authors : Option (Finset PublicKey)) : Prop :=
  ∀ A, authors = some A → ∀ a, a ∈ A ↔ MetAuthor certs round root a

/-- The entries are the authors met. -/
def SupportOk (cache : SupportCache) : Prop :=
  ∀ x r, AnswersAuthors certs r x (cache.lookup (x, r))

variable {certs round} {visiting : Finset Digest} {root : Digest} {cache : SupportCache}

theorem metAuthor_iff (round : ℕ) {c : Certificate} (hc : certs.lookup root = some c)
    (a : PublicKey) : MetAuthor certs round root a ↔ c.round = round ∧ c.origin = a ∨
      round < c.round ∧ ∃ p ∈ allParents c, MetAuthor certs round p a := by
  unfold MetAuthor
  rw [leadsTo_iff]
  unfold AuthoredBy Above Refers
  simp only [hc, Option.some.injEq, exists_eq_left']

/-- An answer goes into the cache. -/
theorem answer_kept {authors : Finset PublicKey} (hcache : SupportOk certs cache)
    (hmet : ∀ a, a ∈ authors ↔ MetAuthor certs round root a) :
    SupportOk certs (cache.insert (root, round) authors) ∧
      AnswersAuthors certs round root (some authors) := by
  have hanswer : AnswersAuthors certs round root (some authors) := by
    rintro A hA
    obtain rfl := Option.some.inj hA
    exact hmet
  refine ⟨fun x r => ?_, hanswer⟩
  rw [FinMap.lookup_insert_ite]
  split_ifs with h
  · obtain ⟨rfl, rfl⟩ := Prod.mk.inj h
    exact hanswer
  · exact hcache x r

/-- The answers of the parents are put together. -/
theorem reachParents_answers
    {query : Digest → SupportCache → Option (Finset PublicKey) × SupportCache}
    (parents : List Digest) (hq : ∀ p ∈ parents, ∀ cache, SupportOk certs cache →
      SupportOk certs (query p cache).2 ∧ AnswersAuthors certs round p (query p cache).1) :
    ∀ (authors : Finset PublicKey) {cache : SupportCache}, SupportOk certs cache →
      SupportOk certs (reachParents query parents authors cache).2 ∧
        ∀ A, (reachParents query parents authors cache).1 = some A → ∀ a, a ∈ A ↔
          a ∈ authors ∨ ∃ p ∈ parents, MetAuthor certs round p a := by
  induction parents with
  | nil =>
    intro authors cache hcache
    refine ⟨hcache, fun A hA a => ?_⟩
    obtain rfl := Option.some.inj hA
    simp
  | cons p parents ih =>
    intro authors cache hcache
    obtain ⟨hp, hparents⟩ := List.forall_mem_cons.1 hq
    obtain ⟨hcache', hanswer⟩ := hp cache hcache
    unfold reachParents
    rcases hres : query p cache with ⟨_ | parentAuthors, cache'⟩ <;> rw [hres] at hcache' hanswer
    · exact ⟨hcache', nofun⟩
    · obtain ⟨hend, hA⟩ := ih hparents (authors ∪ parentAuthors) hcache'
      refine ⟨hend, fun A h a => (hA A h a).trans ?_⟩
      rw [Finset.mem_union, hanswer _ rfl a, or_assoc]
      simp

theorem reachableAuthorsAtRound_answers (round : ℕ) {certs' : FinMap Digest Certificate}
    (hsub : ∀ x c, certs'.lookup x = some c → certs.lookup x = some c)
    (ha : Acyclic (Refers certs)) : ∀ (fuel : ℕ) {visiting : Finset Digest} {root : Digest}
    {cache : SupportCache}, OnPath certs visiting root → SupportOk certs cache →
      SupportOk certs (reachableAuthorsAtRound certs' round fuel visiting root cache).2 ∧
        AnswersAuthors certs round root
          (reachableAuthorsAtRound certs' round fuel visiting root cache).1
  | 0, _, _, _, _, hcache => ⟨hcache, nofun⟩
  | fuel + 1, visiting, root, cache, hpath, hcache => by
    unfold reachableAuthorsAtRound
    rcases hhit : cache.lookup (root, round) with _ | authors
    · simp only [if_neg (hpath.root_notMem ha)]
      rcases hc : certs'.lookup root with _ | c
      · exact ⟨hcache, nofun⟩
      have hmet := metAuthor_iff round (hsub root c hc)
      simp only []
      rcases lt_trichotomy c.round round with hlt | heq | hgt
      · rw [if_neg hlt.ne, if_neg hlt.asymm]
        refine answer_kept hcache fun a => ?_
        simp [hmet, hlt.ne, hlt.asymm]
      · rw [if_pos heq]
        refine answer_kept hcache fun a => ?_
        simp [hmet, heq, eq_comm]
      · rw [if_neg hgt.ne', if_pos hgt]
        have hparents := reachParents_answers (allParents c)
          (fun p hp cache hcache => reachableAuthorsAtRound_answers round hsub ha fuel
            (hpath.insert (hsub root c hc) hp) hcache) ∅ hcache
        rcases hres : reachParents
            (reachableAuthorsAtRound certs' round fuel (insert root visiting)) (allParents c) ∅
            cache with ⟨_ | authors, cache'⟩ <;> rw [hres] at hparents
        · exact ⟨hparents.1, nofun⟩
        · refine answer_kept hparents.1 fun a => ?_
          simp [hparents.2 authors rfl, hmet, hgt, hgt.ne']
    · have hanswer := hcache root round
      rw [hhit] at hanswer
      exact ⟨hcache, hanswer⟩

/-! ### Every query is answered -/

theorem reachParents_isSome
    {query : Digest → SupportCache → Option (Finset PublicKey) × SupportCache}
    (parents : List Digest) (hq : ∀ p ∈ parents, ∀ cache, (query p cache).1.isSome) :
    ∀ authors cache, (reachParents query parents authors cache).1.isSome := by
  induction parents with
  | nil => exact fun _ _ => rfl
  | cons p parents ih =>
    intro authors cache
    obtain ⟨hp, hparents⟩ := List.forall_mem_cons.1 hq
    have hsome := hp cache
    unfold reachParents
    rcases hres : query p cache with ⟨_ | parentAuthors, cache'⟩
    · rw [hres] at hsome
      exact absurd hsome (by simp)
    · exact ih hparents _ _

/-- On a path the digests are indexed, so that the fuel is not used up. -/
def Fueled (certs : FinMap Digest Certificate) (fuel : ℕ) (visiting : Finset Digest) : Prop :=
  (∀ v ∈ visiting, (certs.lookup v).isSome) ∧ certs.entries.length + 2 ≤ fuel + visiting.card

theorem fueled_empty : Fueled certs (certs.entries.length + 2) ∅ :=
  ⟨fun v hv => absurd hv (Finset.notMem_empty v), by simp⟩

theorem Fueled.pos {fuel : ℕ} (h : Fueled certs fuel visiting) : fuel ≠ 0 := by
  rintro rfl
  have hcard : visiting.card ≤ certs.keys.toFinset.card :=
    Finset.card_le_card fun v hv => List.mem_toFinset.2
      (FinMap.mem_keys_iff.2 (Option.isSome_iff_exists.1 (h.1 v hv)))
  have hkeys := List.toFinset_card_le certs.keys
  have hlen : certs.keys.length = certs.entries.length := by simp [AList.keys, List.keys]
  have := h.2
  omega

theorem Fueled.insert {fuel : ℕ} (h : Fueled certs (fuel + 1) visiting)
    (hroot : (certs.lookup root).isSome) (hnew : root ∉ visiting) :
    Fueled certs fuel (insert root visiting) := by
  refine ⟨fun v hv => ?_, ?_⟩
  · rcases Finset.mem_insert.1 hv with rfl | hv
    · exact hroot
    · exact h.1 v hv
  · have := h.2
    rw [Finset.card_insert_of_notMem hnew]
    omega

theorem reachableAuthorsAtRound_isSome (round : ℕ) (h : History certs) : ∀ (fuel : ℕ)
    {visiting : Finset Digest} {root : Digest} (cache : SupportCache),
    OnPath certs visiting root → Fueled certs fuel visiting → (certs.lookup root).isSome →
      (reachableAuthorsAtRound certs round fuel visiting root cache).1.isSome
  | 0, _, _, _, _, hfuel, _ => absurd rfl hfuel.pos
  | fuel + 1, visiting, root, cache, hpath, hfuel, hroot => by
    unfold reachableAuthorsAtRound
    rcases hhit : cache.lookup (root, round) with _ | authors
    · have hnew := hpath.root_notMem h.acyclic
      obtain ⟨c, hc⟩ := Option.isSome_iff_exists.1 hroot
      simp only [if_neg hnew, hc]
      split_ifs with heq hgt
      · rfl
      · have hparents := reachParents_isSome (allParents c) (fun p hp cache =>
          reachableAuthorsAtRound_isSome round h fuel cache (hpath.insert hc hp)
            (hfuel.insert hroot hnew) (h.closed root c hc p hp)) ∅ cache
        rcases hres : reachParents
            (reachableAuthorsAtRound certs round fuel (Insert.insert root visiting)) (allParents c) ∅
            cache with ⟨_ | authors, cache'⟩
        · rw [hres] at hparents
          exact absurd hparents (by simp)
        · rfl
      · rfl
    · rfl

section Roots

variable [Crypto]

/-- A query on a part of the index keeps the cache right for the whole. -/
theorem authorsFromRoots_ok {certs' : FinMap Digest Certificate}
    (hsub : ∀ x c, certs'.lookup x = some c → certs.lookup x = some c)
    (ha : Acyclic (Refers certs)) : ∀ (roots : List Certificate) (authors : Finset PublicKey)
    {cache : SupportCache}, SupportOk certs cache →
      SupportOk certs (authorsFromRoots certs' round roots authors cache).2
  | [], _, _, hcache => hcache
  | root :: roots, authors, cache, hcache => by
    have hpath : OnPath certs ∅ root.digest := onPath_empty
    have hanswer := (reachableAuthorsAtRound_answers round hsub ha (certs'.entries.length + 2)
      hpath hcache).1
    unfold authorsFromRoots
    exact authorsFromRoots_ok hsub ha roots _ hanswer

/-- The authors of the roots are put together. -/
theorem mem_authorsFromRoots (h : History certs) : ∀ (roots : List Certificate)
    (authors : Finset PublicKey) {cache : SupportCache},
    (∀ root ∈ roots, (certs.lookup root.digest).isSome) → SupportOk certs cache →
      ∀ a, a ∈ (authorsFromRoots certs round roots authors cache).1 ↔
        a ∈ authors ∨ ∃ root ∈ roots, MetAuthor certs round root.digest a
  | [], authors, _, _, _, a => by simp [authorsFromRoots]
  | root :: roots, authors, cache, hroots, hcache, a => by
    obtain ⟨hroot, hroots⟩ := List.forall_mem_cons.1 hroots
    have hpath : OnPath certs ∅ root.digest := onPath_empty
    obtain ⟨hcache', hanswer⟩ := reachableAuthorsAtRound_answers round (fun _ _ hc => hc) h.acyclic
      (certs.entries.length + 2) hpath hcache
    have hsome := reachableAuthorsAtRound_isSome round h _ cache hpath fueled_empty hroot
    unfold authorsFromRoots
    rcases hres : reachableAuthorsAtRound certs round (certs.entries.length + 2) ∅ root.digest cache
      with ⟨_ | A, cache'⟩ <;> rw [hres] at hcache' hanswer hsome
    · exact absurd hsome (by simp)
    · simp only [Option.getD_some, mem_authorsFromRoots h roots (authors ∪ A) hroots hcache' a,
        Finset.mem_union, hanswer A rfl a, or_assoc, List.exists_mem_cons_iff]

end Roots

end Authors

/-! ## A header of a history -/

section Headers

/-- The certificate is of the header wanted. -/
abbrev Wanted (id : Digest) (origin : PublicKey) (round : ℕ) (c : Certificate) : Prop :=
  c.header.id = id ∧ c.origin = origin ∧ c.round = round

variable (certs : FinMap Digest Certificate) (id : Digest) (origin : PublicKey) (round : ℕ)
  (start : IdCache)

/-- The query goes on to the references: without an entry, not wanted, and not of a lower round. -/
def Open (x : Digest) : Prop :=
  start.lookup (x, id) = none ∧
    ∃ c, certs.lookup x = some c ∧ ¬ Wanted id origin round c ∧ round ≤ c.round

/-- The query ends with success. -/
def Hit (x : Digest) : Prop :=
  start.lookup (x, id) = some true ∨
    start.lookup (x, id) = none ∧ ∃ c, certs.lookup x = some c ∧ Wanted id origin round c

/-- A hit is met from the root. -/
def Finds (root : Digest) : Prop :=
  LeadsTo (Refers certs) (Open certs id origin round start) (Hit certs id origin round start) root

/-- An answer, if there is one, says whether a hit is met. -/
def AnswersFinds (root : Digest) (contains : Option Bool) : Prop :=
  ∀ b, contains = some b → (b = true ↔ Finds certs id origin round start root)

/-- The cache in the course of a query: its entries for the header are right as to the cache at the
start, which it extends. -/
def IdCacheOk (cache : IdCache) : Prop :=
  ∀ x, AnswersFinds certs id origin round start x (cache.lookup (x, id)) ∧
    (cache.lookup (x, id) = none → start.lookup (x, id) = none)

variable {certs id origin round start} {visiting : Finset Digest} {root : Digest} {cache : IdCache}

theorem idCacheOk_start : IdCacheOk certs id origin round start start := by
  refine fun x => ⟨fun b hb => ?_, fun h => h⟩
  have hopen : ¬ Open certs id origin round start x := fun h => by simpa [hb] using h.1
  rw [Finds, leadsTo_of_not_go hopen]
  simp [Hit, hb]

theorem finds_iff (origin : PublicKey) (round : ℕ) {c : Certificate}
    (hnone : start.lookup (root, id) = none)
    (hc : certs.lookup root = some c) : Finds certs id origin round start root ↔
      Wanted id origin round c ∨ ¬ Wanted id origin round c ∧ round ≤ c.round ∧
        ∃ p ∈ allParents c, Finds certs id origin round start p := by
  unfold Finds
  rw [leadsTo_iff]
  unfold Open Hit Refers
  simp only [hnone, hc, Option.some.injEq, exists_eq_left', true_and, reduceCtorEq, false_or,
    and_assoc]

theorem contains_kept {contains : Bool} (hcache : IdCacheOk certs id origin round start cache)
    (hfinds : contains = true ↔ Finds certs id origin round start root) :
    IdCacheOk certs id origin round start (cache.insert (root, id) contains) ∧
      AnswersFinds certs id origin round start root (some contains) := by
  have hanswer : AnswersFinds certs id origin round start root (some contains) := by
    rintro b hb
    obtain rfl := Option.some.inj hb
    exact hfinds
  refine ⟨fun x => ?_, hanswer⟩
  rw [FinMap.lookup_insert_ite]
  split_ifs with h
  · obtain ⟨rfl, -⟩ := Prod.mk.inj h
    exact ⟨hanswer, nofun⟩
  · exact hcache x

/-- The parents are asked up to the first from which a hit is met. -/
theorem searchParents_answers {query : Digest → IdCache → Option Bool × IdCache}
    (parents : List Digest) (hq : ∀ p ∈ parents, ∀ cache,
      IdCacheOk certs id origin round start cache →
        IdCacheOk certs id origin round start (query p cache).2 ∧
          AnswersFinds certs id origin round start p (query p cache).1) :
    ∀ {cache : IdCache}, IdCacheOk certs id origin round start cache →
      IdCacheOk certs id origin round start (searchParents query parents cache).2 ∧
        ∀ b, (searchParents query parents cache).1 = some b →
          (b = true ↔ ∃ p ∈ parents, Finds certs id origin round start p) := by
  induction parents with
  | nil =>
    intro cache hcache
    refine ⟨hcache, fun b hb => ?_⟩
    obtain rfl := Option.some.inj hb
    simp
  | cons p parents ih =>
    intro cache hcache
    obtain ⟨hp, hparents⟩ := List.forall_mem_cons.1 hq
    obtain ⟨hcache', hanswer⟩ := hp cache hcache
    unfold searchParents
    rcases hres : query p cache with ⟨_ | _ | _, cache'⟩ <;> rw [hres] at hcache' hanswer
    · exact ⟨hcache', nofun⟩
    · obtain ⟨hend, hb⟩ := ih hparents hcache'
      have hnot : ¬ Finds certs id origin round start p := by simpa using hanswer _ rfl
      refine ⟨hend, fun b h => (hb b h).trans ?_⟩
      simp [hnot]
    · have hfinds : Finds certs id origin round start p := by simpa using hanswer _ rfl
      refine ⟨hcache', fun b hb => ?_⟩
      obtain rfl := Option.some.inj hb
      simp [hfinds]

theorem searchParents_isSome {query : Digest → IdCache → Option Bool × IdCache}
    (parents : List Digest) (hq : ∀ p ∈ parents, ∀ cache, (query p cache).1.isSome) :
    ∀ cache, (searchParents query parents cache).1.isSome := by
  induction parents with
  | nil => exact fun _ => rfl
  | cons p parents ih =>
    intro cache
    obtain ⟨hp, hparents⟩ := List.forall_mem_cons.1 hq
    have hsome := hp cache
    unfold searchParents
    rcases hres : query p cache with ⟨_ | _ | _, cache'⟩ <;> rw [hres] at hsome
    · exact absurd hsome (by simp)
    · exact ih hparents _
    · rfl

theorem historyContainsHeaderFromRoot_answers (h : History certs) : ∀ (fuel : ℕ)
    {visiting : Finset Digest} {root : Digest} {cache : IdCache}, OnPath certs visiting root →
      IdCacheOk certs id origin round start cache →
      IdCacheOk certs id origin round start
          (historyContainsHeaderFromRoot certs id origin round fuel visiting root cache).2 ∧
        AnswersFinds certs id origin round start root
          (historyContainsHeaderFromRoot certs id origin round fuel visiting root cache).1
  | 0, _, _, _, _, hcache => ⟨hcache, nofun⟩
  | fuel + 1, visiting, root, cache, hpath, hcache => by
    unfold historyContainsHeaderFromRoot
    rcases hhit : cache.lookup (root, id) with _ | contains
    · simp only [if_neg (hpath.root_notMem h.acyclic)]
      rcases hc : certs.lookup root with _ | c
      · exact ⟨hcache, nofun⟩
      have hfinds := finds_iff origin round ((hcache root).2 hhit) hc
      simp only []
      by_cases hwanted : Wanted id origin round c
      · rw [if_pos hwanted]
        exact contains_kept hcache (iff_of_true rfl (hfinds.2 (.inl hwanted)))
      · rw [if_neg hwanted]
        by_cases hlow : c.round < round
        · rw [if_pos hlow]
          refine contains_kept hcache ?_
          simp [hfinds, hwanted, hlow]
        · rw [if_neg hlow]
          have hparents := searchParents_answers (allParents c)
            (fun p hp cache hcache => historyContainsHeaderFromRoot_answers h fuel
              (hpath.insert hc hp) hcache) hcache
          rcases hres : searchParents
              (historyContainsHeaderFromRoot certs id origin round fuel (insert root visiting))
              (allParents c) cache with ⟨_ | contains, cache'⟩ <;> rw [hres] at hparents
          · exact ⟨hparents.1, nofun⟩
          · refine contains_kept hparents.1 ?_
            simp [hparents.2 contains rfl, hfinds, hwanted, not_lt.1 hlow]
    · have hanswer := (hcache root).1
      rw [hhit] at hanswer
      exact ⟨hcache, hanswer⟩

theorem historyContainsHeaderFromRoot_isSome (h : History certs) : ∀ (fuel : ℕ)
    {visiting : Finset Digest} {root : Digest} (cache : IdCache), OnPath certs visiting root →
      Fueled certs fuel visiting → (certs.lookup root).isSome →
      (historyContainsHeaderFromRoot certs id origin round fuel visiting root cache).1.isSome
  | 0, _, _, _, _, hfuel, _ => absurd rfl hfuel.pos
  | fuel + 1, visiting, root, cache, hpath, hfuel, hroot => by
    unfold historyContainsHeaderFromRoot
    rcases hhit : cache.lookup (root, id) with _ | contains
    · have hnew := hpath.root_notMem h.acyclic
      obtain ⟨c, hc⟩ := Option.isSome_iff_exists.1 hroot
      simp only [if_neg hnew, hc]
      split_ifs with hwanted hlow
      · rfl
      · rfl
      · have hparents := searchParents_isSome (allParents c) (fun p hp cache =>
          historyContainsHeaderFromRoot_isSome h fuel cache (hpath.insert hc hp)
            (hfuel.insert hroot hnew)
            (h.closed root c hc p hp)) cache
        rcases hres : searchParents
            (historyContainsHeaderFromRoot certs id origin round fuel (Insert.insert root visiting))
            (allParents c) cache with ⟨_ | contains, cache'⟩
        · rw [hres] at hparents
          exact absurd hparents (by simp)
        · rfl
    · rfl

/-- The roots are asked up to the first from which a hit is met. -/
theorem containsFromRoots_eq_true [Crypto] (h : History certs) : ∀ (roots : List Certificate)
    {cache : IdCache}, (∀ root ∈ roots, (certs.lookup root.digest).isSome) →
      IdCacheOk certs id origin round start cache →
      ((containsFromRoots certs id origin round roots cache).1 = true ↔
        ∃ root ∈ roots, Finds certs id origin round start root.digest)
  | [], _, _, _ => by simp [containsFromRoots]
  | root :: roots, cache, hroots, hcache => by
    obtain ⟨hroot, hroots⟩ := List.forall_mem_cons.1 hroots
    have hpath : OnPath certs ∅ root.digest := onPath_empty
    obtain ⟨hcache', hanswer⟩ := historyContainsHeaderFromRoot_answers h
      (certs.entries.length + 2) hpath hcache
    have hsome : (historyContainsHeaderFromRoot certs id origin round
        (certs.entries.length + 2) ∅ root.digest cache).1.isSome :=
      historyContainsHeaderFromRoot_isSome h _ cache hpath fueled_empty hroot
    have hrest := containsFromRoots_eq_true h roots hroots hcache'
    unfold containsFromRoots
    rcases hres : historyContainsHeaderFromRoot certs id origin round (certs.entries.length + 2) ∅
        root.digest cache with ⟨_ | _ | _, cache'⟩ <;> rw [hres] at hanswer hsome hrest
    · exact absurd hsome (by simp)
    · have hnot : ¬ Finds certs id origin round start root.digest := by simpa using hanswer _ rfl
      simp [hrest, hnot]
    · have hfinds : Finds certs id origin round start root.digest := by simpa using hanswer _ rfl
      simp [hfinds]

end Headers

/-! ## Queries from roots -/

section Queries

variable [Crypto]

/-- The certificates reached from the roots, these included. -/
def Reachable (certs : FinMap Digest Certificate) (roots : List Certificate) (c : Certificate) :
    Prop :=
  ∃ root ∈ roots, ∃ x, Relation.ReflTransGen (Refers certs) root.digest x ∧
    certs.lookup x = some c

/-- The caches after queries on states whose index, with the roots, was a part of the certificates. -/
inductive Queried (certs : FinMap Digest Certificate) : SupportCache → IdCache → Prop
  | empty : Queried certs ∅ ∅
  | authors (s : Core) (roots : List Certificate) (round : ℕ)
      (hsub : ∀ x c, (s.indexRoots roots).certificatesByDigest.lookup x = some c →
        certs.lookup x = some c) (h : Queried certs s.historySupportCache s.historyIdCache) :
      Queried certs (s.historyAuthorsAtRoundFromRoots roots round).2.historySupportCache
        (s.historyAuthorsAtRoundFromRoots roots round).2.historyIdCache
  | header (s : Core) (roots : List Certificate) (id : Digest) (origin : PublicKey) (round : ℕ)
      (hsub : ∀ x c, (s.indexRoots roots).certificatesByDigest.lookup x = some c →
        certs.lookup x = some c) (h : Queried certs s.historySupportCache s.historyIdCache) :
      Queried certs (s.historyContainsHeaderFromRoots roots id origin round).2.historySupportCache
        (s.historyContainsHeaderFromRoots roots id origin round).2.historyIdCache

theorem indexRoots_historySupportCache (s : Core) (roots : List Certificate) :
    (s.indexRoots roots).historySupportCache = s.historySupportCache := by
  induction roots generalizing s with
  | nil => rfl
  | cons root roots ih => exact ih _

theorem indexRoots_historyIdCache (s : Core) (roots : List Certificate) :
    (s.indexRoots roots).historyIdCache = s.historyIdCache := by
  induction roots generalizing s with
  | nil => rfl
  | cons root roots ih => exact ih _

theorem historyContainsHeaderFromRoots_historySupportCache (s : Core) (roots : List Certificate)
    (id : Digest) (origin : PublicKey) (round : ℕ) :
    (s.historyContainsHeaderFromRoots roots id origin round).2.historySupportCache =
      s.historySupportCache := by
  unfold historyContainsHeaderFromRoots
  dsimp only
  split_ifs
  · exact indexRoots_historySupportCache s roots
  · exact indexRoots_historySupportCache s roots

/-- A query indexes its roots and no more. -/
theorem historyAuthorsAtRoundFromRoots_certificatesByDigest (s : Core) (roots : List Certificate)
    (round : ℕ) : (s.historyAuthorsAtRoundFromRoots roots round).2.certificatesByDigest =
      (s.indexRoots roots).certificatesByDigest := rfl

theorem historyContainsHeaderFromRoots_certificatesByDigest (s : Core) (roots : List Certificate)
    (id : Digest) (origin : PublicKey) (round : ℕ) :
    (s.historyContainsHeaderFromRoots roots id origin round).2.certificatesByDigest =
      (s.indexRoots roots).certificatesByDigest := by
  unfold historyContainsHeaderFromRoots
  dsimp only
  split_ifs <;> rfl

/-- Queries leave the authors met. -/
theorem Queried.supportOk {certs : FinMap Digest Certificate} {supports : SupportCache}
    {ids : IdCache} (ha : Acyclic (Refers certs)) (h : Queried certs supports ids) :
    SupportOk certs supports := by
  induction h with
  | empty => exact fun _ _ => nofun
  | authors s roots round hsub _ ih =>
    unfold historyAuthorsAtRoundFromRoots
    rw [← indexRoots_historySupportCache s roots] at ih
    exact authorsFromRoots_ok hsub ha roots ∅ ih
  | header s roots id origin round _ _ ih =>
    rwa [historyContainsHeaderFromRoots_historySupportCache]

variable (s : Core) (roots : List Certificate)

/-- The authors of the round are those of the certificates reached. -/
def ExactAuthors (round : ℕ) : Prop :=
  ∀ a, a ∈ (s.historyAuthorsAtRoundFromRoots roots round).1 ↔
    ∃ c, Reachable (s.indexRoots roots).certificatesByDigest roots c ∧ c.round = round ∧ c.origin = a

/-- The history has the header if a certificate of it is reached. -/
def ExactHeader (id : Digest) (origin : PublicKey) (round : ℕ) : Prop :=
  (s.historyContainsHeaderFromRoots roots id origin round).1 = true ↔
    ∃ c, Reachable (s.indexRoots roots).certificatesByDigest roots c ∧ Wanted id origin round c

/-- Every author of the round is met from a root through higher rounds. -/
def AuthorsMet (round : ℕ) : Prop :=
  ∀ c, Reachable (s.indexRoots roots).certificatesByDigest roots c → c.round = round →
    ∃ root ∈ roots, MetAuthor (s.indexRoots roots).certificatesByDigest round root.digest c.origin

/-- A root is the header if it can be reached, or a hit is met from a root; and an entry that says
so is met only if it can be reached. -/
def HeaderMet (id : Digest) (origin : PublicKey) (round : ℕ) : Prop :=
  let certs := (s.indexRoots roots).certificatesByDigest
  (∀ c, Reachable certs roots c → Wanted id origin round c →
    (∃ root ∈ roots, Wanted id origin round root) ∨
      ∃ root ∈ roots, Finds certs id origin round s.historyIdCache root.digest) ∧
  ∀ root ∈ roots, ∀ x, Relation.ReflTransGen
    (fun x y => Open certs id origin round s.historyIdCache x ∧ Refers certs x y) root.digest x →
    s.historyIdCache.lookup (x, id) = some true →
      ∃ c, Reachable certs roots c ∧ Wanted id origin round c

/-- The index holds the roots, and all that they refer to, without cycles. -/
structure Indexed : Prop where
  history : History (s.indexRoots roots).certificatesByDigest
  roots : ∀ root ∈ roots, (s.indexRoots roots).certificatesByDigest.lookup root.digest = some root

variable {s roots}

theorem Indexed.isSome (h : Indexed s roots) : ∀ root ∈ roots,
    ((s.indexRoots roots).certificatesByDigest.lookup root.digest).isSome := fun root hroot => by
  rw [h.roots root hroot]
  rfl

/-- Without an author, no certificate of the round is reached. -/
theorem ExactAuthors.not_reachable {c : Certificate} {round : ℕ} (h : ExactAuthors s roots round)
    (hempty : (s.historyAuthorsAtRoundFromRoots roots round).1 = ∅) (hround : c.round = round) :
    ¬ Reachable (s.indexRoots roots).certificatesByDigest roots c := fun hc => by
  have hmem := (h c.origin).2 ⟨c, hc, hround, rfl⟩
  rw [hempty] at hmem
  exact Finset.notMem_empty _ hmem

theorem mem_historyAuthorsAtRoundFromRoots (h : Indexed s roots)
    (hq : Queried (s.indexRoots roots).certificatesByDigest s.historySupportCache s.historyIdCache)
    (round : ℕ) (a : PublicKey) : a ∈ (s.historyAuthorsAtRoundFromRoots roots round).1 ↔
      ∃ root ∈ roots, MetAuthor (s.indexRoots roots).certificatesByDigest round root.digest a := by
  have hok := hq.supportOk h.history.acyclic
  rw [← indexRoots_historySupportCache s roots] at hok
  unfold historyAuthorsAtRoundFromRoots
  simp [mem_authorsFromRoots h.history roots ∅ h.isSome hok a]

theorem historyContainsHeaderFromRoots_eq_true (h : Indexed s roots) (id : Digest)
    (origin : PublicKey) (round : ℕ) :
    (s.historyContainsHeaderFromRoots roots id origin round).1 = true ↔
      (∃ root ∈ roots, Wanted id origin round root) ∨ ∃ root ∈ roots,
        Finds (s.indexRoots roots).certificatesByDigest id origin round s.historyIdCache
          root.digest := by
  have hany : (roots.any fun root =>
      decide (root.header.id = id ∧ root.origin = origin ∧ root.round = round)) = true ↔
      ∃ root ∈ roots, Wanted id origin round root := by simp [Wanted]
  unfold historyContainsHeaderFromRoots
  dsimp only
  split_ifs with hroot
  · exact iff_of_true rfl (.inl (hany.1 hroot))
  · rw [← hany, or_iff_right hroot, indexRoots_historyIdCache]
    exact containsFromRoots_eq_true h.history roots h.isSome idCacheOk_start

/-- Both queries answer what is reached exactly when nothing wanted is hidden below a lower round, or
by an entry. -/
theorem history_queries_exact_iff (h : Indexed s roots)
    (hq : Queried (s.indexRoots roots).certificatesByDigest s.historySupportCache s.historyIdCache)
    (round : ℕ) (id : Digest) (origin : PublicKey) (headerRound : ℕ) :
    (ExactAuthors s roots round ∧ ExactHeader s roots id origin headerRound) ↔
      (AuthorsMet s roots round ∧ HeaderMet s roots id origin headerRound) := by
  refine and_congr ?_ ?_
  · unfold ExactAuthors AuthorsMet
    simp only [mem_historyAuthorsAtRoundFromRoots h hq]
    constructor
    · intro hexact c hc hround
      exact (hexact c.origin).2 ⟨c, hc, hround, rfl⟩
    · refine fun hmet a => ⟨?_, fun ⟨c, hc, hround, horigin⟩ => horigin ▸ hmet c hc hround⟩
      rintro ⟨root, hroot, hlead⟩
      obtain ⟨x, hx, c, hc, hround, horigin⟩ := LeadsTo.reaches hlead
      exact ⟨c, ⟨root, hroot, x, hx, hc⟩, hround, horigin⟩
  · unfold ExactHeader HeaderMet
    rw [historyContainsHeaderFromRoots_eq_true h]
    constructor
    · intro hexact
      refine ⟨fun c hc hwanted => hexact.2 ⟨c, hc, hwanted⟩, fun root hroot x hx hentry => ?_⟩
      exact hexact.1 (.inr ⟨root, hroot, x, hx, .inl hentry⟩)
    · rintro ⟨hmet, hentries⟩
      refine ⟨?_, fun ⟨c, hc, hwanted⟩ => hmet c hc hwanted⟩
      rintro (⟨root, hroot, hwanted⟩ | ⟨root, hroot, x, hx, hentry | ⟨-, c, hc, hwanted⟩⟩)
      · exact ⟨root, ⟨root, hroot, root.digest, .refl, h.roots root hroot⟩, hwanted⟩
      · exact hentries root hroot x hx hentry
      · have hpath := Relation.ReflTransGen.mono (fun _ _ h => h.2) _ _ hx
        exact ⟨c, ⟨root, hroot, x, hpath, hc⟩, hwanted⟩

end Queries

/-! ## A reference to a round above -/

section Index

variable {certs : FinMap Digest Certificate} {d x y : Digest} {c : Certificate}

theorem refers_insert : Refers (certs.insert d c) x y ↔
    x = d ∧ y ∈ allParents c ∨ x ≠ d ∧ Refers certs x y := by
  unfold Refers
  rw [FinMap.lookup_insert_ite]
  split_ifs with h <;> simp [h]

/-- Below what is indexed, nothing has changed. -/
theorem History.transGen_insert (h : History certs) (hnew : certs.lookup d = none)
    (hx : (certs.lookup x).isSome) (hpath : Relation.TransGen (Refers (certs.insert d c)) x y) :
    Relation.TransGen (Refers certs) x y ∧ (certs.lookup y).isSome := by
  have hstep : ∀ {x y}, (certs.lookup x).isSome → Refers (certs.insert d c) x y →
      Refers certs x y ∧ (certs.lookup y).isSome := by
    intro x y hx hedge
    rcases refers_insert.1 hedge with ⟨rfl, -⟩ | ⟨-, c, hc, hy⟩
    · simp [hnew] at hx
    · exact ⟨⟨c, hc, hy⟩, h.closed x c hc y hy⟩
  induction hpath with
  | single hedge =>
    obtain ⟨hedge, hy⟩ := hstep hx hedge
    exact ⟨.single hedge, hy⟩
  | tail _ hedge ih =>
    obtain ⟨hedge, hy⟩ := hstep ih.2 hedge
    exact ⟨ih.1.tail hedge, hy⟩

/-- A new certificate is indexed after its parents. -/
theorem History.insert (h : History certs) (hnew : certs.lookup d = none)
    (hparents : ∀ p ∈ allParents c, (certs.lookup p).isSome) : History (certs.insert d c) where
  closed := by
    intro x c' hc p hp
    have hold : (certs.lookup p).isSome := by
      rw [FinMap.lookup_insert_ite] at hc
      split_ifs at hc with hx
      · obtain rfl := Option.some.inj hc
        exact hparents p hp
      · exact h.closed x c' hc p hp
    rw [FinMap.lookup_insert_ite]
    split_ifs
    · rfl
    · exact hold
  acyclic := by
    intro x hcycle
    obtain ⟨y, hedge, hrest⟩ := Relation.TransGen.head'_iff.1 hcycle
    rcases refers_insert.1 hedge with ⟨rfl, hy⟩ | ⟨-, c', hc, -⟩
    · have hsome := hparents y hy
      rcases Relation.reflTransGen_iff_eq_or_transGen.1 hrest with rfl | hrest
      · simp [hnew] at hsome
      · simpa [hnew] using (h.transGen_insert hnew hsome hrest).2
    · exact h.acyclic x (h.transGen_insert hnew (by rw [hc]; rfl) hcycle).1

theorem history_empty : History ∅ := by
  refine ⟨fun x c hc => by simp at hc, fun x hcycle => ?_⟩
  obtain ⟨y, ⟨c, hc, -⟩, -⟩ := Relation.TransGen.head'_iff.1 hcycle
  exact nomatch hc

variable [Crypto]

/-- Each certificate is new, and comes after its parents. -/
def InOrder (s : Core) : List Certificate → Prop
  | [] => True
  | root :: roots => s.certificatesByDigest.lookup root.digest = none ∧
      (∀ p ∈ allParents root, (s.certificatesByDigest.lookup p).isSome) ∧
      InOrder (s.indexCertificate root) roots

instance decidableInOrder (s : Core) : (roots : List Certificate) → Decidable (InOrder s roots)
  | [] => inferInstanceAs (Decidable True)
  | root :: roots =>
    have := decidableInOrder (s.indexCertificate root) roots
    inferInstanceAs (Decidable (_ ∧ _ ∧ InOrder (s.indexCertificate root) roots))

theorem History.indexRoots {s : Core} (h : History s.certificatesByDigest)
    {roots : List Certificate} (horder : InOrder s roots) :
    History (s.indexRoots roots).certificatesByDigest := by
  induction roots generalizing s with
  | nil => exact h
  | cons root roots ih =>
    obtain ⟨hnew, hparents, horder⟩ := horder
    exact ih (h.insert hnew hparents) horder

/-- A block of round 2, and a block of round 1 that refers to it. -/
def highBlock : Certificate :=
  let header : Header :=
    { author := 1, round := 2
      parents := SortedSet.ofList ((Certificate.genesis (.uniform 4)).map Certificate.digest) }
  { header := { header with id := header.digest } }

def carrierBlock : Certificate :=
  let header : Header :=
    { author := 0, round := 1, parents := SortedSet.ofList [highBlock.digest] }
  { header := { header with id := header.digest } }

/-- The block of round 2 is indexed. -/
def highIndex : Core := indexRoots {} (Certificate.genesis (.uniform 4) ++ [highBlock])

end Index

section RefAbove

theorem highIndex_indexed : letI := toyCrypto
    Indexed highIndex [carrierBlock] := by
  let _ := toyCrypto
  have horder : InOrder {} (Certificate.genesis (.uniform 4) ++ [highBlock, carrierBlock]) := by
    decide +kernel
  have hindex : highIndex.indexRoots [carrierBlock] =
      indexRoots {} (Certificate.genesis (.uniform 4) ++ [highBlock, carrierBlock]) := by
    simp [highIndex, indexRoots]
  refine ⟨?_, fun root hroot => ?_⟩
  · rw [hindex]
    exact history_empty.indexRoots horder
  · obtain rfl := List.mem_singleton.1 hroot
    decide +kernel

theorem highIndex_queried : letI := toyCrypto
    Queried (highIndex.indexRoots [carrierBlock]).certificatesByDigest
      highIndex.historySupportCache highIndex.historyIdCache :=
  @Queried.empty toyCrypto _

theorem highBlock_reachable : letI := toyCrypto
    Reachable (highIndex.indexRoots [carrierBlock]).certificatesByDigest [carrierBlock]
      highBlock := by
  let _ := toyCrypto
  refine ⟨carrierBlock, List.mem_singleton_self _, highBlock.digest, .single ?_, by decide +kernel⟩
  exact ⟨carrierBlock, by decide +kernel, by decide +kernel⟩

/-- The query ends at the block of round 1. -/
theorem highBlock_missed : letI := toyCrypto
    ¬ ExactAuthors highIndex [carrierBlock] 2 := by
  let _ := toyCrypto
  exact fun hexact => hexact.not_reachable (by decide +kernel) (by decide +kernel)
    highBlock_reachable

theorem history_queries_not_exact : ¬ ∀ [Crypto] (s : Core) (roots : List Certificate)
    (round : ℕ) (id : Digest) (origin : PublicKey) (headerRound : ℕ), Indexed s roots →
    Queried (s.indexRoots roots).certificatesByDigest s.historySupportCache s.historyIdCache →
      ExactAuthors s roots round ∧ ExactHeader s roots id origin headerRound := fun hall =>
  highBlock_missed
    (@hall toyCrypto _ _ 2 0 0 0 highIndex_indexed highIndex_queried).1

end RefAbove

/-! ## A query after others -/

section UsedCaches

section Caches

variable [Crypto]

def onBlocks (author : PublicKey) (round : ℕ) (parents : List Digest) : Certificate :=
  let header : Header := { author, round, parents := SortedSet.ofList parents }
  { header := { header with id := header.digest } }

def baseBlock : Certificate :=
  onBlocks 1 1 ((Certificate.genesis (.uniform 4)).map Certificate.digest)

def stepBlock : Certificate := onBlocks 2 2 [baseBlock.digest]

def topBlock : Certificate := onBlocks 3 3 [stepBlock.digest]

/-- The authors of round 1 were asked for. -/
def authorsAsked : Core :=
  (historyAuthorsAtRoundFromRoots (indexRoots {} (Certificate.genesis (.uniform 4)))
    [baseBlock] 1).2

/-- Then it was asked whether the block of round 2 has that of round 1. -/
def headerAsked : Core :=
  (authorsAsked.historyContainsHeaderFromRoots [stepBlock] baseBlock.header.id 1 1).2

end Caches

/-- What the index of an earlier state holds, if it is small, can be looked up one by one. -/
theorem lookup_of_entries {certs certs' : FinMap Digest Certificate}
    (h : ∀ e ∈ certs.entries, certs'.lookup e.1 = some e.2) (x : Digest) (c : Certificate)
    (hc : certs.lookup x = some c) : certs'.lookup x = some c :=
  h ⟨x, c⟩ (FinMap.ext_lookup_iff.1 hc)

theorem headerAsked_indexed : letI := toyCrypto
    Indexed headerAsked [topBlock] := by
  let _ := toyCrypto
  have hgenesis : InOrder {} (Certificate.genesis (.uniform 4)) := by decide +kernel
  have hbase : InOrder (indexRoots {} (Certificate.genesis (.uniform 4))) [baseBlock] := by
    decide +kernel
  have hstep : InOrder authorsAsked [stepBlock] := by decide +kernel
  have htop : InOrder headerAsked [topBlock] := by decide +kernel
  have hauthors : History authorsAsked.certificatesByDigest := by
    rw [authorsAsked, historyAuthorsAtRoundFromRoots_certificatesByDigest]
    exact (history_empty.indexRoots hgenesis).indexRoots hbase
  have hheader : History headerAsked.certificatesByDigest := by
    rw [headerAsked, historyContainsHeaderFromRoots_certificatesByDigest]
    exact hauthors.indexRoots hstep
  refine ⟨hheader.indexRoots htop, fun root hroot => ?_⟩
  obtain rfl := List.mem_singleton.1 hroot
  decide +kernel

theorem headerAsked_queried : letI := toyCrypto
    Queried (headerAsked.indexRoots [topBlock]).certificatesByDigest
      headerAsked.historySupportCache headerAsked.historyIdCache := by
  let _ := toyCrypto
  have hempty : Queried (headerAsked.indexRoots [topBlock]).certificatesByDigest
      (indexRoots {} (Certificate.genesis (.uniform 4))).historySupportCache
      (indexRoots {} (Certificate.genesis (.uniform 4))).historyIdCache := by
    rw [indexRoots_historySupportCache, indexRoots_historyIdCache]
    exact .empty
  have hauthors : Queried (headerAsked.indexRoots [topBlock]).certificatesByDigest
      authorsAsked.historySupportCache authorsAsked.historyIdCache :=
    .authors _ [baseBlock] 1 (lookup_of_entries (by decide +kernel)) hempty
  have hsub : ∀ x c, (authorsAsked.indexRoots [stepBlock]).certificatesByDigest.lookup x = some c →
      (headerAsked.indexRoots [topBlock]).certificatesByDigest.lookup x = some c :=
    lookup_of_entries (by decide +kernel)
  have hheader := Queried.header authorsAsked [stepBlock] baseBlock.header.id 1 1 hsub hauthors
  rwa [← headerAsked] at hheader

theorem baseBlock_reachable : letI := toyCrypto
    Reachable (headerAsked.indexRoots [topBlock]).certificatesByDigest [topBlock] baseBlock := by
  let _ := toyCrypto
  have htop : Refers (headerAsked.indexRoots [topBlock]).certificatesByDigest topBlock.digest
      stepBlock.digest := ⟨topBlock, by decide +kernel, by decide +kernel⟩
  have hstep : Refers (headerAsked.indexRoots [topBlock]).certificatesByDigest stepBlock.digest
      baseBlock.digest := ⟨stepBlock, by decide +kernel, by decide +kernel⟩
  exact ⟨topBlock, List.mem_singleton_self _, baseBlock.digest, .tail (.single htop) hstep,
    by decide +kernel⟩

/-- With entries of earlier queries in both caches the answers are those of the graph. -/
theorem history_queries_exact_usedCaches : letI := toyCrypto
    headerAsked.historySupportCache.lookup (baseBlock.digest, 1) = some {1} ∧
      headerAsked.historyIdCache.lookup (stepBlock.digest, baseBlock.header.id) = some true ∧
      ExactAuthors headerAsked [topBlock] 1 ∧
      ExactHeader headerAsked [topBlock] baseBlock.header.id 1 1 := by
  let _ := toyCrypto
  have hauthors : (headerAsked.historyAuthorsAtRoundFromRoots [topBlock] 1).1 = {1} := by
    decide +kernel
  have hheader : (headerAsked.historyContainsHeaderFromRoots [topBlock] baseBlock.header.id 1 1).1 =
      true := by decide +kernel
  have hround : ∀ e ∈ (headerAsked.indexRoots [topBlock]).certificatesByDigest.entries,
      e.2.round = 1 → e.2.origin = 1 := by decide +kernel
  have hwanted : Wanted baseBlock.header.id 1 1 baseBlock := by decide +kernel
  have hexact := history_queries_exact_iff headerAsked_indexed headerAsked_queried 1
    baseBlock.header.id 1 1
  refine ⟨by decide +kernel, by decide +kernel, hexact.2 ⟨?_, ?_, ?_⟩⟩
  · rintro c ⟨_, _, x, _, hc⟩ hc'
    refine (mem_historyAuthorsAtRoundFromRoots headerAsked_indexed headerAsked_queried 1 _).1 ?_
    rw [hauthors, hround ⟨x, c⟩ (FinMap.ext_lookup_iff.1 hc) hc']
    exact Finset.mem_singleton_self _
  · exact fun _ _ _ =>
      (historyContainsHeaderFromRoots_eq_true headerAsked_indexed _ _ _).1 hheader
  · exact fun _ _ _ _ _ => ⟨baseBlock, baseBlock_reachable, hwanted⟩

end UsedCaches

end NovelDag.Core
