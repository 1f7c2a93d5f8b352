import NovelDag.Consensus
import NovelDag.Lib.SortedMap

/-!
# The threshold coin

How the coin of a round is recovered from shares. What reads and verifies a share and what combines
shares are parameters; the caches, which only give back what has been computed, are left out.
-/

namespace NovelDag

structure ThresholdCoin (Share : Type) where
  coinCommittee : CoinCommittee
  threshold : ℕ
  /-- The share that bytes hold, if it is one of the authority at an index for a round. -/
  verifyShare : ℕ → ℕ → List UInt8 → Option Share
  /-- The coin of the signature that shares of a round combine to, if it verifies. -/
  combine : ℕ → SortedMap ℕ Share → Option ℕ

namespace ThresholdCoin

variable {Share : Type} (coin : ThresholdCoin Share)

def authorityIndex (authority : PublicKey) : Option ℕ :=
  coin.coinCommittee.authorities.findIdx? fun a => decide (a = authority)

/-- The loop of `recover` over the shares. -/
def uniqueShares (round : ℕ) :
    List (PublicKey × List UInt8) → SortedMap ℕ Share → SortedMap ℕ Share
  | [], unique => unique
  | (authority, bytes) :: shares, unique =>
    match coin.authorityIndex authority with
    | none => uniqueShares round shares unique
    | some index =>
      if (unique.lookup index).isSome then uniqueShares round shares unique
      else match coin.verifyShare round index bytes with
        | none => uniqueShares round shares unique
        | some share =>
          if (unique.insert index share).keys.length = coin.threshold + 1 then
            unique.insert index share
          else uniqueShares round shares (unique.insert index share)

/-- Recover a coin from the first threshold+1 distinct valid shares. -/
def recover (round : ℕ) (shares : List (PublicKey × List UInt8)) : Option ℕ :=
  let unique := coin.uniqueShares round shares ∅
  if unique.keys.length < coin.threshold + 1 then none else coin.combine round unique

variable {coin} {round : ℕ}

theorem lookup_uniqueShares_of_lookup {index : ℕ} {share : Share} :
    ∀ (shares : List (PublicKey × List UInt8)) {unique : SortedMap ℕ Share},
      unique.lookup index = some share →
        (coin.uniqueShares round shares unique).lookup index = some share
  | [], _, h => h
  | (authority, bytes) :: shares, unique, h => by
    rw [uniqueShares]
    rcases coin.authorityIndex authority with _ | i
    · exact lookup_uniqueShares_of_lookup shares h
    · simp only
      split_ifs with hi
      · exact lookup_uniqueShares_of_lookup shares h
      · have hne : index ≠ i := by
          rintro rfl
          exact hi (by rw [h]; rfl)
        rcases coin.verifyShare round i bytes with _ | s
        · exact lookup_uniqueShares_of_lookup shares h
        · have h' : (unique.insert i s).lookup index = some share := by
            rw [SortedMap.lookup_insert, if_neg hne, h]
          simp only
          split_ifs
          · exact h'
          · exact lookup_uniqueShares_of_lookup shares h'

/-- What is collected is verified. -/
theorem lookup_uniqueShares {index : ℕ} {share : Share} :
    ∀ (shares : List (PublicKey × List UInt8)) {unique : SortedMap ℕ Share},
      (coin.uniqueShares round shares unique).lookup index = some share →
        unique.lookup index = some share ∨ ∃ authority bytes, (authority, bytes) ∈ shares ∧
          coin.authorityIndex authority = some index ∧
          coin.verifyShare round index bytes = some share
  | [], _, h => .inl h
  | (authority, bytes) :: shares, unique, h => by
    have tail : ∀ {u : SortedMap ℕ Share}, (coin.uniqueShares round shares u).lookup index =
        some share → u.lookup index = some share ∨ ∃ a b, (a, b) ∈ (authority, bytes) :: shares ∧
          coin.authorityIndex a = some index ∧ coin.verifyShare round index b = some share :=
      fun h => (lookup_uniqueShares shares h).imp_right
        fun ⟨a, b, hmem, h⟩ => ⟨a, b, List.mem_cons_of_mem _ hmem, h⟩
    rw [uniqueShares] at h
    rcases hi : coin.authorityIndex authority with _ | i
    · simp only [hi] at h
      exact tail h
    · simp only [hi] at h
      split_ifs at h with hmet
      · exact tail h
      · rcases hs : coin.verifyShare round i bytes with _ | s
        · simp only [hs] at h
          exact tail h
        · simp only [hs] at h
          have h' : (unique.insert i s).lookup index = some share ∨ ∃ a b,
              (a, b) ∈ (authority, bytes) :: shares ∧ coin.authorityIndex a = some index ∧
                coin.verifyShare round index b = some share := by
            split_ifs at h
            · exact .inl h
            · exact tail h
          refine h'.elim (fun hl => ?_) .inr
          rw [SortedMap.lookup_insert] at hl
          split_ifs at hl with hk
          · rw [Option.some.injEq] at hl
            exact .inr ⟨authority, bytes, List.mem_cons_self, hk ▸ hi, hk ▸ hl ▸ hs⟩
          · exact .inl hl

/-- Where too few shares are collected, no valid one is left out. -/
theorem mem_keys_uniqueShares {index : ℕ} {authority : PublicKey} {bytes : List UInt8}
    {share : Share} (hindex : coin.authorityIndex authority = some index)
    (hshare : coin.verifyShare round index bytes = some share) :
    ∀ (shares : List (PublicKey × List UInt8)) {unique : SortedMap ℕ Share},
      (coin.uniqueShares round shares unique).keys.length ≠ coin.threshold + 1 →
        (authority, bytes) ∈ shares → index ∈ (coin.uniqueShares round shares unique).keys
  | (a, b) :: shares, unique, hlength, hmem => by
    rw [uniqueShares] at hlength ⊢
    rcases hi : coin.authorityIndex a with _ | i
    · simp only [hi] at hlength ⊢
      refine mem_keys_uniqueShares hindex hshare shares hlength
        ((List.mem_cons.1 hmem).resolve_left ?_)
      rintro ⟨rfl, rfl⟩
      rw [hi] at hindex
      cases hindex
    · simp only [hi] at hlength ⊢
      split_ifs at hlength ⊢ with hmet
      · rcases List.mem_cons.1 hmem with heq | hmem
        · obtain ⟨rfl, rfl⟩ := Prod.mk.inj heq
          rw [hi] at hindex
          cases hindex
          obtain ⟨s, hs⟩ := Option.isSome_iff_exists.1 hmet
          exact SortedMap.mem_keys.2 ⟨s, lookup_uniqueShares_of_lookup shares hs⟩
        · exact mem_keys_uniqueShares hindex hshare shares hlength hmem
      · rcases hs : coin.verifyShare round i b with _ | s
        · simp only [hs] at hlength ⊢
          refine mem_keys_uniqueShares hindex hshare shares hlength
            ((List.mem_cons.1 hmem).resolve_left ?_)
          rintro ⟨rfl, rfl⟩
          rw [hi] at hindex
          cases hindex
          rw [hs] at hshare
          cases hshare
        · simp only [hs] at hlength ⊢
          split_ifs at hlength ⊢ with hfull
          · exact absurd hfull hlength
          · rcases List.mem_cons.1 hmem with heq | hmem
            · obtain ⟨rfl, rfl⟩ := Prod.mk.inj heq
              rw [hi] at hindex
              cases hindex
              refine SortedMap.mem_keys.2 ⟨s, lookup_uniqueShares_of_lookup shares ?_⟩
              rw [SortedMap.lookup_insert, if_pos rfl]
            · exact mem_keys_uniqueShares hindex hshare shares hlength hmem

/-- Shares that recover the coin do so with any others beside them, where shares that verify
combine. -/
theorem recover_mono (hcombine : ∀ round unique, coin.threshold + 1 ≤ unique.keys.length →
      (∀ index share, unique.lookup index = some share →
        ∃ bytes, coin.verifyShare round index bytes = some share) →
      (coin.combine round unique).isSome = true)
    {shares shares' : List (PublicKey × List UInt8)} (hsub : shares ⊆ shares')
    (h : (coin.recover round shares).isSome = true) :
    (coin.recover round shares').isSome = true := by
  have hvalid : ∀ (l : List (PublicKey × List UInt8)) index share,
      (coin.uniqueShares round l ∅).lookup index = some share → ∃ authority bytes,
        (authority, bytes) ∈ l ∧ coin.authorityIndex authority = some index ∧
          coin.verifyShare round index bytes = some share := fun l index share hl =>
    (lookup_uniqueShares l hl).resolve_left (by simp)
  rw [recover] at h ⊢
  split_ifs at h with hlt
  · cases h
  have hle : coin.threshold + 1 ≤ (coin.uniqueShares round shares' ∅).keys.length := by
    by_contra hlt'
    refine hlt ((List.Nodup.subperm (SortedMap.keys_nodup _) fun index hi => ?_).length_le.trans_lt
      (not_le.1 hlt'))
    obtain ⟨share, hl⟩ := SortedMap.mem_keys.1 hi
    obtain ⟨authority, bytes, hmem, hindex, hshare⟩ := hvalid shares index share hl
    exact mem_keys_uniqueShares hindex hshare shares' (not_le.1 hlt').ne (hsub hmem)
  rw [if_neg (not_lt.2 hle)]
  refine hcombine _ _ hle fun index share hl => ?_
  obtain ⟨_, bytes, -, -, hb⟩ := hvalid shares' index share hl
  exact ⟨bytes, hb⟩

end ThresholdCoin

end NovelDag
