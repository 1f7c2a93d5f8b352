import NovelDag.Lib.SortedSet

/-!
# Sorted maps

A finite map as its list of entries, keys strictly increasing, read in that order.
-/

/-- A list of entries whose keys strictly increase. -/
structure SortedMap (κ ν : Type*) [LinearOrder κ] where
  toList : List (κ × ν)
  sorted : toList.Pairwise fun a b => a.1 < b.1

namespace SortedMap

variable {κ ν : Type*} [LinearOrder κ]

theorem ext {m n : SortedMap κ ν} (h : m.toList = n.toList) : m = n := by
  cases m; cases n; cases h; rfl

instance [DecidableEq ν] : DecidableEq (SortedMap κ ν) := fun m n =>
  decidable_of_iff (m.toList = n.toList) ⟨ext, fun h => h ▸ rfl⟩

instance : EmptyCollection (SortedMap κ ν) := ⟨⟨[], List.Pairwise.nil⟩⟩

instance : Inhabited (SortedMap κ ν) := ⟨∅⟩

@[simp] theorem toList_empty : (∅ : SortedMap κ ν).toList = [] := rfl

/-- The keys, in increasing order. -/
def keys (m : SortedMap κ ν) : List κ := m.toList.map Prod.fst

/-- The values, in the order of their keys. -/
def values (m : SortedMap κ ν) : List ν := m.toList.map Prod.snd

theorem keys_sorted (m : SortedMap κ ν) : m.keys.Pairwise (· < ·) :=
  List.pairwise_map.2 m.sorted

theorem keys_nodup (m : SortedMap κ ν) : m.keys.Nodup := m.keys_sorted.imp fun h => ne_of_lt h

/-- The value at a key. -/
def lookup (m : SortedMap κ ν) (k : κ) : Option ν :=
  (m.toList.find? fun e => decide (e.1 = k)).map Prod.snd

@[simp] theorem lookup_empty (k : κ) : (∅ : SortedMap κ ν).lookup k = none := rfl

theorem eq_of_mem {m : SortedMap κ ν} {k : κ} {v w : ν} (hv : (k, v) ∈ m.toList)
    (hw : (k, w) ∈ m.toList) : v = w := by
  have := List.inj_on_of_nodup_map m.keys_nodup hv hw rfl
  exact (Prod.mk.inj this).2

theorem lookup_eq_some {m : SortedMap κ ν} {k : κ} {v : ν} :
    m.lookup k = some v ↔ (k, v) ∈ m.toList := by
  unfold lookup
  constructor
  · intro h
    obtain ⟨⟨k', v'⟩, hf, rfl⟩ := Option.map_eq_some_iff.1 h
    have hk : k' = k := by simpa using List.find?_some hf
    exact hk ▸ List.mem_of_find?_eq_some hf
  · intro h
    rcases hf : m.toList.find? fun e => decide (e.1 = k) with _ | ⟨k', v'⟩
    · simpa using List.find?_eq_none.1 hf _ h
    · have hk : k' = k := by simpa using List.find?_some hf
      have hm := List.mem_of_find?_eq_some hf
      subst hk
      rw [hf, Option.map_some, eq_of_mem h hm]

theorem lookup_eq_none {m : SortedMap κ ν} {k : κ} : m.lookup k = none ↔ k ∉ m.keys := by
  constructor
  · intro h hk
    obtain ⟨⟨k', v⟩, hm, rfl⟩ := List.mem_map.1 hk
    rw [lookup_eq_some.2 hm] at h
    cases h
  · intro h
    rcases hl : m.lookup k with _ | v
    · rfl
    · exact absurd (List.mem_map.2 ⟨_, lookup_eq_some.1 hl, rfl⟩) h

theorem mem_keys {m : SortedMap κ ν} {k : κ} : k ∈ m.keys ↔ ∃ v, m.lookup k = some v := by
  rw [← Option.isSome_iff_exists, Option.isSome_iff_ne_none, ne_eq, lookup_eq_none, not_not]

theorem mem_values {m : SortedMap κ ν} {v : ν} : v ∈ m.values ↔ ∃ k, m.lookup k = some v := by
  simp only [values, List.mem_map, lookup_eq_some]
  exact ⟨fun ⟨⟨k, _⟩, h, e⟩ => ⟨k, e ▸ h⟩, fun ⟨k, h⟩ => ⟨_, h, rfl⟩⟩

/-- Put `f` of the value at `k` in its place. -/
def alterList (k : κ) (f : Option ν → ν) : List (κ × ν) → List (κ × ν)
  | [] => [(k, f none)]
  | e :: l =>
    if k < e.1 then (k, f none) :: e :: l
    else if e.1 < k then e :: alterList k f l
    else (k, f (some e.2)) :: l

theorem fst_mem_alterList {k : κ} {f : Option ν → ν} {e : κ × ν} :
    ∀ {l : List (κ × ν)}, e ∈ alterList k f l → e.1 = k ∨ e ∈ l
  | [], h => by
    simp only [alterList, List.mem_singleton] at h
    exact .inl (h ▸ rfl)
  | d :: l, h => by
    unfold alterList at h
    split_ifs at h
    · rcases List.mem_cons.1 h with rfl | h
      · exact .inl rfl
      · exact .inr h
    · rcases List.mem_cons.1 h with rfl | h
      · exact .inr List.mem_cons_self
      · exact (fst_mem_alterList h).imp_right (List.mem_cons_of_mem _)
    · rcases List.mem_cons.1 h with rfl | h
      · exact .inl rfl
      · exact .inr (List.mem_cons_of_mem _ h)

theorem pairwise_alterList (k : κ) (f : Option ν → ν) :
    ∀ {l : List (κ × ν)}, (l.Pairwise fun a b => a.1 < b.1) →
      (alterList k f l).Pairwise fun a b => a.1 < b.1
  | [], _ => by simp [alterList]
  | d :: l, h => by
    obtain ⟨hd, hl⟩ := List.pairwise_cons.1 h
    unfold alterList
    split_ifs with h₁ h₂
    · refine List.pairwise_cons.2 ⟨fun e he => ?_, h⟩
      rcases List.mem_cons.1 he with rfl | he
      · exact h₁
      · exact h₁.trans (hd e he)
    · refine List.pairwise_cons.2 ⟨fun e he => ?_, pairwise_alterList k f hl⟩
      rcases fst_mem_alterList he with he | he
      · exact he ▸ h₂
      · exact hd e he
    · have hk : k = d.1 := le_antisymm (not_lt.1 h₂) (not_lt.1 h₁)
      exact List.pairwise_cons.2 ⟨fun e he => by rw [hk]; exact hd e he, hl⟩

/-- Replace the value at `k` by `f` of what is there. -/
def alter (m : SortedMap κ ν) (k : κ) (f : Option ν → ν) : SortedMap κ ν :=
  ⟨alterList k f m.toList, pairwise_alterList k f m.sorted⟩

theorem find?_alterList (k k' : κ) (f : Option ν → ν) :
    ∀ {l : List (κ × ν)}, (l.Pairwise fun a b => a.1 < b.1) →
      ((alterList k f l).find? fun e => decide (e.1 = k')).map Prod.snd =
        if k' = k then some (f ((l.find? fun e => decide (e.1 = k)).map Prod.snd))
        else (l.find? fun e => decide (e.1 = k')).map Prod.snd
  | [], _ => by
    by_cases h : k' = k
    · simp [alterList, h]
    · simp [alterList, h, Ne.symm h]
  | d :: l, hp => by
    obtain ⟨hd, hl⟩ := List.pairwise_cons.1 hp
    unfold alterList
    split_ifs with h₁ h₂ h₃ h₄ h₅
    · subst h₂
      have hno : ∀ e ∈ d :: l, ¬ e.1 = k' := by
        intro e he
        rcases List.mem_cons.1 he with rfl | he
        · exact (ne_of_lt h₁).symm
        · exact (ne_of_lt (h₁.trans (hd e he))).symm
      have : (d :: l).find? (fun e => decide (e.1 = k')) = none := by
        rw [List.find?_eq_none]
        simpa using hno
      simp [this]
    · rw [List.find?_cons_of_neg (by simpa using Ne.symm h₂)]
    · subst h₄
      rw [List.find?_cons_of_neg (by simpa using ne_of_lt h₃),
        List.find?_cons_of_neg (by simpa using ne_of_lt h₃), find?_alterList k' k' f hl, if_pos rfl]
    · by_cases hk : d.1 = k'
      · simp [hk]
      · rw [List.find?_cons_of_neg (by simpa using hk), List.find?_cons_of_neg (by simpa using hk),
          find?_alterList k k' f hl, if_neg h₄]
    · have hk : k = d.1 := le_antisymm (not_lt.1 h₃) (not_lt.1 h₁)
      simp [h₅, hk]
    · have hk : k = d.1 := le_antisymm (not_lt.1 h₃) (not_lt.1 h₁)
      rw [List.find?_cons_of_neg (by simpa using Ne.symm h₅),
        List.find?_cons_of_neg (by simpa [← hk] using Ne.symm h₅)]

@[simp] theorem lookup_alter (m : SortedMap κ ν) (k k' : κ) (f : Option ν → ν) :
    (m.alter k f).lookup k' = if k' = k then some (f (m.lookup k)) else m.lookup k' :=
  find?_alterList k k' f m.sorted

theorem alterList_perm {k : κ} (f : Option ν → ν) :
    ∀ {l : List (κ × ν)}, k ∉ l.map Prod.fst → (alterList k f l).Perm ((k, f none) :: l)
  | [], _ => .refl _
  | d :: l, h => by
    simp only [List.map_cons, List.mem_cons, not_or] at h
    unfold alterList
    split_ifs with h₁ h₂
    · exact .refl _
    · exact ((alterList_perm f h.2).cons d).trans (.swap _ _ _)
    · exact absurd (le_antisymm (not_lt.1 h₂) (not_lt.1 h₁)) h.1

/-- New keys put into a map one after the other are all there in the end. -/
theorem toList_foldl_alter_perm (f : ν → Option ν → ν) (hf : ∀ v, f v none = v) :
    ∀ (l : List (κ × ν)) (m : SortedMap κ ν), (l.map Prod.fst ++ m.keys).Nodup →
      (l.foldl (fun m e => m.alter e.1 (f e.2)) m).toList.Perm (l ++ m.toList)
  | [], m, _ => .refl _
  | e :: l, m, h => by
    obtain ⟨he, hl⟩ := List.nodup_cons.1 h
    have hm : (m.alter e.1 (f e.2)).toList.Perm (e :: m.toList) := by
      have := alterList_perm (f e.2) (l := m.toList)
        fun hk => he (List.mem_append_right _ hk)
      rwa [hf] at this
    have hkeys : (l.map Prod.fst ++ (m.alter e.1 (f e.2)).keys).Perm
        (e.1 :: (l.map Prod.fst ++ m.keys)) :=
      ((hm.map Prod.fst).append_left _).trans List.perm_middle
    refine (toList_foldl_alter_perm f hf l _ (hkeys.nodup_iff.2 h)).trans ?_
    exact (hm.append_left l).trans List.perm_middle

/-- The map with `v` at `k`. -/
def insert (m : SortedMap κ ν) (k : κ) (v : ν) : SortedMap κ ν := m.alter k fun _ => v

@[simp] theorem lookup_insert (m : SortedMap κ ν) (k k' : κ) (v : ν) :
    (m.insert k v).lookup k' = if k' = k then some v else m.lookup k' := by
  simp [insert]

/-- Collect pairs into a map, a later pair replacing an earlier one at its key. -/
def ofList (l : List (κ × ν)) : SortedMap κ ν := l.foldl (fun m e => m.insert e.1 e.2) ∅

/-- The entries `p` accepts. -/
def filter (p : κ → ν → Bool) (m : SortedMap κ ν) : SortedMap κ ν :=
  ⟨m.toList.filter fun e => p e.1 e.2, m.sorted.sublist List.filter_sublist⟩

end SortedMap
