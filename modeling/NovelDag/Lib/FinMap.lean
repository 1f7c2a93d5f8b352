import Mathlib

/-!
# Finite maps

`AList` as a finite map: `retain` keeps the entries a test accepts, `alter` is the entry
interface, `values` lists the values, and `ofList` collects pairs, a later pair replacing an
earlier one at its key. Every operation is described by its lookups.
-/

/-- A finite map from `κ` to `ν`. -/
abbrev FinMap (κ ν : Type*) := AList fun _ : κ => ν

namespace FinMap

variable {κ ν μ : Type*} [DecidableEq κ]

theorem ext_lookup_iff {m : FinMap κ ν} {k : κ} {v : ν} :
    m.lookup k = some v ↔ (⟨k, v⟩ : Sigma fun _ : κ => ν) ∈ m.entries :=
  AList.mem_lookup_iff

/-- The entries `p` accepts. -/
def retain (p : κ → ν → Bool) (m : FinMap κ ν) : FinMap κ ν :=
  ⟨m.entries.filter fun e => p e.1 e.2, m.nodupKeys.sublist List.filter_sublist⟩

theorem lookup_retain_eq_some {p : κ → ν → Bool} {m : FinMap κ ν} {k : κ} {v : ν} :
    (m.retain p).lookup k = some v ↔ m.lookup k = some v ∧ p k v = true := by
  rw [ext_lookup_iff, ext_lookup_iff]
  exact List.mem_filter

@[simp] theorem lookup_retain (p : κ → ν → Bool) (m : FinMap κ ν) (k : κ) :
    (m.retain p).lookup k = (m.lookup k).filter (p k) := by
  ext v
  rw [lookup_retain_eq_some, Option.filter_eq_some_iff]

omit [DecidableEq κ] in
theorem nodupKeys_filterMap (f : κ → ν → Option ν) (m : FinMap κ ν) :
    (m.entries.filterMap fun e => (f e.1 e.2).map fun v =>
      (⟨e.1, v⟩ : Sigma fun _ : κ => ν)).NodupKeys := by
  rw [List.nodupKeys_iff_pairwise]
  refine List.Pairwise.filterMap _ ?_ (List.nodupKeys_iff_pairwise.1 m.nodupKeys)
  intro a a' hne b hb b' hb'
  obtain ⟨v, -, rfl⟩ := Option.map_eq_some_iff.1 hb
  obtain ⟨v', -, rfl⟩ := Option.map_eq_some_iff.1 hb'
  exact hne

/-- Map every value, dropping the entries where `f` gives none. -/
def retainMut (f : κ → ν → Option ν) (m : FinMap κ ν) : FinMap κ ν :=
  ⟨m.entries.filterMap fun e => (f e.1 e.2).map fun v => ⟨e.1, v⟩, nodupKeys_filterMap f m⟩

@[simp] theorem lookup_retainMut (f : κ → ν → Option ν) (m : FinMap κ ν) (k : κ) :
    (m.retainMut f).lookup k = (m.lookup k).bind (f k) := by
  ext w
  rw [ext_lookup_iff, Option.bind_eq_some_iff]
  simp only [retainMut, List.mem_filterMap, Option.map_eq_some_iff, ext_lookup_iff]
  constructor
  · rintro ⟨⟨k', v⟩, hm, w', hf, he⟩
    obtain ⟨rfl, rfl⟩ := Sigma.mk.inj_iff.1 he |>.imp id eq_of_heq
    exact ⟨v, hm, hf⟩
  · rintro ⟨v, hm, hf⟩
    exact ⟨⟨k, v⟩, hm, w, hf, rfl⟩

/-- Replace the value at `k` by `f` of what is there. -/
def alter (m : FinMap κ ν) (k : κ) (f : Option ν → ν) : FinMap κ ν :=
  m.insert k (f (m.lookup k))

@[simp] theorem lookup_alter (m : FinMap κ ν) (k k' : κ) (f : Option ν → ν) :
    (m.alter k f).lookup k' = if k' = k then some (f (m.lookup k)) else m.lookup k' := by
  unfold alter
  split_ifs with h
  · subst h; exact AList.lookup_insert m
  · exact AList.lookup_insert_ne h

theorem lookup_insert_ite (m : FinMap κ ν) (k k' : κ) (v : ν) :
    (m.insert k v).lookup k' = if k' = k then some v else m.lookup k' := by
  split_ifs with h
  · subst h; exact AList.lookup_insert m
  · exact AList.lookup_insert_ne h

/-- The values, in the order of the entries. -/
def values (m : FinMap κ ν) : List ν := m.entries.map (·.2)

theorem mem_values {m : FinMap κ ν} {v : ν} : v ∈ m.values ↔ ∃ k, m.lookup k = some v := by
  unfold values
  simp only [List.mem_map, ext_lookup_iff]
  constructor
  · rintro ⟨⟨k, w⟩, h, rfl⟩; exact ⟨k, h⟩
  · rintro ⟨k, h⟩; exact ⟨⟨k, v⟩, h, rfl⟩

omit [DecidableEq κ] in
theorem values_retain (p : ν → Bool) (m : FinMap κ ν) :
    (m.retain fun _ v => p v).values = m.values.filter p := by
  unfold values retain
  rw [List.filter_map]
  rfl

/-- An entry whose value a test refuses is not missed in what the test accepts. -/
theorem filter_values_erase {m : FinMap κ ν} {k : κ} {v : ν} (h : m.lookup k = some v)
    {p : ν → Bool} (hp : p v = false) :
    (values (m.erase k)).filter p = m.values.filter p := by
  have hmem : (⟨k, v⟩ : Sigma fun _ : κ => ν) ∈ m.entries := ext_lookup_iff.1 h
  obtain ⟨v', l₁, l₂, -, he, herase⟩ :=
    List.exists_of_kerase (List.mem_keys_of_mem hmem)
  have hv : v' = v := by
    have h' : m.lookup k = some v' := ext_lookup_iff.2 (by rw [he]; simp)
    exact Option.some.inj (h'.symm.trans h)
  have hvalues : values (m.erase k) = (l₁ ++ l₂).map (·.2) := by
    rw [← herase]
    rfl
  have hvalues' : m.values = (l₁ ++ ⟨k, v'⟩ :: l₂).map (·.2) := by
    rw [← he]
    rfl
  rw [hvalues, hvalues', hv]
  simp [hp]

theorem mem_keys_iff {m : FinMap κ ν} {k : κ} : k ∈ m.keys ↔ ∃ v, m.lookup k = some v := by
  rw [← AList.mem_keys, ← AList.lookup_isSome, Option.isSome_iff_exists]

theorem lookup_eq_none_iff {m : FinMap κ ν} {k : κ} : m.lookup k = none ↔ k ∉ m.keys := by
  rw [AList.lookup_eq_none, AList.mem_keys]

/-- Collect pairs into a map. -/
def ofList (l : List (κ × ν)) : FinMap κ ν := l.foldl (fun m e => m.insert e.1 e.2) ∅

theorem lookup_foldl_insert (l : List (κ × ν)) (m : FinMap κ ν) {k : κ} {v : ν}
    (hl : (l.foldl (fun m e => m.insert e.1 e.2) m).lookup k = some v) :
    (k, v) ∈ l ∨ m.lookup k = some v := by
  induction l generalizing m with
  | nil => exact .inr hl
  | cons e l ih =>
    rcases ih _ hl with h | h
    · exact .inl (List.mem_cons_of_mem _ h)
    · rw [lookup_insert_ite] at h
      split_ifs at h with hk
      · rw [Option.some.injEq] at h
        rw [hk, ← h]
        exact .inl List.mem_cons_self
      · exact .inr h

theorem mem_of_lookup_ofList {l : List (κ × ν)} {k : κ} {v : ν}
    (h : (ofList l).lookup k = some v) : (k, v) ∈ l :=
  (lookup_foldl_insert l ∅ h).resolve_right (by simp)

/-- What is collected has the keys that are in the list. -/
theorem isSome_lookup_ofList (l : List (κ × ν)) (k : κ) :
    ((ofList l).lookup k).isSome ↔ k ∈ l.map Prod.fst := by
  have hfold : ∀ (l : List (κ × ν)) (m : FinMap κ ν),
      ((l.foldl (fun m e => m.insert e.1 e.2) m).lookup k).isSome ↔
        k ∈ l.map Prod.fst ∨ (m.lookup k).isSome := by
    intro l
    induction l with
    | nil => simp
    | cons e l ih =>
      intro m
      rw [List.foldl_cons, ih, lookup_insert_ite, List.map_cons, List.mem_cons]
      by_cases hk : k = e.1
      · simp [hk]
      · simp [hk]
  exact (hfold l ∅).trans (by simp)

theorem lookup_foldl_insert_of_notMem (l : List (κ × ν)) (m : FinMap κ ν) {k : κ}
    (h : k ∉ l.map Prod.fst) :
    (l.foldl (fun m e => m.insert e.1 e.2) m).lookup k = m.lookup k := by
  induction l generalizing m with
  | nil => rfl
  | cons e l ih =>
    simp only [List.map_cons, List.mem_cons, not_or] at h
    rw [List.foldl_cons, ih _ h.2, lookup_insert_ite, if_neg h.1]

/-- Keys are collected with the values a function gives them. -/
theorem lookup_foldl_collect {g : FinMap κ ν → κ → FinMap κ ν} {f : κ → Option ν}
    (hg : ∀ m k, g m k = (f k).elim m (m.insert k)) (l : List κ) (m : FinMap κ ν) (k : κ) :
    (l.foldl g m).lookup k = if k ∈ l ∧ (f k).isSome then f k else m.lookup k := by
  induction l generalizing m with
  | nil => simp
  | cons k' l ih =>
    rw [List.foldl_cons, ih, hg]
    rcases hf : f k' with _ | v
    · by_cases hk : k = k'
      · subst hk
        simp [hf]
      · simp [hk]
    · rw [Option.elim_some, lookup_insert_ite]
      by_cases hk : k = k'
      · subst hk
        simp [hf]
      · simp [hk]

theorem lookup_ofList_of_mem {l : List (κ × ν)} (hn : (l.map Prod.fst).Nodup) {k : κ} {v : ν}
    (h : (k, v) ∈ l) : (ofList l).lookup k = some v := by
  unfold ofList
  generalize (∅ : FinMap κ ν) = m
  induction l generalizing m with
  | nil => simp at h
  | cons e l ih =>
    simp only [List.map_cons, List.nodup_cons] at hn
    rcases List.mem_cons.1 h with h | h
    · subst h
      rw [List.foldl_cons, lookup_foldl_insert_of_notMem _ _ hn.1, lookup_insert_ite, if_pos rfl]
    · exact ih hn.2 h _

theorem lookup_union (m n : FinMap κ ν) (k : κ) :
    (m ∪ n).lookup k = (m.lookup k).or (n.lookup k) := by
  by_cases h : k ∈ m
  · obtain ⟨v, hv⟩ := Option.isSome_iff_exists.1 (AList.lookup_isSome.2 h)
    rw [AList.lookup_union_left h, hv, Option.some_or]
  · rw [AList.lookup_union_right h, AList.lookup_eq_none.2 h, Option.none_or]

theorem lookup_foldl_union {ι : Type*} (f : ι → FinMap κ ν) (k : κ) :
    ∀ (l : List ι) (m : FinMap κ ν), (l.foldl (fun m i => m ∪ f i) m).lookup k =
      (m.lookup k).or (l.findSome? fun i => (f i).lookup k)
  | [], m => by simp
  | i :: l, m => by
    rw [List.foldl_cons, lookup_foldl_union f k l, lookup_union, Option.or_assoc,
      List.findSome?_cons]
    rcases (f i).lookup k with _ | v
    · rw [Option.none_or]
    · rw [Option.some_or]

end FinMap
