import Mathlib

/-!
# Worklists

`dfs` walks a graph depth first: it takes the item pushed last, lists it, and pushes those of its
successors whose key it has not pushed before. With fuel for every key it can meet the walk is
complete, and two walks over graphs that agree on the items met list the same items.

`reach` pushes every successor and looks when it takes an item off the stack whether it has been
there. With fuel for every edge it collects exactly the items that can be reached.
-/

namespace Worklist

variable {α κ : Type*} [DecidableEq κ]

/-- Push the entries whose key is new. -/
def push : List (κ × α) → List α → List κ → List α × List κ
  | [], stack, seen => (stack, seen)
  | e :: es, stack, seen =>
    if e.1 ∈ seen then push es stack seen else push es (e.2 :: stack) (e.1 :: seen)

/-- The items in the order they are taken off the stack. -/
def dfs (next : α → List (κ × α)) : ℕ → List α → List κ → List α
  | 0, _, _ => []
  | _ + 1, [], _ => []
  | n + 1, x :: stack, seen =>
    x :: dfs next n (push (next x) stack seen).1 (push (next x) stack seen).2

/-- What a walk within the keys `K` may still list. -/
def measure (K : Finset κ) (stack : List α) (seen : List κ) : ℕ :=
  stack.length + (K \ seen.toFinset).card

theorem measure_push {K : Finset κ} : ∀ {es : List (κ × α)} {stack : List α} {seen : List κ},
    (∀ e ∈ es, e.1 ∈ K) → measure K (push es stack seen).1 (push es stack seen).2 =
      measure K stack seen
  | [], _, _, _ => rfl
  | e :: es, stack, seen, h => by
    have hes : ∀ e ∈ es, e.1 ∈ K := fun e' he' => h e' (List.mem_cons_of_mem _ he')
    unfold push
    split_ifs with hs
    · exact measure_push hes
    · rw [measure_push hes, measure, measure, List.length_cons, List.toFinset_cons]
      have he : e.1 ∈ K \ seen.toFinset :=
        Finset.mem_sdiff.2 ⟨h e List.mem_cons_self, by simpa using hs⟩
      have hcard := Finset.card_erase_add_one he
      rw [Finset.sdiff_insert, ← hcard]
      omega

theorem mem_push {y : α} : ∀ {es : List (κ × α)} {stack : List α} {seen : List κ},
    y ∈ (push es stack seen).1 → y ∈ stack ∨ ∃ k, (k, y) ∈ es
  | [], _, _, h => .inl h
  | e :: es, stack, seen, h => by
    unfold push at h
    split_ifs at h
    · exact (mem_push h).imp_right fun ⟨k, hk⟩ => ⟨k, List.mem_cons_of_mem _ hk⟩
    · rcases mem_push h with h | ⟨k, hk⟩
      · rcases List.mem_cons.1 h with rfl | h
        · exact .inr ⟨e.1, List.mem_cons_self⟩
        · exact .inl h
      · exact .inr ⟨k, List.mem_cons_of_mem _ hk⟩

section Closed

variable {next : α → List (κ × α)} {P : α → Prop} (hP : ∀ x, P x → ∀ e ∈ next x, P e.2)

include hP

theorem forall_mem_push {x : α} (hx : P x) {stack : List α} {seen : List κ}
    (hs : ∀ y ∈ stack, P y) : ∀ y ∈ (push (next x) stack seen).1, P y := fun y hy => by
  rcases mem_push hy with h | ⟨k, hk⟩
  · exact hs y h
  · exact hP x hx (k, y) hk

/-- A property the successors inherit holds of everything listed. -/
theorem forall_mem_dfs : ∀ (n : ℕ) {stack : List α} {seen : List κ},
    (∀ y ∈ stack, P y) → ∀ y ∈ dfs next n stack seen, P y
  | 0, _, _, _, _, hy => by simp [dfs] at hy
  | _ + 1, [], _, _, _, hy => by simp [dfs] at hy
  | n + 1, x :: stack, seen, hs, y, hy => by
    obtain ⟨hx, hs⟩ := List.forall_mem_cons.1 hs
    rcases List.mem_cons.1 hy with rfl | hy
    · exact hx
    · exact forall_mem_dfs n (forall_mem_push hP hx hs) y hy

/-- Two walks with enough fuel each, over graphs that agree on the items met. -/
theorem dfs_congr {next' : α → List (κ × α)} {K K' : Finset κ}
    (heq : ∀ x, P x → next x = next' x) (hK : ∀ x, P x → ∀ e ∈ next x, e.1 ∈ K)
    (hK' : ∀ x, P x → ∀ e ∈ next x, e.1 ∈ K') :
    ∀ (n m : ℕ) {stack : List α} {seen : List κ}, (∀ y ∈ stack, P y) →
      measure K stack seen ≤ n → measure K' stack seen ≤ m →
        dfs next n stack seen = dfs next' m stack seen
  | 0, 0, _, _, _, _, _ => rfl
  | 0, _ + 1, [], _, _, _, _ => rfl
  | _ + 1, 0, [], _, _, _, _ => rfl
  | _ + 1, _ + 1, [], _, _, _, _ => rfl
  | 0, _, x :: stack, seen, _, hn, _ => by simp [measure] at hn
  | _, 0, x :: stack, seen, _, _, hm => by simp [measure] at hm
  | n + 1, m + 1, x :: stack, seen, hs, hn, hm => by
    obtain ⟨hx, hs⟩ := List.forall_mem_cons.1 hs
    have hn' : measure K (push (next x) stack seen).1 (push (next x) stack seen).2 ≤ n := by
      rw [measure_push (hK x hx)]
      simp only [measure, List.length_cons] at hn ⊢
      omega
    have hm' : measure K' (push (next x) stack seen).1 (push (next x) stack seen).2 ≤ m := by
      rw [measure_push (hK' x hx)]
      simp only [measure, List.length_cons] at hm ⊢
      omega
    rw [dfs, dfs, ← heq x hx, dfs_congr heq hK hK' n m (forall_mem_push hP hx hs) hn' hm']

end Closed

section Once

variable {next : α → List (κ × α)} {key : α → κ}

/-- Items pushed under their keys have different keys, new ones. -/
theorem nodup_push : ∀ {es : List (κ × α)} {stack : List α} {seen : List κ},
    (∀ e ∈ es, key e.2 = e.1) → (stack.map key).Nodup → (∀ y ∈ stack, key y ∈ seen) →
      ((push es stack seen).1.map key).Nodup ∧
        (∀ y ∈ (push es stack seen).1, key y ∈ (push es stack seen).2) ∧
        (∀ y ∈ (push es stack seen).1, y ∈ stack ∨ key y ∉ seen) ∧ seen ⊆ (push es stack seen).2
  | [], _, _, _, hnodup, hseen => ⟨hnodup, hseen, fun _ hy => .inl hy, fun _ h => h⟩
  | e :: es, stack, seen, hkey, hnodup, hseen => by
    obtain ⟨he, hes⟩ := List.forall_mem_cons.1 hkey
    unfold push
    split_ifs with hs
    · exact nodup_push hes hnodup hseen
    · have hstack : ((e.2 :: stack).map key).Nodup := by
        refine List.nodup_cons.2 ⟨fun hmem => hs ?_, hnodup⟩
        obtain ⟨y, hy, hye⟩ := List.mem_map.1 hmem
        rw [← he, ← hye]
        exact hseen y hy
      obtain ⟨h₁, h₂, h₃, h₄⟩ := nodup_push hes hstack
        (List.forall_mem_cons.2 ⟨by rw [he]; exact List.mem_cons_self,
          fun y hy => List.mem_cons_of_mem _ (hseen y hy)⟩)
      refine ⟨h₁, h₂, fun y hy => ?_, fun k hk => h₄ (List.mem_cons_of_mem _ hk)⟩
      rcases h₃ y hy with hy | hy
      · rcases List.mem_cons.1 hy with rfl | hy
        · exact .inr (he ▸ hs)
        · exact .inl hy
      · exact .inr fun hk => hy (List.mem_cons_of_mem _ hk)

/-- The walk lists no key twice. -/
theorem nodup_dfs {P : α → Prop} (hP : ∀ x, P x → ∀ e ∈ next x, P e.2)
    (hkey : ∀ x, P x → ∀ e ∈ next x, key e.2 = e.1) :
    ∀ (n : ℕ) {stack : List α} {seen : List κ}, (∀ y ∈ stack, P y) → (stack.map key).Nodup →
      (∀ y ∈ stack, key y ∈ seen) → ((dfs next n stack seen).map key).Nodup ∧
        ∀ y ∈ dfs next n stack seen, y ∈ stack ∨ key y ∉ seen
  | 0, _, _, _, _, _ => ⟨List.nodup_nil, fun _ hy => absurd hy List.not_mem_nil⟩
  | _ + 1, [], _, _, _, _ => ⟨List.nodup_nil, fun _ hy => absurd hy List.not_mem_nil⟩
  | n + 1, x :: stack, seen, hs, hnodup, hseen => by
    obtain ⟨hx, hs'⟩ := List.forall_mem_cons.1 hs
    obtain ⟨hxseen, hseen'⟩ := List.forall_mem_cons.1 hseen
    obtain ⟨hxnew, hnodup'⟩ := List.nodup_cons.1 hnodup
    obtain ⟨h₁, h₂, h₃, h₄⟩ := nodup_push (hkey x hx) hnodup' hseen'
    obtain ⟨hn, hmem⟩ := nodup_dfs hP hkey n (forall_mem_push hP hx hs') h₁ h₂
    have hnew : ∀ y ∈ dfs next n (push (next x) stack seen).1 (push (next x) stack seen).2,
        y ∈ stack ∨ key y ∉ seen := fun y hy =>
      (hmem y hy).elim (h₃ y) fun hk => .inr fun hk' => hk (h₄ hk')
    rw [dfs]
    refine ⟨List.nodup_cons.2 ⟨fun hx' => ?_, hn⟩, fun y hy => ?_⟩
    · obtain ⟨y, hy, hyx⟩ := List.mem_map.1 hx'
      rcases hnew y hy with h | h
      · exact hxnew (List.mem_map.2 ⟨y, h, hyx⟩)
      · exact h (hyx ▸ hxseen)
    · rcases List.mem_cons.1 hy with rfl | hy
      · exact .inl List.mem_cons_self
      · exact (hnew y hy).imp_left (List.mem_cons_of_mem _)

end Once

/-! ## Collecting what can be reached -/

section Reach

variable {α κ : Type*} [DecidableEq κ] (key : α → κ) (skip : α → Bool)
  (next : List κ → α → List α)

/-- The keys of the items taken off the stack, the latest first; an item to skip counts as no item.
What an item pushes may depend on the keys met so far. -/
def reach : ℕ → List α → List κ → List κ
  | 0, _, visited => visited
  | _ + 1, [], visited => visited
  | n + 1, x :: stack, visited =>
    if skip x || decide (key x ∈ visited) then reach n stack visited
    else reach n ((next (key x :: visited) x).reverse ++ stack) (key x :: visited)

/-- One step along an edge, between items that are not skipped. -/
def Step (all : α → List α) (x y : α) : Prop := skip x = false ∧ y ∈ all x

/-- Edges that agree on a closed set of items reach the same items from it. -/
theorem reflTransGen_congr {skip : α → Bool} {all all' : α → List α} {P : α → Prop}
    (heq : ∀ x, P x → all x = all' x) (hclosed : ∀ x, P x → ∀ y ∈ all x, P y) {x y : α}
    (hx : P x) (h : Relation.ReflTransGen (Step skip all) x y) :
    P y ∧ Relation.ReflTransGen (Step skip all') x y := by
  induction h with
  | refl => exact ⟨hx, .refl⟩
  | @tail y z _ hstep ih =>
    obtain ⟨hy, hpath⟩ := ih
    exact ⟨hclosed y hy z hstep.2, hpath.tail ⟨hstep.1, heq y hy ▸ hstep.2⟩⟩

/-- An item pushes its edges, all but those to items met before. -/
structure Expands (all : α → List α) : Prop where
  sublist : ∀ visited x, (next visited x).Sublist (all x)
  complete : ∀ visited x, ∀ y ∈ all x, key y ∈ visited ∨ y ∈ next visited x

/-- What the loop may still push and take off, within the keys `K`, an item pushing at most `w`. -/
def edges (K : Finset κ) (w : ℕ) (stack : List α) (visited : List κ) : ℕ :=
  stack.length + (K \ visited.toFinset).card * w

variable {key skip next}

theorem nodup_reach : ∀ (n : ℕ) {stack : List α} {visited : List κ}, visited.Nodup →
    (reach key skip next n stack visited).Nodup
  | 0, _, _, h => h
  | _ + 1, [], _, h => h
  | n + 1, x :: stack, visited, h => by
    unfold reach
    split_ifs with hx
    · exact nodup_reach n h
    · simp only [Bool.or_eq_true, decide_eq_true_eq, not_or] at hx
      exact nodup_reach n (List.nodup_cons.2 ⟨hx.2, h⟩)

section Spec

variable {all : α → List α} {P : α → Prop} {K : Finset κ} {w : ℕ}

/-- Fuel that is enough is enough for the rest, after an item that is left out. -/
theorem edges_tail {n : ℕ} {x : α} {stack : List α} {visited : List κ}
    (hn : edges K w (x :: stack) visited ≤ n + 1) : edges K w stack visited ≤ n := by
  unfold edges at hn ⊢
  rw [List.length_cons] at hn
  omega

/-- So it is after an item that is taken in. -/
theorem edges_expand (hnext : Expands key next all) {x : α} (hK : key x ∈ K ∨ all x = [])
    (hw : (all x).length ≤ w) {n : ℕ} {stack : List α} {visited : List κ}
    (hk : key x ∉ visited) (hn : edges K w (x :: stack) visited ≤ n + 1) :
    edges K w ((next (key x :: visited) x).reverse ++ stack) (key x :: visited) ≤ n := by
  have hlen := (hnext.sublist (key x :: visited) x).length_le
  unfold edges at hn ⊢
  rw [List.length_append, List.length_reverse, List.toFinset_cons, Finset.sdiff_insert]
  rw [List.length_cons] at hn
  rcases hK with hmem | hnil
  · have hmem' : key x ∈ K \ visited.toFinset := Finset.mem_sdiff.2 ⟨hmem, by simpa using hk⟩
    have hcard := Finset.card_erase_add_one hmem'
    rw [← hcard, Nat.add_mul] at hn
    omega
  · rw [hnil, List.length_nil] at hlen
    have hle := Nat.mul_le_mul_right w (Finset.card_erase_le (a := key x)
      (s := K \ visited.toFinset))
    omega

/-- What has been met stays met. -/
theorem subset_reach : ∀ (n : ℕ) (stack : List α) (visited : List κ),
    visited ⊆ reach key skip next n stack visited
  | 0, _, _ => List.Subset.refl _
  | _ + 1, [], _ => List.Subset.refl _
  | n + 1, x :: stack, visited => by
    unfold reach
    split_ifs
    · exact subset_reach n stack visited
    · exact fun k hk => subset_reach n _ _ (List.mem_cons_of_mem _ hk)

/-- The items on the stack are met, but for those to skip. -/
theorem mem_reach_of_mem (hnext : Expands key next all)
    (hclosed : ∀ x, P x → ∀ y ∈ all x, P y) (hK : ∀ x, P x → key x ∈ K ∨ all x = [])
    (hw : ∀ x, P x → (all x).length ≤ w) :
    ∀ (n : ℕ) {stack : List α} {visited : List κ}, edges K w stack visited ≤ n →
      (∀ x ∈ stack, P x) → ∀ y ∈ stack, skip y = false →
        key y ∈ reach key skip next n stack visited
  | 0, stack, visited, hn, _, y, hy, _ => by
    have hpos := List.length_pos_of_mem hy
    unfold edges at hn
    omega
  | n + 1, x :: stack, visited, hn, hP, y, hy, hs => by
    obtain ⟨hx, hP⟩ := List.forall_mem_cons.1 hP
    unfold reach
    split_ifs with hskip
    · have hmet : skip x = true ∨ key x ∈ visited := by simpa using hskip
      rcases List.mem_cons.1 hy with rfl | hy
      · exact subset_reach n stack visited (hmet.resolve_left (by simp [hs]))
      · exact mem_reach_of_mem hnext hclosed hK hw n (edges_tail hn) hP y hy hs
    · have hk : key x ∉ visited := fun hk => hskip (by simp [hk])
      rcases List.mem_cons.1 hy with rfl | hy
      · exact subset_reach n _ _ List.mem_cons_self
      · refine mem_reach_of_mem hnext hclosed hK hw n (edges_expand hnext (hK x hx) (hw x hx) hk hn)
          (fun z hz => ?_) y (List.mem_append_right _ hy) hs
        rcases List.mem_append.1 hz with hz | hz
        · exact hclosed x hx z ((hnext.sublist _ x).subset (List.mem_reverse.1 hz))
        · exact hP z hz

/-- A key no item has that is pushed, or that is on the stack and not skipped, is not collected. -/
theorem notMem_reach {k : κ} (hnext : ∀ visited x, ∀ y ∈ next visited x, key y ≠ k) :
    ∀ (n : ℕ) {stack : List α} {visited : List κ},
      (∀ y ∈ stack, key y = k → skip y = true) → k ∉ visited →
        k ∉ reach key skip next n stack visited
  | 0, _, _, _, hv => hv
  | _ + 1, [], _, _, hv => hv
  | n + 1, x :: stack, visited, hs, hv => by
    obtain ⟨hx, hs⟩ := List.forall_mem_cons.1 hs
    unfold reach
    split_ifs with hskip
    · exact notMem_reach hnext n hs hv
    · have hkey : key x ≠ k := fun h => hskip (by simp [hx h])
      refine notMem_reach hnext n (fun y hy hk => ?_) (by simp [hkey.symm, hv])
      rcases List.mem_append.1 hy with hy | hy
      · exact absurd hk (hnext _ x y (List.mem_reverse.1 hy))
      · exact hs y hy hk

/-- The items with a key that is not collected might as well not be there. -/
theorem reach_eq_filter (hnext : Expands key next all)
    (hclosed : ∀ x, P x → ∀ y ∈ all x, P y) (hK : ∀ x, P x → key x ∈ K ∨ all x = [])
    (hw : ∀ x, P x → (all x).length ≤ w) {k : κ} :
    ∀ (n : ℕ) {m : ℕ} {stack : List α} {visited : List κ}, n ≤ m →
      edges K w stack visited ≤ n → (∀ x ∈ stack, P x) →
      k ∉ reach key skip next n stack visited →
        reach key skip next n stack visited =
          reach key skip (fun visited x => (next visited x).filter fun y => decide (key y ≠ k)) m
            (stack.filter fun y => decide (key y ≠ k)) visited
  | 0, m, stack, visited, _, hn, _, _ => by
    have hs : stack = [] := List.eq_nil_of_length_eq_zero (by unfold edges at hn; omega)
    subst hs
    cases m <;> rfl
  | n + 1, m, [], visited, _, _, _, _ => by cases m <;> rfl
  | n + 1, m, x :: stack, visited, hm, hn, hP, hk => by
    obtain ⟨hx, hP⟩ := List.forall_mem_cons.1 hP
    unfold reach at hk
    by_cases hkey : key x = k
    · -- the item is left out, or its key would be collected
      have hskip : (skip x || decide (key x ∈ visited)) = true := by
        by_contra hno
        rw [if_neg hno] at hk
        exact hk (subset_reach n _ _ (hkey ▸ List.mem_cons_self))
      rw [if_pos hskip] at hk
      rw [List.filter_cons_of_neg (by simp [hkey]), reach, if_pos hskip]
      exact reach_eq_filter hnext hclosed hK hw n (by omega) (edges_tail hn) hP hk
    obtain ⟨m, rfl⟩ : ∃ m', m = m' + 1 := ⟨m - 1, by omega⟩
    rw [List.filter_cons_of_pos (by simp [hkey]), reach, reach]
    split_ifs at hk ⊢ with hskip
    · exact reach_eq_filter hnext hclosed hK hw n (by omega) (edges_tail hn) hP hk
    · have hmet : key x ∉ visited := fun h => hskip (by simp [h])
      rw [reach_eq_filter hnext hclosed hK hw n (by omega : n ≤ m)
        (edges_expand hnext (hK x hx) (hw x hx) hmet hn) (fun z hz => ?_) hk, List.filter_append,
        List.filter_reverse]
      rcases List.mem_append.1 hz with hz | hz
      · exact hclosed x hx z ((hnext.sublist _ x).subset (List.mem_reverse.1 hz))
      · exact hP z hz

/-- An item met before, whose edges lead to what was met, is on the stack or is skipped. -/
def Met (skip : α → Bool) (all : α → List α) (key : α → κ) (P : α → Prop) (stack : List α)
    (visited : List κ) : Prop :=
  ∀ k ∈ visited, ∃ x, P x ∧ key x = k ∧ skip x = false ∧
    ∀ y ∈ all x, key y ∈ visited ∨ y ∈ stack ∨ skip y = true

theorem skip_of_reflTransGen {x y : α} (h : Relation.ReflTransGen (Step skip all) x y)
    (hy : skip y = false) : skip x = false := by
  rcases h.cases_head with rfl | ⟨z, hz, -⟩
  · exact hy
  · exact hz.1

omit [DecidableEq κ] in
/-- What is reached from an item met before has been met or is reached from the stack. -/
theorem Met.reach {stack : List α} {visited : List κ}
    (hinj : ∀ x y, P x → P y → key x = key y → x = y)
    (hclosed : ∀ x, P x → ∀ y ∈ all x, P y) (h : Met skip all key P stack visited) {x y : α}
    (hx : P x) (hk : key x ∈ visited) (hr : Relation.ReflTransGen (Step skip all) x y)
    (hy : skip y = false) : key y ∈ visited ∨
      ∃ z ∈ stack, Relation.ReflTransGen (Step skip all) z y := by
  induction hr using Relation.ReflTransGen.head_induction_on with
  | refl => exact .inl hk
  | @head x z hstep hr ih =>
    obtain ⟨x', hx', hkey, -, hall⟩ := h _ hk
    obtain rfl := hinj _ _ hx' hx hkey
    rcases hall z hstep.2 with hz | hz | hz
    · exact ih (hclosed x' hx z hstep.2) hz
    · exact .inr ⟨z, hz, hr⟩
    · rw [skip_of_reflTransGen hr hy] at hz
      cases hz

/-- The loop collects the keys met before and those of what it can reach from the stack. -/
theorem mem_reach (hnext : Expands key next all)
    (hinj : ∀ x y, P x → P y → key x = key y → x = y) (hclosed : ∀ x, P x → ∀ y ∈ all x, P y)
    (hK : ∀ x, P x → key x ∈ K ∨ all x = []) (hw : ∀ x, P x → (all x).length ≤ w) :
    ∀ (n : ℕ) {stack : List α} {visited : List κ}, edges K w stack visited ≤ n →
      (∀ x ∈ stack, P x) → Met skip all key P stack visited →
      ∀ k, k ∈ reach key skip next n stack visited ↔ k ∈ visited ∨
        ∃ x ∈ stack, ∃ y, Relation.ReflTransGen (Step skip all) x y ∧ skip y = false ∧ key y = k
  | 0, stack, visited, hn, _, _, k => by
    have hs : stack = [] := List.eq_nil_of_length_eq_zero (by unfold edges at hn; omega)
    simp [Worklist.reach, hs]
  | n + 1, [], visited, _, _, _, k => by simp [Worklist.reach]
  | n + 1, x :: stack, visited, hn, hP, hv, k => by
    obtain ⟨hx, hP⟩ := List.forall_mem_cons.1 hP
    unfold Worklist.reach
    split_ifs with hskip
    · -- `x` is skipped or has been met: what it reaches is reached from the rest
      have hn' : edges K w stack visited ≤ n := edges_tail hn
      have hmet : skip x = true ∨ key x ∈ visited := by simpa using hskip
      have hv' : Met skip all key P stack visited := fun k hk => by
        obtain ⟨z, hz, hkey, hs, hall⟩ := hv k hk
        refine ⟨z, hz, hkey, hs, fun y hy => ?_⟩
        rcases hall y hy with h | h | h
        · exact .inl h
        · rcases List.mem_cons.1 h with rfl | h
          · exact hmet.elim (fun h => .inr (.inr h)) .inl
          · exact .inr (.inl h)
        · exact .inr (.inr h)
      rw [mem_reach hnext hinj hclosed hK hw n hn' hP hv']
      constructor
      · rintro (h | ⟨z, hz, h⟩)
        · exact .inl h
        · exact .inr ⟨z, List.mem_cons_of_mem _ hz, h⟩
      · rintro (h | ⟨z, hz, y, hr, hs, rfl⟩)
        · exact .inl h
        · rcases List.mem_cons.1 hz with rfl | hz
          · rcases hmet with h | h
            · rw [skip_of_reflTransGen hr hs] at h
              cases h
            · rcases hv'.reach hinj hclosed hx h hr hs with h | ⟨z', hz', hr'⟩
              · exact .inl h
              · exact .inr ⟨z', hz', y, hr', hs, rfl⟩
          · exact .inr ⟨z, hz, y, hr, hs, rfl⟩
    · simp only [Bool.or_eq_true, decide_eq_true_eq, not_or, Bool.not_eq_true] at hskip
      obtain ⟨hs, hk⟩ := hskip
      have hn' := edges_expand hnext (hK x hx) (hw x hx) hk hn
      have hP' : ∀ z ∈ (next (key x :: visited) x).reverse ++ stack, P z := fun z hz => by
        rcases List.mem_append.1 hz with hz | hz
        · exact hclosed x hx z ((hnext.sublist _ x).subset (List.mem_reverse.1 hz))
        · exact hP z hz
      have hv' : Met skip all key P ((next (key x :: visited) x).reverse ++ stack)
          (key x :: visited) := fun k hk' => by
        rcases List.mem_cons.1 hk' with rfl | hk'
        · refine ⟨x, hx, rfl, hs, fun y hy => ?_⟩
          rcases hnext.complete (key x :: visited) x y hy with h | h
          · exact .inl h
          · exact .inr (.inl (List.mem_append_left _ (List.mem_reverse.2 h)))
        · obtain ⟨z, hz, hkey, hs', hall⟩ := hv k hk'
          refine ⟨z, hz, hkey, hs', fun y hy => ?_⟩
          rcases hall y hy with h | h | h
          · exact .inl (List.mem_cons_of_mem _ h)
          · rcases List.mem_cons.1 h with rfl | h
            · exact .inl List.mem_cons_self
            · exact .inr (.inl (List.mem_append_right _ h))
          · exact .inr (.inr h)
      rw [mem_reach hnext hinj hclosed hK hw n hn' hP' hv']
      constructor
      · rintro (h | ⟨z, hz, y, hr, hs', rfl⟩)
        · rcases List.mem_cons.1 h with rfl | h
          · exact .inr ⟨x, List.mem_cons_self, x, .refl, hs, rfl⟩
          · exact .inl h
        · rcases List.mem_append.1 hz with hz | hz
          · have hxz := (hnext.sublist _ x).subset (List.mem_reverse.1 hz)
            exact .inr ⟨x, List.mem_cons_self, y, hr.head ⟨hs, hxz⟩, hs', rfl⟩
          · exact .inr ⟨z, List.mem_cons_of_mem _ hz, y, hr, hs', rfl⟩
      · rintro (h | ⟨z, hz, y, hr, hs', rfl⟩)
        · exact .inl (List.mem_cons_of_mem _ h)
        · rcases List.mem_cons.1 hz with rfl | hz
          · rcases hv'.reach hinj hclosed hx List.mem_cons_self hr hs' with h | ⟨z', hz', hr'⟩
            · exact .inl h
            · exact .inr ⟨z', hz', y, hr', hs', rfl⟩
          · exact .inr ⟨z, List.mem_append_right _ hz, y, hr, hs', rfl⟩

end Spec

end Reach

end Worklist
