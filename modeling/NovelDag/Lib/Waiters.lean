import NovelDag.Lib.FinMap

/-!
# Futures that wait for a store

A task keeps a pool of futures. A future waits until all its keys are in a store, or until the sender
of its cancel channel is gone, and then leaves the pool. The senders are held in a table, under names.
-/

/-- A future: the keys it reads, what it delivers, and the number of its cancel channel. -/
structure Waiter (κ α : Type) where
  waitFor : List κ
  deliver : α
  handler : ℕ

/-- How a future that is polled returns. -/
inductive Polled
  | delivered
  | cancelled
  deriving DecidableEq

namespace Waiter

variable {κ α ι ν : Type}

/-! ## Pools -/

section Pools

variable [DecidableEq κ] {store : Finset κ} {senders : List ℕ} {waiting rest : List (Waiter κ α)}
  {w : Waiter κ α} {i : ℕ} {polled : Polled}

/-- Whether a future may return. Where it may return in both ways, either is chosen. -/
def returns (store : Finset κ) (senders : List ℕ) (w : Waiter κ α) : Polled → Bool
  | .delivered => w.waitFor.all fun key => decide (key ∈ store)
  | .cancelled => decide (w.handler ∉ senders)

/-- The future that returns, and the others. -/
def poll (store : Finset κ) (senders : List ℕ) (waiting : List (Waiter κ α)) (i : ℕ)
    (polled : Polled) : Option (Waiter κ α × List (Waiter κ α)) := do
  let w ← waiting[i]?
  if w.returns store senders polled then some (w, waiting.eraseIdx i) else none

theorem poll_eq_some (h : poll store senders waiting i polled = some (w, rest)) :
    waiting.Perm (w :: rest) ∧ w.returns store senders polled = true := by
  obtain ⟨w', hw, h⟩ := Option.bind_eq_some_iff.1 h
  split_ifs at h with hr
  obtain ⟨rfl, rfl⟩ := Prod.mk.inj (Option.some.inj h)
  obtain ⟨hi, rfl⟩ := List.getElem?_eq_some_iff.1 hw
  exact ⟨(List.getElem_cons_eraseIdx_perm hi).symm, hr⟩

theorem returns_delivered (h : w.returns store senders .delivered = true) :
    ∀ key ∈ w.waitFor, key ∈ store := fun key hk => by
  simpa using List.all_eq_true.1 h key hk

end Pools

/-! ## Accounts -/

section Accounts

variable {made delivered cancelled waiting rest : List (Waiter κ α)} {w : Waiter κ α}

/-- Each future that was made has delivered, was cancelled, or waits. -/
def Accounted (made delivered cancelled waiting : List (Waiter κ α)) : Prop :=
  made.Perm (delivered ++ (cancelled ++ waiting))

namespace Accounted

theorem nil : Accounted ([] : List (Waiter κ α)) [] [] [] := List.Perm.refl []

theorem push (h : Accounted made delivered cancelled waiting) (w : Waiter κ α) :
    Accounted (made ++ [w]) delivered cancelled (waiting ++ [w]) := by
  have hw := h.append_right [w]
  rwa [List.append_assoc, List.append_assoc] at hw

theorem deliver (h : Accounted made delivered cancelled waiting) (hw : waiting.Perm (w :: rest)) :
    Accounted made (delivered ++ [w]) cancelled rest := by
  unfold Accounted at h ⊢
  rw [List.append_assoc, List.singleton_append]
  exact h.trans (((hw.append_left cancelled).trans List.perm_middle).append_left delivered)

theorem cancel (h : Accounted made delivered cancelled waiting) (hw : waiting.Perm (w :: rest)) :
    Accounted made delivered (cancelled ++ [w]) rest := by
  unfold Accounted at h ⊢
  rw [List.append_assoc, List.singleton_append]
  exact h.trans ((hw.append_left cancelled).append_left delivered)

/-- What was delivered was made, and no future has delivered twice. -/
theorem subperm (h : Accounted made delivered cancelled waiting) : delivered.Subperm made :=
  (List.sublist_append_left _ _).subperm.trans h.symm.subperm

end Accounted

end Accounts

/-! ## Tables -/

section Tables

variable [DecidableEq ι] {R : ι → ν → Waiter κ α → Prop} {table : FinMap ι ν}
  {waiting rest : List (Waiter κ α)} {w : Waiter κ α} {name : ι} {v : ν}

/-- Every entry of the table has its future in the pool. -/
def Served (R : ι → ν → Waiter κ α → Prop) (table : FinMap ι ν) (waiting : List (Waiter κ α)) : Prop :=
  ∀ name v, table.lookup name = some v → ∃ w ∈ waiting, R name v w

namespace Served

theorem insert (h : Served R table waiting) (hw : R name v w) :
    Served R (table.insert name v) (waiting ++ [w]) := by
  intro name' v' hl
  rw [FinMap.lookup_insert_ite] at hl
  split at hl
  · next hn =>
    rw [hn, ← Option.some.inj hl]
    exact ⟨w, by simp, hw⟩
  · obtain ⟨u, hu, hR⟩ := h name' v' hl
    exact ⟨u, List.mem_append_left _ hu, hR⟩

theorem retain (h : Served R table waiting) (p : ι → ν → Bool) : Served R (table.retain p) waiting :=
  fun name v hl => h name v (FinMap.lookup_retain_eq_some.1 hl).1

/-- A future that has none of the entries may leave. -/
theorem leave (h : Served R table waiting) (hw : waiting.Perm (w :: rest))
    (hR : ∀ name v, table.lookup name = some v → ¬ R name v w) : Served R table rest := by
  intro name v hl
  obtain ⟨u, hu, hR'⟩ := h name v hl
  rcases List.mem_cons.1 (hw.mem_iff.1 hu) with rfl | hu
  · exact absurd hR' (hR name v hl)
  · exact ⟨u, hu, hR'⟩

theorem erase (h : Served R table waiting) (name : ι) : Served R (table.erase name) waiting := by
  intro name' v hl
  by_cases hn : name' = name
  · rw [hn, AList.lookup_erase] at hl
    cases hl
  · rw [AList.lookup_erase_ne hn] at hl
    exact h name' v hl

end Served

end Tables

end Waiter
