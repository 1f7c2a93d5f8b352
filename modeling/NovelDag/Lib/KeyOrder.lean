import Mathlib

/-!
# Lists in the order of a key

A list sorted by a key that tells its items apart is determined by the set of its items.
-/

namespace KeyOrder

variable {α β κ : Type*} [LinearOrder κ] (key : α → κ)

/-- In the order of the key. -/
abbrev Le (x y : α) : Prop := key x ≤ key y

instance : Std.Total (Le key) := ⟨fun _ _ => le_total _ _⟩

instance : IsTrans α (Le key) := ⟨fun _ _ _ => le_trans⟩

variable {key}

theorem pairwise_insertionSort (l : List α) :
    (l.insertionSort fun x y => key x ≤ key y).Pairwise (Le key) :=
  List.pairwise_insertionSort (Le key) l

/-- Two sorted lists of the same items are one list. -/
theorem eq_of_mem_iff {l l' : List α} (hn : l.Nodup) (hn' : l'.Nodup) (hs : l.Pairwise (Le key))
    (hs' : l'.Pairwise (Le key)) (hinj : ∀ x ∈ l, ∀ y ∈ l, key x = key y → x = y)
    (hmem : ∀ x, x ∈ l ↔ x ∈ l') : l = l' :=
  List.Perm.eq_of_pairwise
    (fun x y hx hy hxy hyx => hinj x hx y ((hmem y).2 hy) (le_antisymm hxy hyx)) hs hs'
    ((List.perm_ext_iff_of_nodup hn hn').2 hmem)

/-- The first answer along a sorted list is that of the least item that has one. -/
theorem findSome?_eq_some {f : κ → Option β} {b : β} :
    ∀ {l : List κ}, l.Pairwise (· ≤ ·) → (l.findSome? f = some b ↔
      ∃ a ∈ l, f a = some b ∧ ∀ a' ∈ l, (f a').isSome → a ≤ a')
  | [], _ => by simp
  | c :: l, hs => by
    obtain ⟨hc, hl⟩ := List.pairwise_cons.1 hs
    rw [List.findSome?_cons]
    rcases hf : f c with _ | d
    · simp only [findSome?_eq_some hl, List.exists_mem_cons_iff, List.forall_mem_cons, hf,
        reduceCtorEq, false_and, false_or, Option.isSome_none, Bool.false_eq_true,
        false_implies, true_and]
    · simp only [Option.some.injEq]
      constructor
      · rintro rfl
        exact ⟨c, List.mem_cons_self, hf, List.forall_mem_cons.2 ⟨fun _ => le_rfl,
          fun a' ha' _ => hc a' ha'⟩⟩
      · rintro ⟨a, ha, hfa, hmin⟩
        have hac : a ≤ c := hmin c List.mem_cons_self (by rw [hf]; rfl)
        have hca : c ≤ a := (List.mem_cons.1 ha).elim (fun e => e ▸ le_rfl) (hc a)
        rw [le_antisymm hac hca, hf] at hfa
        exact Option.some.inj hfa

end KeyOrder
