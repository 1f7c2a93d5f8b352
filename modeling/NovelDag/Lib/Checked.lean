import Mathlib

/-!
# Checked machine arithmetic

The operations on unsigned integers of `w` bits, with no result where it would not fit: what is
computed where overflow is checked.
-/

namespace Checked

def add (w a b : ℕ) : Option ℕ := if a + b < 2 ^ w then some (a + b) else none

def mul (w a b : ℕ) : Option ℕ := if a * b < 2 ^ w then some (a * b) else none

def sub (a b : ℕ) : Option ℕ := if b ≤ a then some (a - b) else none

/-- The sum of a list, from the left. -/
def sum (w : ℕ) (l : List ℕ) : Option ℕ := l.foldlM (add w) 0

variable {w a b n : ℕ}

@[simp] theorem add_eq_some : add w a b = some n ↔ a + b = n ∧ a + b < 2 ^ w := by
  unfold add
  split_ifs with h <;> simp [h]

@[simp] theorem mul_eq_some : mul w a b = some n ↔ a * b = n ∧ a * b < 2 ^ w := by
  unfold mul
  split_ifs with h <;> simp [h]

@[simp] theorem sub_eq_some : sub a b = some n ↔ a - b = n ∧ b ≤ a := by
  unfold sub
  split_ifs with h <;> simp [h]

@[simp] theorem add_eq_none : add w a b = none ↔ 2 ^ w ≤ a + b := by
  unfold add
  split_ifs with h <;> simp <;> omega

theorem foldlM_add_eq_some : ∀ {l : List ℕ} {a : ℕ}, a < 2 ^ w →
    (l.foldlM (add w) a = some n ↔ a + l.sum = n ∧ a + l.sum < 2 ^ w)
  | [], a, ha => by simp [ha]
  | b :: l, a, ha => by
    rw [List.foldlM_cons, Option.bind_eq_bind, Option.bind_eq_some_iff, List.sum_cons]
    constructor
    · rintro ⟨s, hs, h⟩
      obtain ⟨rfl, hlt⟩ := add_eq_some.1 hs
      rwa [foldlM_add_eq_some hlt, Nat.add_assoc] at h
    · rintro ⟨hn, hlt⟩
      have hab : a + b < 2 ^ w := by omega
      refine ⟨a + b, add_eq_some.2 ⟨rfl, hab⟩, ?_⟩
      rw [foldlM_add_eq_some hab, Nat.add_assoc]
      exact ⟨hn, hlt⟩

/-- Only the whole sum matters. -/
@[simp] theorem sum_eq_some {l : List ℕ} : sum w l = some n ↔ l.sum = n ∧ l.sum < 2 ^ w := by
  unfold sum
  rw [foldlM_add_eq_some (Nat.two_pow_pos w), Nat.zero_add]

end Checked
