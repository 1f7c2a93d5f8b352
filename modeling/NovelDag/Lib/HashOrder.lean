import Mathlib

/-!
# The order of a hash map

A hash map is iterated in an order nothing is known of. A program that iterates one takes the order
as a parameter, with the number of times it has iterated before.
-/

/-- The order in which a hash map is iterated, which may differ from one time to the next. -/
structure HashOrder where
  order : ∀ {α : Type}, ℕ → List α → List α
  perm : ∀ {α : Type} (i : ℕ) (l : List α), (order i l).Perm l

namespace HashOrder

theorem mem_order (o : HashOrder) {α : Type} {i : ℕ} {l : List α} {a : α} :
    a ∈ o.order i l ↔ a ∈ l := (o.perm i l).mem_iff

/-- The order of the entries. -/
def entryOrder : HashOrder := ⟨fun _ l => l, fun _ _ => .refl _⟩

end HashOrder
