import Mathlib

/-!
# A stream dealt out into chunks

What has come in on a stream is, in its order, what has gone out in chunks and what is still held.
-/

/-- The log of a stream is its chunks one after another, and then the rest. -/
def Packed {α : Type*} (log : List α) (chunks : List (List α)) (rest : List α) : Prop :=
  log = chunks.flatten ++ rest

namespace Packed

variable {α β : Type*} {log rest : List α} {chunks : List (List α)}

theorem nil : Packed ([] : List α) [] [] := rfl

theorem push (h : Packed log chunks rest) (a : α) : Packed (log ++ [a]) chunks (rest ++ [a]) := by
  unfold Packed at h ⊢
  rw [h, List.append_assoc]

/-- The first of what is held goes out as one more chunk. -/
theorem cut (h : Packed log chunks rest) (n : ℕ) :
    Packed log (chunks ++ [rest.take n]) (rest.drop n) := by
  unfold Packed at h ⊢
  rw [h, List.flatten_append, List.flatten_singleton, List.append_assoc, List.take_append_drop]

/-- Everything that is held goes out. -/
theorem close (h : Packed log chunks rest) : Packed log (chunks ++ [rest]) [] := by
  unfold Packed at h ⊢
  rw [h, List.flatten_append, List.flatten_singleton, List.append_nil]

theorem isPrefix (h : Packed log chunks rest) : chunks.flatten <+: log := ⟨rest, h.symm⟩

/-- What came in is as often in the chunks and the rest. -/
theorem count [DecidableEq α] (h : Packed log chunks rest) (a : α) :
    log.count a = (chunks.map (List.count a)).sum + rest.count a := by
  rw [h, List.count_append, List.count_flatten]

/-- What came in once is in one chunk or still held. -/
theorem nodup (h : Packed log chunks rest) (hn : log.Nodup) :
    chunks.flatten.Nodup ∧ rest.Nodup ∧ chunks.flatten.Disjoint rest := by
  rw [h, List.nodup_append'] at hn
  exact hn

end Packed
