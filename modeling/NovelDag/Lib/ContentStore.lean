import NovelDag.Lib.FinMap

/-!
# Stores addressed by content

Each value is written under its hash. What is read under a hash has that hash, and where two values
have one hash the last one written is read.
-/

variable {κ β : Type} [DecidableEq κ] {hash : β → κ} {m : FinMap κ β} {P Q : β → Prop} {k : κ} {b : β}

/-- The store holds values for which `P`, under their hashes, and one under the hash of each. -/
structure ContentStore (hash : β → κ) (m : FinMap κ β) (P : β → Prop) : Prop where
  under : ∀ k b, m.lookup k = some b → hash b = k ∧ P b
  kept : ∀ b, P b → (m.lookup (hash b)).isSome

namespace ContentStore

theorem empty : ContentStore hash ∅ fun _ => False := ⟨fun _ _ h => (by cases h), fun _ h => h.elim⟩

theorem insert (h : ContentStore hash m P) (b : β) (hQ : ∀ x, Q x ↔ P x ∨ x = b) :
    ContentStore hash (m.insert (hash b) b) Q where
  under k x hl := by
    rw [FinMap.lookup_insert_ite] at hl
    split at hl
    · next hk =>
      obtain rfl := Option.some.inj hl
      exact ⟨hk.symm, (hQ _).2 (.inr rfl)⟩
    · obtain ⟨hx, hP⟩ := h.under k x hl
      exact ⟨hx, (hQ x).2 (.inl hP)⟩
  kept x hx := by
    rw [FinMap.lookup_insert_ite]
    split
    · rfl
    · next hk => exact h.kept x (((hQ x).1 hx).resolve_right fun he => hk (congrArg hash he))

theorem congr (h : ContentStore hash m P) (hQ : ∀ x, Q x ↔ P x) : ContentStore hash m Q :=
  ⟨fun k b hl => (h.under k b hl).imp_right (hQ b).2, fun b hb => h.kept b ((hQ b).1 hb)⟩

/-- What is stored under the hash of a value has the same hash. -/
theorem exists_of_mem (h : ContentStore hash m P) (hb : P b) :
    ∃ x, m.lookup (hash b) = some x ∧ hash x = hash b ∧ P x := by
  obtain ⟨x, hx⟩ := Option.isSome_iff_exists.1 (h.kept b hb)
  exact ⟨x, hx, h.under _ x hx⟩

end ContentStore
