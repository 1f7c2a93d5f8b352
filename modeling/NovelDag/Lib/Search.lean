import Mathlib

/-!
# Searches in a graph

A search goes on from some of the nodes it meets only, and asks whether it meets a goal. On a graph
without cycles that is decided from the edges out of one node at a time.
-/

namespace Search

variable {α : Type*} (edge : α → α → Prop) (go goal : α → Prop)

/-- A path from the root to a goal, whose nodes before the goal are ones to go on from. -/
def LeadsTo (root : α) : Prop :=
  ∃ z, Relation.ReflTransGen (fun x y => go x ∧ edge x y) root z ∧ goal z

/-- No node is below itself. -/
def Acyclic : Prop := ∀ x, ¬ Relation.TransGen edge x x

variable {edge go goal} {root : α}

theorem leadsTo_iff :
    LeadsTo edge go goal root ↔
      goal root ∨ go root ∧ ∃ y, edge root y ∧ LeadsTo edge go goal y := by
  constructor
  · rintro ⟨z, hz, hgoal⟩
    rcases Relation.ReflTransGen.cases_head hz with rfl | ⟨y, ⟨hgo, hedge⟩, hy⟩
    · exact .inl hgoal
    · exact .inr ⟨hgo, y, hedge, z, hy, hgoal⟩
  · rintro (hgoal | ⟨hgo, y, hedge, z, hz, hgoal⟩)
    · exact ⟨root, .refl, hgoal⟩
    · exact ⟨z, .head ⟨hgo, hedge⟩ hz, hgoal⟩

/-- Where the search ends, with or without success. -/
theorem leadsTo_of_not_go (h : ¬ go root) : LeadsTo edge go goal root ↔ goal root := by
  rw [leadsTo_iff]
  exact ⟨fun hl => hl.resolve_right fun hg => h hg.1, .inl⟩

/-- What a search meets is reachable. -/
theorem LeadsTo.reaches (h : LeadsTo edge go goal root) :
    ∃ z, Relation.ReflTransGen edge root z ∧ goal z := by
  obtain ⟨z, hz, hgoal⟩ := h
  exact ⟨z, Relation.ReflTransGen.mono (fun _ _ h => h.2) _ _ hz, hgoal⟩

end Search
