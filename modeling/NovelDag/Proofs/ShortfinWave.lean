import NovelDag.Shortfin
import NovelDag.Proofs.ConsensusState

/-!
# The blocks of a Shortfin wave

The records a wave can output, the links between them, and the traversal that collects what the
seeds reach along these links.
-/

namespace NovelDag

namespace Shortfin

/-- The oldest round that is kept. -/
def minRound (gcDepth : ℕ) (state : State) : ℕ := state.lastCommittedRound - gcDepth

/-! ## What a wave collects -/

section Wave

/-- The records a wave can output. -/
abbrev indexOf (s : ShortfinState) (r : ℕ) : ShortfinRecords :=
  s.records.retain fun _ certificate =>
    decide (certificate.round < r) && uncommitted s.state.lastCommitted certificate

/-- The records a record references that a wave can output. -/
abbrev linksOf (s : ShortfinState) (r : ℕ) (c : Certificate) : List Certificate :=
  linkedRecords (indexOf s r) c.header.parents ++ linkedRecords (indexOf s r) c.header.parents2

/-- The traversal leaves the record out. -/
abbrev skips (s : ShortfinState) (floor : ℕ) (c : Certificate) : Bool :=
  decide (c.round < floor) || !uncommitted s.state.lastCommitted c

variable {s : ShortfinState} {r floor : ℕ} {seeds : List Certificate}

theorem mem_indexOf {c : Certificate} {d : Digest} : (indexOf s r).lookup d = some c ↔
    s.records.lookup d = some c ∧ c.round < r ∧
      uncommitted s.state.lastCommitted c = true := by
  rw [FinMap.lookup_retain_eq_some, Bool.and_eq_true, decide_eq_true_eq]

theorem mem_values_indexOf {c : Certificate} : c ∈ (indexOf s r).values ↔
    c ∈ s.records.values ∧ c.round < r ∧ uncommitted s.state.lastCommitted c = true := by
  simp only [FinMap.mem_values, mem_indexOf]
  exact ⟨fun ⟨d, hd, h⟩ => ⟨⟨d, hd⟩, h⟩, fun ⟨⟨d, hd⟩, h⟩ => ⟨d, hd, h⟩⟩

theorem mem_linksOf {c q : Certificate} : q ∈ linksOf s r c ↔
    ∃ p, (p ∈ c.header.parents ∨ p ∈ c.header.parents2) ∧ (indexOf s r).lookup p = some q := by
  simp only [linksOf, linkedRecords, List.mem_append, List.mem_filterMap, SortedSet.mem_def]
  constructor
  · rintro (⟨p, hp, h⟩ | ⟨p, hp, h⟩)
    · exact ⟨p, .inl hp, h⟩
    · exact ⟨p, .inr hp, h⟩
  · rintro ⟨p, hp | hp, h⟩
    · exact .inl ⟨p, hp, h⟩
    · exact .inr ⟨p, hp, h⟩

/-! ### The traversal -/

theorem expands_linksOf : Worklist.Expands (fun c : Certificate => c.header.id)
    (fun reachable cert => (linksOf s r cert).filter fun parent =>
      decide (parent.header.id ∉ reachable)) (linksOf s r) := by
  refine ⟨fun _ _ => List.filter_sublist, fun visited x y hy => ?_⟩
  by_cases hv : y.header.id ∈ visited
  · exact .inl hv
  · exact .inr (List.mem_filter.2 ⟨hy, by simpa using hv⟩)

/-- The links lead from the seeds and the index to the index. -/
theorem mem_of_mem_linksOf {x y : Certificate} (hy : y ∈ linksOf s r x) :
    y ∈ seeds ++ (indexOf s r).values := by
  obtain ⟨p, -, hp⟩ := mem_linksOf.1 hy
  exact List.mem_append_right _ (FinMap.mem_values.2 ⟨p, hp⟩)

/-- The ids there are. -/
abbrev idsOf (s : ShortfinState) (r : ℕ) (seeds : List Certificate) : Finset Digest :=
  ((seeds ++ (indexOf s r).values).map fun c => c.header.id).toFinset

/-- All the links there are. -/
abbrev linkCount (s : ShortfinState) (r : ℕ) (seeds : List Certificate) : ℕ :=
  ((seeds ++ (indexOf s r).values).map fun c => (linksOf s r c).length).sum

theorem id_mem_idsOf {x : Certificate} (hx : x ∈ seeds ++ (indexOf s r).values) :
    x.header.id ∈ idsOf s r seeds := List.mem_toFinset.2 (List.mem_map.2 ⟨x, hx, rfl⟩)

theorem length_linksOf_le {x : Certificate} (hx : x ∈ seeds ++ (indexOf s r).values) :
    (linksOf s r x).length ≤ linkCount s r seeds := List.le_sum_of_mem (List.mem_map.2 ⟨x, hx, rfl⟩)

/-- The traversal has enough fuel. -/
theorem edges_idsOf_le : Worklist.edges (idsOf s r seeds) (linkCount s r seeds) seeds.reverse [] ≤
    seeds.length + (seeds.length + (indexOf s r).entries.length) * linkCount s r seeds := by
  rw [Worklist.edges, List.length_reverse, List.toFinset_nil, Finset.sdiff_empty]
  refine Nat.add_le_add_left (Nat.mul_le_mul_right _ ?_) _
  exact (List.toFinset_card_le _).trans (by simp [FinMap.values])

/-- The traversal collects the ids of the seeds it does not leave out. -/
theorem seed_mem_causalReachability {c : Certificate} (hc : c ∈ seeds)
    (hskip : skips s ((seeds.map Certificate.round).min?.getD 0 - 100) c = false) :
    c.header.id ∈ causalReachability seeds (indexOf s r) s.state.lastCommitted :=
  Worklist.mem_reach_of_mem (P := fun x => x ∈ seeds ++ (indexOf s r).values)
    (K := idsOf s r seeds) expands_linksOf (fun _ _ _ => mem_of_mem_linksOf)
    (fun _ hx => .inl (id_mem_idsOf hx)) (fun _ => length_linksOf_le) _ edges_idsOf_le
    (fun _ hx => List.mem_append_left _ (List.mem_reverse.1 hx)) c (List.mem_reverse.2 hc) hskip

end Wave

end Shortfin

end NovelDag
