import NovelDag.Lib.PrefixLog

/-!
# Chains of leaders

A leader commits the past leaders it is linked to: going down the slots, each leader found hands
over to itself. A leader that every later leader is linked to is on every later chain, and the
chain below it is its own. So two lists of committed leaders, each the chain of such a leader read
from the oldest, agree.
-/

namespace LeaderChain

variable {β : Type*} (linked : β → β → Prop) (leader : ℕ → β → Prop)

/-- The leaders of the slots `rs` that the chain from `c` goes through. -/
inductive Past : β → List ℕ → List β → Prop
  | nil (c : β) : Past c [] []
  | link {c p : β} {r : ℕ} {rs : List ℕ} {l : List β} (hp : leader r p) (hl : linked c p)
      (h : Past p rs l) : Past c (r :: rs) (p :: l)
  | skip {c : β} {r : ℕ} {rs : List ℕ} {l : List β} (hs : ∀ p, leader r p → ¬ linked c p)
      (h : Past c rs l) : Past c (r :: rs) l

variable {linked leader}

namespace Past

theorem unique (hu : ∀ r p q, leader r p → leader r q → p = q) {c : β} {rs : List ℕ}
    {l l' : List β} (h : Past linked leader c rs l) (h' : Past linked leader c rs l') :
    l = l' := by
  induction h generalizing l' with
  | nil => cases h'; rfl
  | link hp hl _ ih =>
    cases h' with
    | link hp' _ h' =>
      obtain rfl := hu _ _ _ hp hp'
      rw [ih h']
    | skip hs' _ => exact absurd hl (hs' _ hp)
  | skip hs _ ih =>
    cases h' with
    | link hp' hl' _ => exact absurd hl' (hs _ hp')
    | skip _ h' => exact ih h'

theorem append {c : β} {rs rs' : List ℕ} {l l' : List β} (h : Past linked leader c rs l)
    (h' : Past linked leader (l.getLastD c) rs' l') :
    Past linked leader c (rs ++ rs') (l ++ l') := by
  induction h with
  | nil => exact h'
  | link hp hl _ ih => exact .link hp hl (ih (by rwa [List.getLastD_cons] at h'))
  | skip hs _ ih => exact .skip hs (ih h')

theorem split {rs' : List ℕ} : ∀ {rs : List ℕ} {c : β} {l : List β},
    Past linked leader c (rs ++ rs') l → ∃ a b, l = a ++ b ∧ Past linked leader c rs a ∧
      Past linked leader (a.getLastD c) rs' b
  | [], c, l, h => ⟨[], l, rfl, .nil c, h⟩
  | r :: rs, c, l, h => by
    cases h with
    | link hp hl h =>
      obtain ⟨a, b, rfl, ha, hb⟩ := split h
      exact ⟨_ :: a, b, rfl, .link hp hl ha, by rwa [List.getLastD_cons]⟩
    | skip hs h =>
      obtain ⟨a, b, rfl, ha, hb⟩ := split h
      exact ⟨a, b, rfl, .skip hs ha, hb⟩

/-- What holds of the start and of every leader of the slots holds where the chain ends. -/
theorem getLastD {P : β → Prop} {c : β} {rs : List ℕ} {l : List β}
    (h : Past linked leader c rs l) (hc : P c) (hP : ∀ r ∈ rs, ∀ p, leader r p → P p) :
    P (l.getLastD c) := by
  induction h with
  | nil => exact hc
  | link hp _ _ ih =>
    rw [List.getLastD_cons]
    exact ih (hP _ List.mem_cons_self _ hp) fun r hr => hP r (List.mem_cons_of_mem _ hr)
  | skip _ _ ih => exact ih hc fun r hr => hP r (List.mem_cons_of_mem _ hr)

end Past

/-! ## Lists of committed leaders -/

section Backbone

variable (linked leader) (round : β → ℕ) (slots : ℕ → List ℕ)

/-- Every later leader is linked to this one. -/
def Fixed (c : β) : Prop := ∀ r p, leader r p → round c < r → linked p c

/-- Leaders from the oldest: none yet, or the chain of a fixed leader. -/
def Backbone (ls : List β) : Prop :=
  ls = [] ∨ ∃ c l, ls.reverse = c :: l ∧ leader (round c) c ∧
    Fixed linked leader round c ∧ Past linked leader c (slots (round c)) l

variable {linked leader round slots}

/-- A chain that goes past the slot of a fixed leader goes through that leader. -/
theorem Past.through {c d : β} {rs : List ℕ} {l : List β} (hu : ∀ r p q, leader r p →
    leader r q → p = q) (hd : leader (round d) d) (hdc : round c < round d)
    (hc : leader (round c) c) (hf : Fixed linked leader round c)
    (hr : ∀ r p, leader r p → round p = r) (hrs : ∀ r ∈ rs, round c < r)
    (h : Past linked leader d (rs ++ round c :: slots (round c)) l) :
    ∃ a b, l = a ++ c :: b ∧ Past linked leader c (slots (round c)) b := by
  obtain ⟨a, b, rfl, ha, hb⟩ := h.split
  have hend : leader (round (a.getLastD d)) (a.getLastD d) ∧ round c < round (a.getLastD d) :=
    ha.getLastD (P := fun p => leader (round p) p ∧ round c < round p) ⟨hd, hdc⟩
      fun r hm p hp => by rw [hr r p hp]; exact ⟨hp, hrs r hm⟩
  cases hb with
  | link hp _ hb =>
    obtain rfl := hu _ _ _ hp hc
    exact ⟨a, _, rfl, hb⟩
  | skip hs _ => exact absurd (hf _ _ hend.1 hend.2) (hs c hc)

/-- Two lists of committed leaders agree. -/
theorem Backbone.comparable (hu : ∀ r p q, leader r p → leader r q → p = q)
    (hr : ∀ r p, leader r p → round p = r)
    (hslots : ∀ c d, leader (round c) c → leader (round d) d → round c < round d →
      ∃ rs, slots (round d) = rs ++ round c :: slots (round c) ∧ ∀ r ∈ rs, round c < r)
    {ls ls' : List β} (h : Backbone linked leader round slots ls)
    (h' : Backbone linked leader round slots ls') : PrefixLog.Comparable ls ls' := by
  -- the list of an earlier fixed leader is the end of the other, both read from the latest
  have key : ∀ {ls ls' : List β} {c c' : β} {l l' : List β}, ls.reverse = c :: l →
      ls'.reverse = c' :: l' → leader (round c) c → leader (round c') c' →
      Fixed linked leader round c → Past linked leader c (slots (round c)) l →
      Past linked leader c' (slots (round c')) l' → round c ≤ round c' → ls <+: ls' := by
    intro ls ls' c c' l l' hl hl' hc hc' hf hp hp' hle
    rw [← List.reverse_suffix, hl, hl']
    rcases hle.eq_or_lt with heq | hlt
    · obtain rfl := hu _ _ _ hc (heq ▸ hc')
      rw [hp.unique hu hp']
    · obtain ⟨rs, hs, hrs⟩ := hslots c c' hc hc' hlt
      rw [hs] at hp'
      obtain ⟨a, b, rfl, hb⟩ := hp'.through hu hc' hlt hc hf hr hrs
      rw [hp.unique hu hb]
      exact (List.suffix_append a _).trans (List.suffix_cons _ _)
  rcases h with rfl | ⟨c, l, hl, hc, hf, hp⟩
  · exact .inl List.nil_prefix
  rcases h' with rfl | ⟨c', l', hl', hc', hf', hp'⟩
  · exact .inr List.nil_prefix
  rcases le_total (round c) (round c') with hle | hle
  · exact .inl (key hl hl' hc hc' hf hp hp' hle)
  · exact .inr (key hl' hl hc' hc hf' hp' hp hle)

/-- Committing the chain of a later fixed leader, down to the last one committed. -/
theorem Backbone.extend (hr : ∀ r p, leader r p → round p = r) {ls : List β}
    (h : Backbone linked leader round slots ls) {d : β} {rs : List ℕ} {l : List β}
    (hd : leader (round d) d) (hf : Fixed linked leader round d)
    (hpast : Past linked leader d rs l)
    (hslots : (ls = [] ∧ slots (round d) = rs) ∨ ∃ c, ls.getLast? = some c ∧
      round c < round d ∧ slots (round d) = rs ++ round c :: slots (round c) ∧
        ∀ r ∈ rs, round c < r) :
    Backbone linked leader round slots (ls ++ (d :: l).reverse) := by
  refine .inr ⟨d, l ++ ls.reverse, by simp, hd, hf, ?_⟩
  rcases hslots with ⟨rfl, hs⟩ | ⟨c, hlast, hlt, hs, hrs⟩
  · simpa [hs] using hpast
  rcases h with rfl | ⟨c', l', hl', hc', hf', hp'⟩
  · simp at hlast
  have hcc : c' = c := by
    rw [← List.head?_reverse, hl', List.head?_cons] at hlast
    exact Option.some.inj hlast
  subst hcc
  have hend : leader (round (l.getLastD d)) (l.getLastD d) ∧ round c' < round (l.getLastD d) :=
    hpast.getLastD (P := fun p => leader (round p) p ∧ round c' < round p) ⟨hd, hlt⟩
      fun r hm p hp => by rw [hr r p hp]; exact ⟨hp, hrs r hm⟩
  rw [hs, hl']
  exact hpast.append (.link hc' (hf' _ _ hend.1 hend.2) hp')

end Backbone

end LeaderChain
