import Mathlib

/-!
# Sorted sets

A finite set as its strictly increasing list of elements, read in that order.
-/

/-- A strictly increasing list. -/
structure SortedSet (α : Type*) [LinearOrder α] where
  toList : List α
  sorted : toList.Pairwise (· < ·)

namespace SortedSet

variable {α : Type*} [LinearOrder α]

theorem ext {s t : SortedSet α} (h : s.toList = t.toList) : s = t := by
  cases s; cases t; cases h; rfl

instance : DecidableEq (SortedSet α) := fun s t =>
  decidable_of_iff (s.toList = t.toList) ⟨ext, fun h => h ▸ rfl⟩

instance : EmptyCollection (SortedSet α) := ⟨⟨[], List.Pairwise.nil⟩⟩

instance : Inhabited (SortedSet α) := ⟨∅⟩

instance : Membership α (SortedSet α) := ⟨fun s a => a ∈ s.toList⟩

instance (a : α) (s : SortedSet α) : Decidable (a ∈ s) :=
  inferInstanceAs (Decidable (a ∈ s.toList))

theorem mem_def {a : α} {s : SortedSet α} : a ∈ s ↔ a ∈ s.toList := Iff.rfl

@[simp] theorem toList_empty : (∅ : SortedSet α).toList = [] := rfl

@[simp] theorem notMem_empty (a : α) : a ∉ (∅ : SortedSet α) := by simp [mem_def]

theorem nodup (s : SortedSet α) : s.toList.Nodup := s.sorted.imp fun h => ne_of_lt h

/-- Insert into a strictly increasing list. -/
def insertList (a : α) : List α → List α
  | [] => [a]
  | b :: l => if a < b then a :: b :: l else if b < a then b :: insertList a l else b :: l

theorem mem_insertList {a b : α} : ∀ {l : List α}, b ∈ insertList a l ↔ b = a ∨ b ∈ l
  | [] => by simp [insertList]
  | c :: l => by
    unfold insertList
    split_ifs with h₁ h₂
    · simp
    · simp only [List.mem_cons, mem_insertList]
      tauto
    · have : a = c := le_antisymm (not_lt.1 h₂) (not_lt.1 h₁)
      subst this
      simp

theorem pairwise_insertList (a : α) :
    ∀ {l : List α}, l.Pairwise (· < ·) → (insertList a l).Pairwise (· < ·)
  | [], _ => by simp [insertList]
  | b :: l, h => by
    obtain ⟨hb, hl⟩ := List.pairwise_cons.1 h
    unfold insertList
    split_ifs with h₁ h₂
    · refine List.pairwise_cons.2 ⟨fun c hc => ?_, h⟩
      rcases List.mem_cons.1 hc with rfl | hc
      · exact h₁
      · exact h₁.trans (hb c hc)
    · refine List.pairwise_cons.2 ⟨fun c hc => ?_, pairwise_insertList a hl⟩
      rcases mem_insertList.1 hc with rfl | hc
      · exact h₂
      · exact hb c hc
    · exact h

/-- The set with `a` added. -/
def insert (a : α) (s : SortedSet α) : SortedSet α :=
  ⟨insertList a s.toList, pairwise_insertList a s.sorted⟩

@[simp] theorem mem_insert {a b : α} {s : SortedSet α} : b ∈ s.insert a ↔ b = a ∨ b ∈ s :=
  mem_insertList

/-- The elements of a list as a set. -/
def ofList (l : List α) : SortedSet α := l.foldr insert ∅

@[simp] theorem mem_ofList {a : α} : ∀ {l : List α}, a ∈ ofList l ↔ a ∈ l
  | [] => by simp [ofList]
  | b :: l => by
    have ih := mem_ofList (a := a) (l := l)
    simp only [ofList, List.foldr_cons] at ih ⊢
    rw [mem_insert, ih, List.mem_cons]

/-- The elements `p` accepts. -/
def filter (p : α → Bool) (s : SortedSet α) : SortedSet α :=
  ⟨s.toList.filter p, s.sorted.sublist List.filter_sublist⟩

@[simp] theorem mem_filter {p : α → Bool} {a : α} {s : SortedSet α} :
    a ∈ s.filter p ↔ a ∈ s ∧ p a = true := List.mem_filter

/-- No element is in both sets. -/
def isDisjoint (s t : SortedSet α) : Bool := s.toList.all fun a => decide (a ∉ t)

end SortedSet
