import Mathlib

/-!
# Channels

A channel between two tasks: what was taken from it, and what is queued. It loses nothing and keeps the
order.
-/

structure Channel (α : Type) where
  taken : List α := []
  queue : List α := []

namespace Channel

variable {α : Type} {c c' : Channel α} {a b : α}

def send (c : Channel α) (a : α) : Channel α := { c with queue := c.queue ++ [a] }

def sendAll (c : Channel α) (l : List α) : Channel α := { c with queue := c.queue ++ l }

def recv (c : Channel α) : Option (α × Channel α) :=
  match c.queue with
  | [] => none
  | a :: queue => some (a, { taken := c.taken ++ [a], queue })

/-- All that was ever sent. -/
def all (c : Channel α) : List α := c.taken ++ c.queue

@[simp] theorem taken_send (c : Channel α) (a : α) : (c.send a).taken = c.taken := rfl

@[simp] theorem taken_sendAll (c : Channel α) (l : List α) : (c.sendAll l).taken = c.taken := rfl

@[simp] theorem all_send (c : Channel α) (a : α) : (c.send a).all = c.all ++ [a] :=
  (List.append_assoc _ _ _).symm

@[simp] theorem all_sendAll (c : Channel α) (l : List α) : (c.sendAll l).all = c.all ++ l :=
  (List.append_assoc _ _ _).symm

theorem taken_of_recv (h : c.recv = some (a, c')) : c'.taken = c.taken ++ [a] := by
  rcases c with ⟨taken, _ | ⟨b, queue⟩⟩
  · cases h
  · obtain ⟨rfl, rfl⟩ := Prod.mk.inj (Option.some.inj h)
    rfl

theorem all_of_recv (h : c.recv = some (a, c')) : c'.all = c.all := by
  rcases c with ⟨taken, _ | ⟨b, queue⟩⟩
  · cases h
  · obtain ⟨rfl, rfl⟩ := Prod.mk.inj (Option.some.inj h)
    exact List.append_assoc _ _ _

theorem head?_of_recv (h : c.recv = some (a, c')) : c.queue.head? = some a := by
  rcases c with ⟨taken, _ | ⟨b, queue⟩⟩
  · cases h
  · obtain ⟨rfl, -⟩ := Prod.mk.inj (Option.some.inj h)
    rfl

theorem taken_prefix_all (c : Channel α) : c.taken <+: c.all := List.prefix_append _ _

theorem mem_all_of_recv (h : c.recv = some (a, c')) : a ∈ c.all := by
  rw [← all_of_recv h, all, taken_of_recv h]
  simp

end Channel
