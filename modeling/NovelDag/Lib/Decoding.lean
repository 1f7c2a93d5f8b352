import NovelDag.Lib.Encoding

/-!
# Readers

A reader takes a value off the front of a byte string. Where it reads back what an encoding writes,
and nothing else, the strings it accepts are the encodings of the values it returns, with anything
behind them.
-/

namespace Encoding

variable {α : Type}

abbrev Reader (α : Type) := List UInt8 → Option (α × List UInt8)

/-- An integer of `w` bytes, least significant first. -/
def readInt (w : ℕ) : Reader ℕ := fun bytes =>
  if w ≤ bytes.length then some (leValue (bytes.take w), bytes.drop w) else none

def readByte : Reader UInt8
  | [] => none
  | byte :: bytes => some (byte, bytes)

/-- As many values as a number says. -/
def readList (read : Reader α) : ℕ → Reader (List α)
  | 0, bytes => some ([], bytes)
  | n + 1, bytes => do
    let (a, bytes) ← read bytes
    let (l, bytes) ← readList read n bytes
    return (a :: l, bytes)

/-- A list behind its length, in `w` bytes. -/
def sized (w : ℕ) (f : α → List UInt8) (l : List α) : List UInt8 :=
  leBytes w l.length ++ l.flatMap f

def readSized (w : ℕ) (read : Reader α) : Reader (List α) := fun bytes => do
  let (n, bytes) ← readInt w bytes
  readList read n bytes

/-- A reader takes off exactly what an encoding writes for the values in range. -/
structure Reads (P : α → Prop) (f : α → List UInt8) (read : Reader α) : Prop where
  back : ∀ a, P a → ∀ rest, read (f a ++ rest) = some (a, rest)
  only : ∀ bytes a rest, read bytes = some (a, rest) → P a ∧ bytes = f a ++ rest

theorem leValue_leBytes {w n : ℕ} (h : n < 256 ^ w) : leValue (leBytes w n) = n := by
  have hlt := leValue_lt (leBytes w n)
  have hback := leBytes_leValue (leBytes w n)
  rw [length_leBytes] at hlt hback
  exact leBytes_inj hlt h hback

namespace Reads

variable {P : α → Prop} {f : α → List UInt8} {read : Reader α}

theorem int (w : ℕ) : Reads (· < 256 ^ w) (leBytes w) (readInt w) where
  back n hn rest := by
    have hlen : (leBytes w n).length = w := length_leBytes w n
    unfold readInt
    rw [if_pos (by rw [List.length_append, hlen]; exact Nat.le_add_right _ _),
      List.take_left' hlen, List.drop_left' hlen, leValue_leBytes hn]
  only bytes n rest h := by
    unfold readInt at h
    split_ifs at h with hle
    obtain ⟨rfl, rfl⟩ := Prod.mk.inj (Option.some.inj h)
    have hlen : (bytes.take w).length = w := List.length_take_of_le hle
    have hlt := leValue_lt (bytes.take w)
    have hback := leBytes_leValue (bytes.take w)
    rw [hlen] at hlt hback
    exact ⟨hlt, by rw [hback, List.take_append_drop]⟩

theorem byte : Reads (fun _ => True) (fun b => [b]) readByte where
  back _ _ _ := rfl
  only bytes b rest h := by
    rcases bytes with _ | ⟨b', bytes⟩
    · cases h
    · obtain ⟨rfl, rfl⟩ := Prod.mk.inj (Option.some.inj h)
      exact ⟨trivial, rfl⟩

theorem list (h : Reads P f read) : ∀ n, Reads (fun l : List α => l.length = n ∧ ∀ a ∈ l, P a)
    (fun l => l.flatMap f) (readList read n)
  | 0 => by
    refine ⟨fun l hl rest => ?_, fun bytes l rest hr => ?_⟩
    · rw [List.length_eq_zero_iff.1 hl.1]
      rfl
    · obtain ⟨rfl, rfl⟩ := Prod.mk.inj (Option.some.inj hr)
      exact ⟨⟨rfl, by simp⟩, rfl⟩
  | n + 1 => by
    have ih := list h n
    refine ⟨fun l hl rest => ?_, fun bytes l rest hr => ?_⟩
    · obtain ⟨a, l, rfl⟩ := List.exists_cons_of_length_eq_add_one hl.1
      rw [List.flatMap_cons, List.append_assoc, readList, h.back a (hl.2 a List.mem_cons_self)]
      simp only [Option.bind_eq_bind, Option.bind_some]
      rw [ih.back l ⟨Nat.succ.inj hl.1, fun b hb => hl.2 b (List.mem_cons_of_mem _ hb)⟩]
      rfl
    · obtain ⟨⟨a, bytes'⟩, ha, hr⟩ := Option.bind_eq_some_iff.1 hr
      obtain ⟨⟨l', bytes''⟩, hl', hr⟩ := Option.bind_eq_some_iff.1 hr
      obtain ⟨rfl, rfl⟩ := Prod.mk.inj (Option.some.inj hr)
      obtain ⟨hPa, rfl⟩ := h.only _ _ _ ha
      obtain ⟨⟨hlen, hP⟩, rfl⟩ := ih.only _ _ _ hl'
      refine ⟨⟨congrArg Nat.succ hlen, List.forall_mem_cons.2 ⟨hPa, hP⟩⟩, ?_⟩
      rw [List.flatMap_cons, List.append_assoc]

theorem sized (w : ℕ) (h : Reads P f read) :
    Reads (fun l : List α => l.length < 256 ^ w ∧ ∀ a ∈ l, P a) (Encoding.sized w f)
      (readSized w read) where
  back l hl rest := by
    unfold Encoding.sized readSized
    rw [List.append_assoc, (int w).back _ hl.1]
    exact (h.list _).back l ⟨rfl, hl.2⟩ rest
  only bytes l rest hr := by
    obtain ⟨⟨n, bytes'⟩, hn, hl⟩ := Option.bind_eq_some_iff.1 hr
    obtain ⟨hlt, rfl⟩ := (int w).only _ _ _ hn
    obtain ⟨⟨rfl, hP⟩, rfl⟩ := (h.list n).only _ _ _ hl
    exact ⟨⟨hlt, hP⟩, by rw [Encoding.sized, List.append_assoc]⟩

end Reads

end Encoding
