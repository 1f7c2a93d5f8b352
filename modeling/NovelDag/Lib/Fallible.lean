import Mathlib

/-!
# Programs that can fail

Programs in `Except`: what a sequence of checks that ended well has checked.

Programs that also change a state, in `StateT`: `Computes I m a` says that from every state that
satisfies `I` the program `m` ends well, returns `a` and leaves a state that satisfies `I`. A query
that only fills caches computes its answer in this sense.
-/

namespace Fallible

variable {ε ε' α β : Type}

/-- Go on if the condition holds, and fail with `e` if not. -/
def ensure (cond : Bool) (e : ε) : Except ε Unit := if cond then .ok () else .error e

@[simp] theorem ensure_eq_ok {cond : Bool} {e : ε} : ensure cond e = .ok () ↔ cond = true := by
  cases cond <;> simp [ensure]

theorem ok_bind (a : α) (f : α → Except ε β) : (.ok a >>= f) = f a := rfl

theorem bind_eq_ok {x : Except ε α} {f : α → Except ε β} {b : β} :
    (x >>= f) = .ok b ↔ ∃ a, x = .ok a ∧ f a = .ok b := by
  cases x <;> simp [Bind.bind, Except.bind]

/-- A check comes before what follows it. -/
theorem check_bind_eq_ok {x : Except ε Unit} {f : Unit → Except ε β} {b : β} :
    (x >>= f) = .ok b ↔ x = .ok () ∧ f () = .ok b := by
  rw [bind_eq_ok]
  exact ⟨fun ⟨_, h⟩ => h, fun h => ⟨(), h⟩⟩

@[simp] theorem mapError_eq_ok {x : Except ε α} {f : ε → ε'} {a : α} :
    x.mapError f = .ok a ↔ x = .ok a := by
  cases x <;> simp [Except.mapError]

theorem toOption_eq_some {x : Except ε α} {a : α} : x.toOption = some a ↔ x = .ok a := by
  cases x <;> simp [Except.toOption]

/-- A loop of checks ends well when every check does. -/
theorem forM_eq_ok {f : α → Except ε Unit} :
    ∀ {l : List α}, l.forM f = .ok () ↔ ∀ a ∈ l, f a = .ok ()
  | [] => by simp [pure, Except.pure]
  | a :: l => by
    change (f a >>= fun _ => l.forM f) = .ok () ↔ _
    rw [check_bind_eq_ok, forM_eq_ok, List.forall_mem_cons]

/-! ## Errors that do not occur -/

/-- The program does not end with the error `e`. -/
def Avoids (e : ε) (x : Except ε α) : Prop := x ≠ .error e

namespace Avoids

variable {e : ε} {x : Except ε α}

theorem ok (a : α) : Avoids e (.ok a : Except ε α) := nofun

theorem pure (a : α) : Avoids e (Pure.pure a : Except ε α) := nofun

theorem error {e' : ε} (h : e' ≠ e) : Avoids e (.error e' : Except ε α) :=
  fun he => h (Except.error.inj he)

theorem ensure {cond : Bool} {e' : ε} (h : e' ≠ e) : Avoids e (Fallible.ensure cond e') := by
  unfold Fallible.ensure
  split
  · exact ok ()
  · exact error h

theorem bind {f : α → Except ε β} (hx : Avoids e x) (hf : ∀ a, Avoids e (f a)) :
    Avoids e (x >>= f) := by
  rcases x with e' | a
  · exact error fun h => hx (congrArg _ h)
  · exact hf a

theorem ite {c : Prop} [Decidable c] {y : Except ε α} (hx : Avoids e x) (hy : Avoids e y) :
    Avoids e (if c then x else y) := by
  split
  · exact hx
  · exact hy

theorem forM {f : α → Except ε Unit} (hf : ∀ a, Avoids e (f a)) :
    ∀ l : List α, Avoids e (l.forM f)
  | [] => pure ()
  | a :: l => bind (hf a) fun _ => forM hf l

theorem mapError {x : Except ε' α} {f : ε' → ε} (h : ∀ e', f e' ≠ e) :
    Avoids e (x.mapError f) := by
  rcases x with e' | a
  · exact error (h e')
  · exact ok a

end Avoids

/-! ## Programs that keep an invariant -/

section Computes

variable {σ : Type} {I : σ → Prop}

/-- From the states of the invariant the program returns `a` and keeps the invariant. -/
def Computes (I : σ → Prop) (m : StateT σ (Except ε) α) (a : α) : Prop :=
  ∀ s, I s → ∃ s', m s = .ok (a, s') ∧ I s'

namespace Computes

variable {m : StateT σ (Except ε) α} {a : α}

theorem pure (a : α) : Computes I (Pure.pure a : StateT σ (Except ε) α) a :=
  fun s h => ⟨s, rfl, h⟩

theorem bind {f : α → StateT σ (Except ε) β} {b : β} (hm : Computes I m a)
    (hf : Computes I (f a) b) : Computes I (m >>= f) b := fun s h => by
  obtain ⟨s', hs, h'⟩ := hm s h
  obtain ⟨s'', hs', h''⟩ := hf s' h'
  refine ⟨s'', ?_, h''⟩
  change (m s >>= fun p => f p.1 p.2) = _
  rw [hs]
  exact hs'

/-- Reading the state, in a program that goes on the same from every state of the invariant. -/
theorem get_bind {f : σ → StateT σ (Except ε) β} {b : β}
    (hf : ∀ s, I s → Computes I (f s) b) : Computes I (get >>= f) b :=
  fun s h => hf s h s h

/-- What follows a choice is written after each of its branches. -/
theorem ite_bind {c : Prop} [Decidable c] {m m' : StateT σ (Except ε) α}
    {f : α → StateT σ (Except ε) β} {b : β} (h : Computes I (if c then m else m') a)
    (hf : Computes I (f a) b) : Computes I (if c then m >>= f else m' >>= f) b := by
  split_ifs at h ⊢ <;> exact h.bind hf

theorem ofModify {g : σ → σ} (hg : ∀ s, I s → I (g s)) :
    Computes I (modify g : StateT σ (Except ε) PUnit) ⟨⟩ :=
  fun s h => ⟨g s, rfl, hg s h⟩

end Computes

end Computes

/-! ## Programs that may fail -/

section Ensures

variable {σ : Type} {I : σ → Prop} {Q : α → Prop}

/-- From a state of the invariant the program fails, or keeps the invariant and returns a value
in `Q`. -/
def Ensures (I : σ → Prop) (m : StateT σ (Except ε) α) (Q : α → Prop) : Prop :=
  ∀ s a s', I s → m s = .ok (a, s') → I s' ∧ Q a

namespace Ensures

variable {m : StateT σ (Except ε) α}

theorem pure {a : α} (h : Q a) : Ensures I (Pure.pure a : StateT σ (Except ε) α) Q := by
  intro s b s' hs he
  cases he
  exact ⟨hs, h⟩

theorem ofThrow {e : ε} : Ensures I (throw e : StateT σ (Except ε) α) Q := by
  intro s a s' _ he
  cases he

theorem bind {P : α → Prop} {f : α → StateT σ (Except ε) β} {R : β → Prop} (hm : Ensures I m P)
    (hf : ∀ a, P a → Ensures I (f a) R) : Ensures I (m >>= f) R := by
  intro s b s'' hs he
  change (m s >>= fun p => f p.1 p.2) = _ at he
  obtain ⟨⟨a, s'⟩, hrun, he⟩ := bind_eq_ok.1 he
  obtain ⟨hs', ha⟩ := hm s a s' hs hrun
  exact hf a ha s' b s'' hs' he

/-- Reading a state that is one of the invariant. -/
theorem get_bind {f : σ → StateT σ (Except ε) α} (hf : ∀ s, I s → Ensures I (f s) Q) :
    Ensures I (get >>= f) Q :=
  fun s a s' hs he => hf s hs s a s' hs he

theorem ite {c : Prop} [Decidable c] {m' : StateT σ (Except ε) α} (h : Ensures I m Q)
    (h' : Ensures I m' Q) : Ensures I (if c then m else m') Q := by
  split
  · exact h
  · exact h'

theorem ofModify {g : σ → σ} {R : PUnit → Prop} (hg : ∀ s, I s → I (g s)) (h : R ⟨⟩) :
    Ensures I (modify g : StateT σ (Except ε) PUnit) R := by
  intro s a s' hs he
  cases he
  exact ⟨hg s hs, h⟩

/-- What follows a choice is written after each of its branches. -/
theorem ite_bind {c : Prop} [Decidable c] {m' : StateT σ (Except ε) α} {P : α → Prop}
    {f : α → StateT σ (Except ε) β} {R : β → Prop} (h : Ensures I (if c then m else m') P)
    (hf : ∀ a, P a → Ensures I (f a) R) :
    Ensures I (if c then m >>= f else m' >>= f) R := by
  split_ifs at h ⊢ <;> exact h.bind hf

end Ensures

end Ensures

end Fallible
