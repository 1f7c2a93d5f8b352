import Mathlib

/-!
# Handlers of a task

A handler changes the state of its task and may fail; what it changed before it failed stays
changed. `wp` is the weakest precondition of what is to hold when it ends well and when it fails,
with a rule for each way to build a handler. Handlers that call each other are written over a
handler for any call, and tied together with fuel.
-/

/-- A program that changes a state and may fail with an error. -/
abbrev Handler (ε σ α : Type) := ExceptT ε (StateM σ) α

namespace Handler

variable {ε σ α β ι : Type}

/-- Run from a state: how it ended, and the state it left. -/
def exec (m : Handler ε σ α) (s : σ) : Except ε α × σ := m s

/-- From `s` the handler ends well with `Q`, or fails with `E`. -/
def wp (m : Handler ε σ α) (Q : α → σ → Prop) (E : ε → σ → Prop) (s : σ) : Prop :=
  match exec m s with
  | (.ok a, s') => Q a s'
  | (.error e, s') => E e s'

theorem exec_eq_of_isOk {m : Handler ε σ Unit} {s : σ} (h : (exec m s).1.isOk = true) :
    exec m s = (.ok (), (exec m s).2) := by
  rcases hx : exec m s with ⟨_ | _, _⟩
  · rw [hx] at h
    cases h
  · rfl

/-- What holds however the handler ends holds of the state it leaves. -/
theorem wp_exec {P : σ → Prop} {m : Handler ε σ α} {s : σ} (h : wp m (fun _ => P) (fun _ => P) s) :
    P (exec m s).2 := by
  unfold wp at h
  rcases hx : exec m s with ⟨_ | _, _⟩ <;> rw [hx] at h <;> exact h

section Rules

variable {Q : α → σ → Prop} {E : ε → σ → Prop} {s : σ}

@[simp] theorem wp_pure {a : α} : wp (pure a : Handler ε σ α) Q E s ↔ Q a s := .rfl

@[simp] theorem wp_throw {e : ε} : wp (throw e : Handler ε σ α) Q E s ↔ E e s := .rfl

@[simp] theorem wp_get {Q : σ → σ → Prop} : wp (get : Handler ε σ σ) Q E s ↔ Q s s := .rfl

@[simp] theorem wp_modify {Q : PUnit → σ → Prop} {f : σ → σ} :
    wp (modify f : Handler ε σ PUnit) Q E s ↔ Q ⟨⟩ (f s) := .rfl

@[simp] theorem wp_modifyGet {f : σ → α × σ} :
    wp (modifyGet f : Handler ε σ α) Q E s ↔ Q (f s).1 (f s).2 := .rfl

theorem exec_bind (m : Handler ε σ β) (f : β → Handler ε σ α) (s : σ) :
    exec (m >>= f) s = match exec m s with
      | (.ok b, s') => exec (f b) s'
      | (.error e, s') => (.error e, s') := by
  change (ExceptT.bindCont f (exec m s).1) (exec m s).2 = _
  rcases exec m s with ⟨_ | _, _⟩ <;> rfl

@[simp] theorem wp_bind {m : Handler ε σ β} {f : β → Handler ε σ α} :
    wp (m >>= f) Q E s ↔ wp m (fun b s' => wp (f b) Q E s') E s := by
  unfold wp
  rw [exec_bind]
  rcases exec m s with ⟨_ | _, _⟩ <;> rfl

@[simp] theorem wp_map {m : Handler ε σ β} {f : β → α} :
    wp (f <$> m) Q E s ↔ wp m (fun b s' => Q (f b) s') E s := by
  rw [map_eq_pure_bind, wp_bind]
  rfl

theorem exec_tryCatch (m : Handler ε σ α) (f : ε → Handler ε σ α) (s : σ) :
    exec (tryCatch m f) s = match exec m s with
      | (.ok a, s') => (.ok a, s')
      | (.error e, s') => exec (f e) s' := by
  change exec (ExceptT.tryCatch m f) s = _
  unfold ExceptT.tryCatch exec
  change (match (m s).1 with | .ok a => pure (.ok a) | .error e => f e : StateM σ _) (m s).2 = _
  rcases m s with ⟨_ | _, _⟩ <;> rfl

@[simp] theorem wp_tryCatch {m : Handler ε σ α} {f : ε → Handler ε σ α} :
    wp (tryCatch m f) Q E s ↔ wp m Q (fun e s' => wp (f e) Q E s') s := by
  unfold wp
  rw [exec_tryCatch]
  rcases exec m s with ⟨_ | _, _⟩ <;> rfl

theorem wp_ite {c : Prop} [Decidable c] {m m' : Handler ε σ α} :
    wp (if c then m else m') Q E s ↔ (c → wp m Q E s) ∧ (¬ c → wp m' Q E s) := by
  split_ifs with h <;> simp [h]

/-- What holds at the end may be weakened. -/
theorem wp_mono {Q' : α → σ → Prop} {E' : ε → σ → Prop} {m : Handler ε σ α}
    (h : wp m Q' E' s) (hQ : ∀ a s', Q' a s' → Q a s') (hE : ∀ e s', E' e s' → E e s') :
    wp m Q E s := by
  unfold wp at h ⊢
  rcases hx : exec m s with ⟨e | a, s'⟩ <;> rw [hx] at h
  · exact hE e s' h
  · exact hQ a s' h

theorem wp_and {Q' : α → σ → Prop} {E' : ε → σ → Prop} {m : Handler ε σ α} (h : wp m Q E s)
    (h' : wp m Q' E' s) : wp m (fun a s' => Q a s' ∧ Q' a s') (fun e s' => E e s' ∧ E' e s') s := by
  unfold wp at *
  rcases hx : exec m s with ⟨_ | _, _⟩ <;> rw [hx] at h h' <;> exact ⟨h, h'⟩

/-- A loop keeps what each of its steps keeps. -/
theorem wp_forM {J : List ι → σ → Prop} {f : ι → Handler ε σ PUnit}
    (hf : ∀ i l s, J (i :: l) s → wp (f i) (fun _ s' => J l s') E s) :
    ∀ {l : List ι} {s : σ}, J l s → wp (l.forM f) (fun _ s' => J [] s') E s
  | [], _, h => h
  | i :: l, s, h => by
    change wp (f i >>= fun _ => l.forM f) _ _ s
    rw [wp_bind]
    exact wp_mono (hf i l s h) (fun _ _ h' => wp_forM hf h') fun _ _ h' => h'

/-- A loop that ends well on the first inputs goes on with the others. -/
theorem exec_forM_append {f : ι → Handler ε σ PUnit} {l' : List ι} {s' : σ} :
    ∀ {l : List ι} {s : σ}, exec (l.forM f) s = (.ok ⟨⟩, s') →
      exec ((l ++ l').forM f) s = exec (l'.forM f) s'
  | [], s, h => by
    obtain rfl : s = s' := congrArg Prod.snd h
    rfl
  | i :: l, s, h => by
    change exec (f i >>= fun _ => l.forM f) s = _ at h
    change exec (f i >>= fun _ => (l ++ l').forM f) s = _
    rw [exec_bind] at h ⊢
    rcases hi : exec (f i) s with ⟨e | ⟨⟩, t⟩ <;> rw [hi] at h
    · cases congrArg Prod.fst h
    · exact exec_forM_append h

end Rules

/-! ## Invariants -/

/-- The handler keeps each invariant `I k`, and `E k` holds where it fails. The index stands for what
the callers of the handler have in hand. -/
def Keeps {κ : Type} (I : κ → σ → Prop) (E : κ → ε → σ → Prop) (m : Handler ε σ α) : Prop :=
  ∀ k s, I k s → wp m (fun _ => I k) (E k) s

namespace Keeps

variable {κ : Type} {I : κ → σ → Prop} {E : κ → ε → σ → Prop} {m : Handler ε σ α}

theorem pure (a : α) : Keeps I E (Pure.pure a : Handler ε σ α) := fun _ _ h => h

theorem ofThrow {e : ε} (hE : ∀ k s, I k s → E k e s) : Keeps I E (throw e : Handler ε σ α) :=
  fun k s h => hE k s h

theorem ofModify {f : σ → σ} (h : ∀ k s, I k s → I k (f s)) :
    Keeps I E (modify f : Handler ε σ PUnit) := h

theorem ofModifyGet {f : σ → α × σ} (h : ∀ k s, I k s → I k (f s).2) :
    Keeps I E (modifyGet f : Handler ε σ α) := h

theorem bind {f : α → Handler ε σ β} (hm : Keeps I E m) (hf : ∀ a, Keeps I E (f a)) :
    Keeps I E (m >>= f) := fun k s h => by
  rw [wp_bind]
  exact wp_mono (hm k s h) (fun a s' h' => hf a k s' h') fun _ _ h' => h'

/-- Reading the state, in a handler that may use what it read until it changes it. -/
theorem get_bind {f : σ → Handler ε σ α}
    (hf : ∀ k s, I k s → wp (f s) (fun _ => I k) (E k) s) : Keeps I E (get >>= f) :=
  fun k s h => by
    rw [wp_bind]
    exact hf k s h

theorem ite {c : Prop} [Decidable c] {m' : Handler ε σ α} (h : c → Keeps I E m)
    (h' : ¬ c → Keeps I E m') : Keeps I E (if c then m else m') := by
  split_ifs with hc
  · exact h hc
  · exact h' hc

theorem forM {f : ι → Handler ε σ PUnit} (hf : ∀ i, Keeps I E (f i)) (l : List ι) :
    Keeps I E (l.forM f) :=
  fun k _ h => wp_forM (J := fun _ => I k) (fun i _ s hs => hf i k s hs) h

end Keeps

/-! ## Ghost states -/

/-- A relation between ghost states, each over a state, that a handler is to follow, and what may hold
where it fails. -/
structure Tracing (ε σ γ : Type) where
  proj : γ → σ
  rel : γ → γ → Prop
  fails : γ → ε → σ → Prop
  refl : ∀ x, rel x x
  trans : ∀ {x y z}, rel x y → rel y z → rel x z
  fails_of_rel : ∀ {x y e s}, rel x y → fails y e s → fails x e s

/-- From the ghost state `x` the handler follows the relation to a ghost state with `Q`. -/
def Tracing.Traces {γ : Type} (T : Tracing ε σ γ) (x : γ) (m : Handler ε σ α)
    (Q : α → γ → Prop) : Prop :=
  wp m (fun a s => ∃ y, T.proj y = s ∧ T.rel x y ∧ Q a y) (T.fails x) (T.proj x)

namespace Tracing

variable {γ : Type} {T : Tracing ε σ γ} {x y : γ} {m : Handler ε σ α} {Q : α → γ → Prop}

theorem pure {a : α} (h : Q a x) : T.Traces x (Pure.pure a) Q := ⟨x, rfl, T.refl x, h⟩

theorem ofThrow {e : ε} (h : T.fails x e (T.proj x)) :
    T.Traces x (throw e : Handler ε σ α) Q := h

theorem ofModify {Q : PUnit → γ → Prop} {f : σ → σ} (y : γ) (hy : T.proj y = f (T.proj x))
    (h : T.rel x y) (hq : Q ⟨⟩ y) : T.Traces x (modify f : Handler ε σ PUnit) Q :=
  ⟨y, hy, h, hq⟩

theorem ofModifyGet {f : σ → α × σ} (y : γ) (hy : T.proj y = (f (T.proj x)).2) (h : T.rel x y)
    (hq : Q (f (T.proj x)).1 y) : T.Traces x (modifyGet f : Handler ε σ α) Q :=
  ⟨y, hy, h, hq⟩

/-- What follows the relation from a later ghost state follows it from an earlier one. -/
theorem from_rel (hxy : T.rel x y) {s : σ}
    (h : wp m (fun a s' => ∃ z, T.proj z = s' ∧ T.rel y z ∧ Q a z) (T.fails y) s) :
    wp m (fun a s' => ∃ z, T.proj z = s' ∧ T.rel x z ∧ Q a z) (T.fails x) s :=
  wp_mono h (fun _ _ ⟨z, hz, hr, hq⟩ => ⟨z, hz, T.trans hxy hr, hq⟩)
    fun _ _ he => T.fails_of_rel hxy he

theorem bind {P : α → γ → Prop} {f : α → Handler ε σ β} {Q : β → γ → Prop}
    (hm : T.Traces x m P) (hf : ∀ a y, T.rel x y → P a y → T.Traces y (f a) Q) :
    T.Traces x (m >>= f) Q := by
  unfold Traces
  rw [wp_bind]
  refine wp_mono hm (fun a s hs => ?_) fun _ _ he => he
  obtain ⟨y, rfl, hr, hp⟩ := hs
  exact from_rel hr (hf a y hr hp)

theorem get_bind {f : σ → Handler ε σ α} (hf : T.Traces x (f (T.proj x)) Q) :
    T.Traces x (get >>= f) Q := by
  unfold Traces
  rw [wp_bind]
  exact hf

theorem mono {P : α → γ → Prop} (h : T.Traces x m P) (hq : ∀ a y, T.rel x y → P a y → Q a y) :
    T.Traces x m Q :=
  wp_mono h (fun _ _ ⟨y, hy, hr, hp⟩ => ⟨y, hy, hr, hq _ y hr hp⟩) fun _ _ he => he

theorem forM {P : List ι → γ → Prop} {f : ι → Handler ε σ PUnit}
    (hf : ∀ i l y, P (i :: l) y → T.Traces y (f i) fun _ => P l) :
    ∀ {l : List ι} {x : γ}, P l x → T.Traces x (l.forM f) fun _ => P []
  | [], _, h => pure h
  | i :: l, x, h => by
    change T.Traces x (f i >>= fun _ => l.forM f) _
    exact bind (hf i l x h) fun _ y _ hy => forM hf hy

end Tracing

/-! ## Handlers that call each other -/

/-- The handler of a call, its calls handled with less fuel. -/
def tie (body : (ι → Handler ε σ PUnit) → ι → Handler ε σ PUnit) (outOfFuel : ε) :
    ℕ → ι → Handler ε σ PUnit
  | 0, _ => throw outOfFuel
  | fuel + 1, call => body (tie body outOfFuel fuel) call

/-- A specification of every call holds if the bodies have it whenever their calls do. -/
theorem tie_spec {body : (ι → Handler ε σ PUnit) → ι → Handler ε σ PUnit} {outOfFuel : ε}
    {S : ι → Handler ε σ PUnit → Prop} (h0 : ∀ call, S call (throw outOfFuel))
    (h : ∀ rec, (∀ call, S call (rec call)) → ∀ call, S call (body rec call)) :
    ∀ fuel call, S call (tie body outOfFuel fuel call)
  | 0, call => h0 call
  | fuel + 1, call => h _ (fun call' => tie_spec h0 h fuel call') call

end Handler
