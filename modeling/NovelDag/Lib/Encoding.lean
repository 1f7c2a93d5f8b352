import Mathlib

/-!
# Encodings read back

Integers as bytes, and encodings that can be read off the front of a byte string by whoever knows
the layout: when the strings `f a ++ r` and `f b ++ s` are equal and `a` and `b` have one layout,
`a = b` and `r = s`.
-/

namespace Encoding

variable {α β γ : Type*}

/-- The low `w` bytes of `n`, least significant first. -/
def leBytes : ℕ → ℕ → List UInt8
  | 0, _ => []
  | w + 1, n => UInt8.ofNat n :: leBytes w (n / 256)

/-- The low `w` bytes of `n`, most significant first. -/
def beBytes (w n : ℕ) : List UInt8 := (leBytes w n).reverse

@[simp] theorem length_leBytes : ∀ w n : ℕ, (leBytes w n).length = w
  | 0, _ => rfl
  | w + 1, n => by rw [leBytes, List.length_cons, length_leBytes w]

@[simp] theorem length_beBytes (w n : ℕ) : (beBytes w n).length = w := by simp [beBytes]

theorem leBytes_inj : ∀ {w m n : ℕ}, m < 256 ^ w → n < 256 ^ w → leBytes w m = leBytes w n → m = n
  | 0, m, n, hm, hn, _ => by simp at hm hn; omega
  | w + 1, m, n, hm, hn, h => by
    rw [pow_succ] at hm hn
    rw [leBytes, leBytes, List.cons.injEq] at h
    have hlow : m % 256 = n % 256 := by simpa using congrArg UInt8.toNat h.1
    have hhigh : m / 256 = n / 256 :=
      leBytes_inj (Nat.div_lt_of_lt_mul (by omega)) (Nat.div_lt_of_lt_mul (by omega)) h.2
    omega

theorem beBytes_inj {w m n : ℕ} (hm : m < 256 ^ w) (hn : n < 256 ^ w)
    (h : beBytes w m = beBytes w n) : m = n :=
  leBytes_inj hm hn (List.reverse_injective h)

/-- The number of a byte string, least significant byte first. -/
def leValue : List UInt8 → ℕ
  | [] => 0
  | b :: bytes => b.toNat + 256 * leValue bytes

/-- The number of a byte string, most significant byte first. -/
def beValue (bytes : List UInt8) : ℕ := leValue bytes.reverse

theorem leValue_lt : ∀ bytes : List UInt8, leValue bytes < 256 ^ bytes.length
  | [] => by simp [leValue]
  | b :: bytes => by
    have hb := b.toNat_lt
    have ih := leValue_lt bytes
    rw [leValue, List.length_cons, pow_succ]
    omega

theorem leBytes_leValue : ∀ bytes : List UInt8, leBytes bytes.length (leValue bytes) = bytes
  | [] => rfl
  | b :: bytes => by
    have hb := b.toNat_lt
    have hdiv : (b.toNat + 256 * leValue bytes) / 256 = leValue bytes := by omega
    have hlow : UInt8.ofNat (b.toNat + 256 * leValue bytes) = b := by
      apply UInt8.toNat_inj.1
      rw [UInt8.toNat_ofNat']
      omega
    rw [leValue, List.length_cons, leBytes, hdiv, hlow, leBytes_leValue bytes]

theorem beValue_lt (bytes : List UInt8) : beValue bytes < 256 ^ bytes.length := by
  simpa [beValue] using leValue_lt bytes.reverse

theorem beBytes_beValue (bytes : List UInt8) : beBytes bytes.length (beValue bytes) = bytes := by
  have h := leBytes_leValue bytes.reverse
  rw [List.length_reverse] at h
  rw [beBytes, beValue, h, List.reverse_reverse]

theorem beValue_beBytes {w n : ℕ} (h : n < 256 ^ w) : beValue (beBytes w n) = n := by
  have hlt := beValue_lt (beBytes w n)
  have hbytes := beBytes_beValue (beBytes w n)
  rw [length_beBytes] at hlt hbytes
  exact beBytes_inj hlt h hbytes

theorem foldl_eq_beValue (bytes : List UInt8) :
    bytes.foldl (fun acc b => 256 * acc + b.toNat) 0 = beValue bytes := by
  induction bytes using List.reverseRecOn with
  | nil => rfl
  | append_singleton bytes b ih =>
    rw [List.foldl_concat, ih, beValue, beValue, List.reverse_append, List.reverse_singleton,
      List.singleton_append, leValue, Nat.add_comm]

/-- Two values of one layout are read alike off the front of equal strings. -/
def Readable (L : α → α → Prop) (f : α → List UInt8) : Prop :=
  ∀ a b r s, L a b → f a ++ r = f b ++ s → a = b ∧ r = s

namespace Readable

variable {L : α → α → Prop} {f : α → List UInt8}

theorem of_length (hlen : ∀ a b, L a b → (f a).length = (f b).length)
    (hinj : ∀ a b, L a b → f a = f b → a = b) : Readable L f := fun a b r s hL h => by
  obtain ⟨hf, hr⟩ := List.append_inj h (hlen a b hL)
  exact ⟨hinj a b hL hf, hr⟩

/-- A string whose length is known. -/
theorem bytes : Readable (fun a b : List UInt8 => a.length = b.length) id :=
  of_length (fun _ _ h => h) fun _ _ _ h => h

/-- An integer of known width. -/
theorem leBytes (w : ℕ) : Readable (fun m n => m < 256 ^ w ∧ n < 256 ^ w) (leBytes w) :=
  of_length (fun _ _ _ => by simp) fun _ _ h => leBytes_inj h.1 h.2

theorem mono {L' : α → α → Prop} (h : Readable L f) (hL : ∀ a b, L' a b → L a b) :
    Readable L' f := fun a b r s hab => h a b r s (hL a b hab)

theorem pair {M : β → β → Prop} {g : β → List UInt8} (hf : Readable L f) (hg : Readable M g) :
    Readable (fun a b : α × β => L a.1 b.1 ∧ M a.2 b.2) fun a => f a.1 ++ g a.2 :=
  fun a b r s hab h => by
    rw [List.append_assoc, List.append_assoc] at h
    obtain ⟨h₁, h⟩ := hf _ _ _ _ hab.1 h
    obtain ⟨h₂, h⟩ := hg _ _ _ _ hab.2 h
    exact ⟨Prod.ext h₁ h₂, h⟩

/-- A list of known length, entry by entry. -/
theorem list (hf : Readable L f) : Readable (List.Forall₂ L) fun l => l.flatMap f :=
  fun a b r s hab h => by
    induction hab with
    | nil => exact ⟨rfl, h⟩
    | cons hab _ ih =>
      simp only [List.flatMap_cons, List.append_assoc] at h ih
      obtain ⟨h₁, h⟩ := hf _ _ _ _ hab h
      obtain ⟨h₂, h⟩ := ih h
      exact ⟨by rw [h₁, h₂], h⟩

/-- An optional part behind its own marker, before a rest that does not begin with the marker. -/
theorem option (hf : Readable L f) {marker : List UInt8} {o o' : Option α} {r s : List UInt8}
    (hL : ∀ a b, o = some a → o' = some b → L a b) (hr : ¬ marker <+: r) (hs : ¬ marker <+: s)
    (h : (o.elim [] fun a => marker ++ f a) ++ r = (o'.elim [] fun a => marker ++ f a) ++ s) :
    o = o' ∧ r = s := by
  rcases o with _ | a <;> rcases o' with _ | b <;>
    simp only [Option.elim_none, Option.elim_some, List.nil_append, List.append_assoc] at h
  · exact ⟨rfl, h⟩
  · exact absurd (h ▸ List.prefix_append marker _) hr
  · exact absurd (h ▸ List.prefix_append marker _) hs
  · obtain ⟨hab, hrs⟩ := hf a b r s (hL a b rfl rfl) (List.append_cancel_left h)
    exact ⟨congrArg some hab, hrs⟩

end Readable

/-- Lists whose images under `f` agree are related entry by entry. -/
theorem forall₂_of_map_eq {f : α → γ} {P : α → Prop} :
    ∀ {l l' : List α}, l.map f = l'.map f → (∀ a ∈ l, P a) → (∀ a ∈ l', P a) →
      List.Forall₂ (fun a b => P a ∧ P b ∧ f a = f b) l l'
  | [], [], _, _, _ => .nil
  | a :: l, b :: l', h, hl, hl' => by
    rw [List.map_cons, List.map_cons, List.cons.injEq] at h
    have ih := forall₂_of_map_eq h.2 (fun c hc => hl c (List.mem_cons_of_mem _ hc))
      fun c hc => hl' c (List.mem_cons_of_mem _ hc)
    exact .cons ⟨hl a List.mem_cons_self, hl' b List.mem_cons_self, h.1⟩ ih

/-- Lists of one length, entry by entry. -/
theorem forall₂_of_length {P : α → Prop} {l l' : List α} (h : l.length = l'.length)
    (hl : ∀ a ∈ l, P a) (hl' : ∀ a ∈ l', P a) : List.Forall₂ (fun a b => P a ∧ P b) l l' :=
  (forall₂_of_map_eq (f := fun _ => ()) (by simpa using congrArg (List.replicate · ()) h) hl
    hl').imp fun _ _ hab => ⟨hab.1, hab.2.1⟩

end Encoding
