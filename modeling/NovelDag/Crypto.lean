import NovelDag.Lib.Encoding

/-!
# Digests, keys and signatures

A digest and a public key are 32 bytes, kept as the number these bytes spell with the most
significant one first, so that numbers compare as the byte arrays do. SHA-512 (cut to 32 bytes) and
the signature scheme are parameters: `Crypto.verifies` is any predicate, and `LawfulCrypto` adds that
a signature made with a key verifies under it.
-/

namespace NovelDag

open Encoding

/-- A hash digest, 32 bytes. -/
structure Digest where
  val : Fin (2 ^ 256)
  deriving DecidableEq

/-- A public key, 32 bytes. -/
structure PublicKey where
  val : Fin (2 ^ 256)
  deriving DecidableEq

/-- Digests and keys are numbers below `2 ^ 256`. -/
instance instNeZeroValues : NeZero (2 ^ 256) := ⟨pow_ne_zero _ two_ne_zero⟩

namespace Digest

theorem val_injective : Function.Injective Digest.val := fun a b h => by
  cases a; cases b; cases h; rfl

instance : LinearOrder Digest := LinearOrder.lift' Digest.val val_injective

/-- `Digest::default()`, 32 zero bytes. -/
instance : Inhabited Digest := ⟨⟨0⟩⟩

instance (n : ℕ) : OfNat Digest n := ⟨⟨Fin.ofNat (2 ^ 256) n⟩⟩

def bytes (d : Digest) : List UInt8 := beBytes 32 d.val

@[simp] theorem length_bytes (d : Digest) : d.bytes.length = 32 := length_beBytes _ _

theorem bytes_injective : Function.Injective bytes := fun a b h =>
  val_injective (Fin.ext (beBytes_inj (a.val.isLt.trans_eq (by norm_num))
    (b.val.isLt.trans_eq (by norm_num)) h))

end Digest

namespace PublicKey

theorem val_injective : Function.Injective PublicKey.val := fun a b h => by
  cases a; cases b; cases h; rfl

instance : LinearOrder PublicKey := LinearOrder.lift' PublicKey.val val_injective

instance : Inhabited PublicKey := ⟨⟨0⟩⟩

instance (n : ℕ) : OfNat PublicKey n := ⟨⟨Fin.ofNat (2 ^ 256) n⟩⟩

def bytes (k : PublicKey) : List UInt8 := beBytes 32 k.val

@[simp] theorem length_bytes (k : PublicKey) : k.bytes.length = 32 := length_beBytes _ _

theorem bytes_injective : Function.Injective bytes := fun a b h =>
  val_injective (Fin.ext (beBytes_inj (a.val.isLt.trans_eq (by norm_num))
    (b.val.isLt.trans_eq (by norm_num)) h))

end PublicKey

/-- An ed25519 signature, two parts of 32 bytes. -/
structure Signature where
  part1 : Fin (2 ^ 256)
  part2 : Fin (2 ^ 256)
  deriving DecidableEq

namespace Signature

/-- `Signature::default()`, 64 zero bytes. -/
instance : Inhabited Signature := ⟨⟨0, 0⟩⟩

def toBytes (s : Signature) : List UInt8 := beBytes 32 s.part1 ++ beBytes 32 s.part2

@[simp] theorem length_toBytes (s : Signature) : s.toBytes.length = 64 := by simp [toBytes]

theorem toBytes_injective : Function.Injective toBytes := fun a b h => by
  obtain ⟨h₁, h₂⟩ := List.append_inj h (by simp)
  have hlt : ∀ n : Fin (2 ^ 256), (n : ℕ) < 256 ^ 32 := fun n => n.isLt.trans_eq (by norm_num)
  have e₁ : a.part1 = b.part1 := Fin.ext (beBytes_inj (hlt _) (hlt _) h₁)
  have e₂ : a.part2 = b.part2 := Fin.ext (beBytes_inj (hlt _) (hlt _) h₂)
  cases a; cases b; cases e₁; cases e₂; rfl

/-- `Signature::from_bytes`. What it refuses of 64 bytes does not verify either. -/
def fromBytes (bytes : List UInt8) : Option Signature :=
  let value (l : List UInt8) := l.foldl (fun acc b => 256 * acc + b.toNat) 0
  if bytes.length = 64 then
    some ⟨Fin.ofNat _ (value (bytes.take 32)), Fin.ofNat _ (value (bytes.drop 32))⟩
  else none

theorem fromBytes_toBytes (s : Signature) : fromBytes s.toBytes = some s := by
  have hlt : ∀ n : Fin (2 ^ 256), (n : ℕ) < 256 ^ 32 := fun n => n.isLt.trans_eq (by norm_num)
  have hread : ∀ n : Fin (2 ^ 256), Fin.ofNat (2 ^ 256) (beValue (beBytes 32 n)) = n := fun n => by
    rw [beValue_beBytes (hlt n)]
    exact Fin.ext (Nat.mod_eq_of_lt n.isLt)
  unfold fromBytes
  rw [if_pos s.length_toBytes]
  simp only [foldl_eq_beValue, toBytes]
  rw [List.take_left' (length_beBytes _ _), List.drop_left' (length_beBytes _ _), hread, hread]

end Signature

/-- The hash function and the signature scheme. -/
class Crypto where
  /-- The first 32 bytes of SHA-512. -/
  sha512 : List UInt8 → Digest
  /-- What the signature service of a key's owner answers. -/
  sign : PublicKey → Digest → Signature
  /-- `Signature::verify` returns `Ok`. -/
  verifies : Signature → Digest → PublicKey → Bool

/-- A signature verifies under the key that made it. -/
class LawfulCrypto [Crypto] : Prop where
  verifies_sign : ∀ (k : PublicKey) (d : Digest), Crypto.verifies (Crypto.sign k d) d k = true

/-- A small hash and signature scheme, to evaluate the definitions with. -/
@[reducible] def toyCrypto : Crypto where
  sha512 bytes := ⟨Fin.ofNat _
    (bytes.foldl (fun acc b => (acc * 257 + b.toNat + 1) % (2 ^ 255 - 19)) 7)⟩
  sign key digest := ⟨key.val, digest.val⟩
  verifies signature digest key := decide (signature = ⟨key.val, digest.val⟩)

theorem toyCrypto_lawful : @LawfulCrypto toyCrypto :=
  @LawfulCrypto.mk toyCrypto fun _ _ => decide_eq_true rfl

/-- `Signature::verify_batch_digests`: every signature verifies over its own digest. -/
def verifyBatchDigests [Crypto] (sigs : List (Digest × PublicKey × Signature)) : Bool :=
  sigs.all fun e => Crypto.verifies e.2.2 e.1 e.2.1

end NovelDag
