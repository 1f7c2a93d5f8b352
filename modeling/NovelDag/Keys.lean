import NovelDag.Crypto

/-!
# Keys as text

Keys travel as base64 strings, in the configuration files and in every message. The encoding is that
of a package, here a parameter. What panics has no result.
-/

namespace NovelDag

open Encoding

inductive DecodeError
  | invalidByte (offset : ℕ) (byte : UInt8)
  | invalidLength
  | invalidLastSymbol (offset : ℕ) (byte : UInt8)
  deriving DecidableEq

/-- The functions of the `base64` package. -/
class Base64Engine where
  encode : List UInt8 → String
  decode : String → Except DecodeError (List UInt8)
  describe : DecodeError → String

/-- What was encoded is read back. -/
class LawfulBase64Engine [Base64Engine] : Prop where
  decode_encode : ∀ bytes : List UInt8,
    Base64Engine.decode (Base64Engine.encode bytes) = .ok bytes

/-- An array of bytes, its length part of the type. -/
abbrev ByteArrayOf (size : ℕ) := {bytes : List UInt8 // bytes.length = size}

/-- `bytes[..size]` -/
def sliceTo (bytes : List UInt8) (size : ℕ) : Option (List UInt8) :=
  if size ≤ bytes.length then some (bytes.take size) else none

/-- `bytes.try_into()` -/
def tryInto (bytes : List UInt8) (size : ℕ) : Option (ByteArrayOf size) :=
  if h : bytes.length = size then some ⟨bytes, h⟩ else none

section DecodeKey

variable [Base64Engine] {K : Type}

/-- The body both keys' `decode_base64` share. -/
def decodeKey (size : ℕ) (ofArray : ByteArrayOf size → K) (s : String) :
    Option (Except DecodeError K) :=
  match Base64Engine.decode s with
  | .error e => some (.error e)
  | .ok bytes => do
    let slice ← sliceTo bytes size
    match tryInto slice size with
    | none => return .error .invalidLength
    | some array => return .ok (ofArray array)

/-- `deserialize` of a key, the string already read. -/
def deserializeKey (decodeBase64 : String → Option (Except DecodeError K)) (s : String) :
    Option (Except String K) :=
  (decodeBase64 s).map fun result => result.mapError Base64Engine.describe

end DecodeKey

namespace PublicKey

def ofArray (array : ByteArrayOf 32) : PublicKey :=
  ⟨beValue array.1, (beValue_lt array.1).trans_eq (by rw [array.2]; norm_num)⟩

@[simp] theorem bytes_ofArray (array : ByteArrayOf 32) : (ofArray array).bytes = array.1 := by
  have h := beBytes_beValue array.1
  rwa [array.2] at h

variable [Base64Engine]

def encodeBase64 (key : PublicKey) : String := Base64Engine.encode key.bytes

def decodeBase64 (s : String) : Option (Except DecodeError PublicKey) := decodeKey 32 ofArray s

def deserialize (s : String) : Option (Except String PublicKey) := deserializeKey decodeBase64 s

end PublicKey

/-- A secret key, 64 bytes. -/
structure SecretKey where
  array : ByteArrayOf 64

namespace SecretKey

variable [Base64Engine]

def encodeBase64 (key : SecretKey) : String := Base64Engine.encode key.array.1

def decodeBase64 (s : String) : Option (Except DecodeError SecretKey) := decodeKey 64 mk s

def deserialize (s : String) : Option (Except String SecretKey) := deserializeKey decodeBase64 s

end SecretKey

end NovelDag
