import NovelDag.WorkerMessages
import NovelDag.Lib.Decoding
import NovelDag.Proofs.Keys

/-!
# An encoding of worker messages

To evaluate the definitions with: the number of the variant in four bytes, the length of a sequence in
eight, a digest as its 32 bytes, and a key as a string.
-/

namespace NovelDag

open Encoding

namespace WorkerMessage

/-- A sequence of bytes, a transaction or the text of a key. -/
def vecBytes (bytes : List UInt8) : List UInt8 := sized 8 (fun b => [b]) bytes

def readVec : Reader (List UInt8) := readSized 8 readByte

def readDigest : Reader Digest := fun bytes => do
  let (array, bytes) ← readList readByte 32 bytes
  return (⟨Fin.ofNat _ (beValue array)⟩, bytes)

/-- The number of the variant in four bytes, and its fields. -/
def write [Base64Engine] : WorkerMessage → List UInt8
  | .batch transactions => leBytes 4 0 ++ sized 8 vecBytes transactions
  | .batchRequest missing origin =>
    leBytes 4 1 ++ (sized 8 Digest.bytes missing ++ vecBytes origin.encodeBase64.toUTF8.data.toList)

/-- `String::deserialize` and then `PublicKey::deserialize`, on the bytes of the string. -/
def readOrigin [Base64Engine] (bytes : List UInt8) : Option (Except Unit PublicKey) :=
  match String.fromUTF8? ⟨bytes.toArray⟩ with
  | none => some (.error ())
  | some s => (PublicKey.deserialize s).map fun result => result.mapError fun _ => ()

/-- The fields of the second variant. -/
def readRequest [Base64Engine] (bytes : List UInt8) : Option (Except Unit WorkerMessage) :=
  match readSized 8 readDigest bytes with
  | none => some (.error ())
  | some (missing, bytes) =>
    match readVec bytes with
    | none => some (.error ())
    | some (origin, _) => (readOrigin origin).map fun result => result.map (batchRequest missing)

def read [Base64Engine] (bytes : List UInt8) : Option (Except Unit WorkerMessage) :=
  match readInt 4 bytes with
  | some (0, bytes) =>
    match readSized 8 readVec bytes with
    | none => some (.error ())
    | some (transactions, _) => some (.ok (batch transactions))
  | some (1, bytes) => readRequest bytes
  | _ => some (.error ())

variable {bytes : List UInt8} {transactions : Batch}

theorem reads_vec :
    Reads (fun l : List UInt8 => l.length < 256 ^ 8 ∧ ∀ b ∈ l, True) vecBytes readVec :=
  Reads.byte.sized 8

theorem reads_batch : Reads (fun l : Batch => l.length < 256 ^ 8 ∧
    ∀ t ∈ l, t.length < 256 ^ 8 ∧ ∀ b ∈ t, True) (sized 8 vecBytes) (readSized 8 readVec) :=
  reads_vec.sized 8

theorem readRequest_ne_batch [Base64Engine] :
    readRequest bytes ≠ some (.ok (.batch transactions)) := by
  unfold readRequest
  rcases readSized 8 readDigest bytes with _ | ⟨missing, bytes'⟩
  · simp
  · simp only []
    rcases readVec bytes' with _ | ⟨origin, rest⟩
    · simp
    · simp only []
      rcases readOrigin origin with _ | (e | key) <;> simp [Except.map]

/-- What is read as a batch is what is written for it, and anything behind that. -/
theorem read_batch_iff [Base64Engine] : read bytes = some (.ok (.batch transactions)) ↔
    Fits transactions ∧ ∃ rest, bytes = write (.batch transactions) ++ rest := by
  constructor
  · intro h
    unfold read at h
    split at h
    · next bytes' hvariant =>
      obtain ⟨-, rfl⟩ := (Reads.int 4).only _ _ _ hvariant
      split at h
      · simp at h
      · next transactions' rest hread =>
        obtain ⟨⟨hlen, hfits⟩, rfl⟩ := reads_batch.only _ _ _ hread
        obtain rfl : transactions' = transactions := by simpa using h
        refine ⟨⟨hlen, fun t ht => (hfits t ht).1⟩, rest, ?_⟩
        rw [write, List.append_assoc]
    · exact absurd h readRequest_ne_batch
    · simp at h
  · rintro ⟨hfits, rest, rfl⟩
    have hvariant := (Reads.int 4).back 0 (by norm_num) (sized 8 vecBytes transactions ++ rest)
    have hread := reads_batch.back transactions
      ⟨hfits.1, fun t ht => ⟨hfits.2 t ht, fun _ _ => trivial⟩⟩ rest
    unfold read
    rw [write, List.append_assoc, hvariant]
    simp only []
    rw [hread]

end WorkerMessage

/-- The encoding with the standard one of keys. -/
@[reducible] def standardBincode : Bincode :=
  letI := standardBase64
  { serialize := WorkerMessage.write, deserialize := WorkerMessage.read }

theorem standardBincode_lawful : @LawfulBincode standardBincode :=
  letI := standardBase64
  @LawfulBincode.mk standardBincode
    (fun _ rest h => WorkerMessage.read_batch_iff.2 ⟨h, rest, rfl⟩)
    fun _ _ h => (WorkerMessage.read_batch_iff.1 h).2

end NovelDag
