import NovelDag.Crypto

/-!
# The messages between workers

A batch, or a request for batches. They travel in the encoding of the `bincode` package, here a
parameter. What panics has no result, and errors are not told apart.
-/

namespace NovelDag

abbrev Transaction := List UInt8

abbrev Batch := List Transaction

inductive WorkerMessage
  | batch (batch : Batch)
  | batchRequest (missing : List Digest) (origin : PublicKey)
  deriving DecidableEq

/-- Lengths that are machine integers. -/
def WorkerMessage.Fits (transactions : Batch) : Prop :=
  transactions.length < 256 ^ 8 ∧ ∀ t ∈ transactions, t.length < 256 ^ 8

/-- The functions of the `bincode` package, at the messages between workers. -/
class Bincode where
  serialize : WorkerMessage → List UInt8
  deserialize : List UInt8 → Option (Except Unit WorkerMessage)

/-- A batch that was written is read back, and only what is written for a batch is read as one. Bytes
behind a message are ignored. -/
class LawfulBincode [Bincode] : Prop where
  deserialize_batch : ∀ (transactions : Batch) (rest : List UInt8), WorkerMessage.Fits transactions →
    Bincode.deserialize (Bincode.serialize (.batch transactions) ++ rest) =
      some (.ok (.batch transactions))
  of_deserialize_batch : ∀ (bytes : List UInt8) (transactions : Batch),
    Bincode.deserialize bytes = some (.ok (.batch transactions)) →
      ∃ rest, bytes = Bincode.serialize (.batch transactions) ++ rest

end NovelDag
