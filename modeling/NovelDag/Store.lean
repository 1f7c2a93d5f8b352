import NovelDag.Lib.FinMap

/-!
# The store

The task behind a node's store works off commands one by one. A read is answered at once. A
`notify_read` of a key that is not there becomes an obligation, met by the next write of the key.
The database is a finite map, and the sender a command came with is named by the command's place in
the order in which they are processed.
-/

namespace NovelDag

namespace Store

abbrev Key := List UInt8

abbrev Value := List UInt8

inductive StoreCommand
  | write (key : Key) (value : Value)
  | read (key : Key)
  | notifyRead (key : Key)
  deriving DecidableEq

inductive Response
  | read (value : Option Value)
  | notifyRead (value : Value)
  deriving DecidableEq

/-- A response as it is sent: during which command, on the sender of which command. -/
structure Sent where
  during : ℕ
  sender : ℕ
  response : Response
  deriving DecidableEq

structure State where
  db : FinMap Key Value := ∅
  obligations : FinMap Key (List ℕ) := ∅

/-- The command at place `now`. -/
def process (s : State) (now : ℕ) : StoreCommand → List Sent × State
  | .write key value =>
    let s := { s with db := s.db.insert key value }
    match s.obligations.lookup key with
    | some senders =>
      (senders.map fun sender => ⟨now, sender, .notifyRead value⟩,
        { s with obligations := s.obligations.erase key })
    | none => ([], s)
  | .read key => ([⟨now, now, .read (s.db.lookup key)⟩], s)
  | .notifyRead key =>
    match s.db.lookup key with
    | none =>
      ([], { s with obligations := s.obligations.alter key fun senders => senders.getD [] ++ [now] })
    | some value => ([⟨now, now, .notifyRead value⟩], s)

/-- The command loop: all responses sent, and the state it is left in. -/
def run (commands : List StoreCommand) : List Sent × State :=
  commands.zipIdx.foldl (fun r command =>
    let next := process r.2 command.2 command.1
    (r.1 ++ next.1, next.2)) ([], {})

end Store

end NovelDag
