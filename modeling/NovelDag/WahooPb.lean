import NovelDag.WahooVotes
import NovelDag.Lib.FinMap

/-!
# Provable broadcast

The broadcast of the even rounds of Wahoo. A block is proposed, voted on, certified by its proposer
and handed on once its certificate is there. What is to be sent is returned as actions.
-/

namespace NovelDag.Wahoo

inductive PbAction
  | sendVote (target : PublicKey) (vote : Vote)
  | broadcastCertificate (certificate : Certificate)
  | outputBlock (block : Header)

/-- The maps by round and author have the pair for their key; a map to `bool` that only ever holds
`true` is the set of its keys. -/
structure Pb where
  pendingBlocks : FinMap (ℕ × PublicKey) Header := ∅
  pendingCertificates : FinMap (ℕ × PublicKey) Certificate := ∅
  pendingVote : FinMap (ℕ × PublicKey) WahooVotesAggregator := ∅
  blockOutput : Finset (ℕ × PublicKey) := ∅
  block2Send : Finset ℕ := ∅

def isPbcVoteComplete (block : Header) : Bool := block.wahooTag = some .pbcVoteComplete

namespace Pb

def storeBlockMsg (pb : Pb) (block : Header) : Pb :=
  { pb with pendingBlocks := pb.pendingBlocks.alter (block.round, block.author) fun b =>
      b.getD block }

/-- The proposer starts the broadcast of its block. -/
def broadcastBlock (pb : Pb) (block : Header) : Pb := pb.storeBlockMsg block

def storeCertificate (pb : Pb) (certificate : Certificate) : Pb :=
  { pb with pendingCertificates :=
      pb.pendingCertificates.insert (certificate.round, certificate.origin) certificate }

/-- The block of a round and an author, if it is to be handed on now. -/
def tryToOutput (pb : Pb) (round : ℕ) (sender : PublicKey) : Pb × Option Header :=
  if (round, sender) ∈ pb.blockOutput then (pb, none)
  else
    match pb.pendingBlocks.lookup (round, sender) with
    | none => (pb, none)
    | some block =>
      if (pb.pendingCertificates.lookup (round, sender)).isSome ∨ round ∈ pb.block2Send then
        ({ pb with blockOutput := insert (round, sender) pb.blockOutput }, some block)
      else (pb, none)

/-- `tryToOutput` hands on a block that it has not handed on before, or nothing. -/
theorem tryToOutput_cases (pb : Pb) (round : ℕ) (sender : PublicKey) :
    pb.tryToOutput round sender = (pb, none) ∨
      ∃ block, pb.pendingBlocks.lookup (round, sender) = some block ∧
        (round, sender) ∉ pb.blockOutput ∧ pb.tryToOutput round sender =
          ({ pb with blockOutput := insert (round, sender) pb.blockOutput }, some block) := by
  unfold tryToOutput
  by_cases hout : (round, sender) ∈ pb.blockOutput
  · exact .inl (if_pos hout)
  · rw [if_neg hout]
    rcases hb : pb.pendingBlocks.lookup (round, sender) with _ | block
    · exact .inl rfl
    · simp only []
      split_ifs
      · exact .inr ⟨block, rfl, hout, rfl⟩
      · exact .inl rfl

/-- `tryToOutput` with its block as an action. -/
def outputActions (pb : Pb) (round : ℕ) (sender : PublicKey) : Pb × List PbAction :=
  ((pb.tryToOutput round sender).1,
    ((pb.tryToOutput round sender).2.map PbAction.outputBlock).toList)

def handleCertificate (pb : Pb) (certificate : Certificate) : Pb × List PbAction :=
  let round := certificate.round
  let sender := certificate.origin
  let pb := { pb with
    pendingBlocks := pb.pendingBlocks.insert (round, sender) certificate.header }
  (pb.storeCertificate certificate).outputActions round sender

/-- The votes the proposer of a block has got, this one with them. -/
def appendVote (committee : Committee) (pb : Pb) (vote : Vote) (header : Header) :
    Pb × Option WahooQuorum :=
  let key := (vote.round, vote.origin)
  let aggregator := (pb.pendingVote.lookup key).getD {}
  match aggregator.append committee vote header with
  | .ok (aggregator, quorum) =>
    ({ pb with pendingVote := pb.pendingVote.insert key aggregator }, quorum)
  | .error _ => ({ pb with pendingVote := pb.pendingVote.insert key aggregator }, none)

def handleVote (committee : Committee) (pb : Pb) (vote : Vote) : Pb × List PbAction :=
  let round := vote.round
  let origin := vote.origin
  match pb.pendingBlocks.lookup (round, origin) with
  | none => (pb, [])
  | some header =>
    match pb.appendVote committee vote header with
    | (pb, some { phase := .pbc, certificate }) =>
      if round ∈ pb.block2Send then pb.outputActions round origin
      else
        let pb := { pb with block2Send := insert round pb.block2Send }
        let (pb, actions) := (pb.storeCertificate certificate).outputActions round origin
        (pb, .broadcastCertificate certificate :: actions)
    | (pb, _) => (pb, [])

variable [Crypto]

def handleBlock (name : PublicKey) (pb : Pb) (block : Header) : Pb × List PbAction :=
  if isPbcVoteComplete block then (pb, [])
  else
    let round := block.round
    let sender := block.author
    let pb := pb.storeBlockMsg block
    let vote : Vote := { id := block.digest, round, voterRound := round, origin := sender,
                         author := name, wahooPhase := some .pbc }
    if (pb.pendingCertificates.lookup (round, sender)).isSome then
      let (pb, actions) := pb.outputActions round sender
      (pb, .sendVote sender vote :: actions)
    else (pb, [.sendVote sender vote])

end Pb

end NovelDag.Wahoo
