import NovelDag.WahooPb
import NovelDag.Proofs.Aggregators

/-!
# The certificate of a proposer

A proposer of an even round collects the votes on its proposal and publishes the certificate. Votes
on the proposals of others are collected too, but that the certificate has been sent is remembered
for the round alone. So the proposer publishes its certificate, with the vote that brings the stake
of the voters to a quorum, as long as no proposal of another is completed first, and as long as its
own proposal is not replaced.
-/

namespace NovelDag.Wahoo

open Answers Fallible WahooVotesAggregator

/-! ## Votes appended -/

section Append

variable {committee : Committee} {header : Header} {a : WahooVotesAggregator} {v : Vote}

/-- A vote that is taken names the header and has a phase. -/
theorem names_of_append {a' : WahooVotesAggregator} {out : Option WahooQuorum}
    (h : a.append committee v header = .ok (a', out)) :
    Names header v ∧ ∃ phase, v.wahooPhase = some phase := by
  unfold append at h
  obtain ⟨hid, h⟩ := check_bind_eq_ok.1 h
  obtain ⟨hround, h⟩ := check_bind_eq_ok.1 h
  obtain ⟨horigin, h⟩ := check_bind_eq_ok.1 h
  obtain ⟨phase, hphase, -⟩ := bind_eq_ok.1 h
  refine ⟨⟨by simpa using hid, by simpa using hround, by simpa using horigin⟩, phase, ?_⟩
  rcases hp : v.wahooPhase with _ | phase' <;> rw [hp] at hphase <;> cases hphase
  rfl

/-- The bucket of its phase decides. -/
theorem append_of_names {phase : WahooVotePhase} (h : Names header v)
    (hp : v.wahooPhase = some phase) :
    a.append committee v header =
      match (a.bucket phase).append committee v (phaseThreshold committee phase) with
      | .ok (b, votes) => .ok (a.setBucket b phase,
          votes.map fun votes => { phase, certificate := { header, votes } })
      | .error e => .error e := by
  obtain ⟨hid, hround, horigin⟩ := h
  simp only [append, Fallible.ensure, hid, hround, horigin, hp, decide_true, if_true,
    Option.elim_some, Bind.bind, Except.bind]
  rcases (a.bucket phase).append committee v (phaseThreshold committee phase) with
    e | ⟨b, votes⟩ <;> rfl

/-- The vote fills the bucket of the broadcast. -/
def Fills (committee : Committee) (b : PhaseBucket) (author : PublicKey) : Prop :=
  b.done = false ∧ author ∉ b.used ∧ committee.quorumThreshold ≤ b.weight + committee.stake author

/-- A vote of the broadcast on the header counts its author once, and makes a certificate when it
fills the bucket. -/
theorem append_pbc (committee : Committee) (a : WahooVotesAggregator) (h : Names header v)
    (hp : v.wahooPhase = some .pbc) :
    (Fills committee a.pbc v.author ∧ ∃ a' votes, a.append committee v header =
      .ok (a', some { phase := .pbc, certificate := { header, votes } })) ∨
    (¬ Fills committee a.pbc v.author ∧ a.pbc.done = false ∧ v.author ∉ a.pbc.used ∧
      a.append committee v header = .ok ({ a with pbc := {
        weight := a.pbc.weight + committee.stake v.author, votes := a.pbc.votes ++ [v]
        used := v.author :: a.pbc.used, done := false } }, none)) ∨
    (¬ Fills committee a.pbc v.author ∧ (a.pbc.done = true ∨ v.author ∈ a.pbc.used) ∧
      (a.append committee v header = .ok (a, none) ∨
        ∃ e, a.append committee v header = .error e)) := by
  rw [append_of_names h hp]
  unfold Fills PhaseBucket.append
  simp only [bucket, setBucket, phaseThreshold]
  by_cases hd : a.pbc.done = true
  · simp [hd]
  by_cases hu : v.author ∈ a.pbc.used
  · simp [hd, hu]
  by_cases hw : committee.quorumThreshold ≤ a.pbc.weight + committee.stake v.author
  · simp [hd, hu, hw]
  · simp [hd, hu, hw]

/-- Other votes leave the bucket of the broadcast alone, and make no certificate for it. -/
theorem append_of_not_pbc (h : ¬ (Names header v ∧ v.wahooPhase = some .pbc))
    {a' : WahooVotesAggregator} {out : Option WahooQuorum}
    (ha : a.append committee v header = .ok (a', out)) :
    a'.pbc = a.pbc ∧ ∀ q ∈ out, q.phase ≠ .pbc := by
  obtain ⟨hnames, phase, hp⟩ := names_of_append ha
  have hne : phase ≠ .pbc := fun hphase => h ⟨hnames, hphase ▸ hp⟩
  rw [append_of_names hnames hp] at ha
  rcases happ : (a.bucket phase).append committee v (phaseThreshold committee phase) with
    e | ⟨b, votes⟩
  · rw [happ] at ha
    cases ha
  · rw [happ] at ha
    cases ha
    refine ⟨?_, fun q hq => ?_⟩
    · have := bucket_setBucket a b phase .pbc
      rwa [if_neg hne.symm] at this
    · obtain ⟨l, -, rfl⟩ := Option.map_eq_some_iff.1 hq
      exact hne

end Append

/-! ## Calls -/

/-- What the node calls. -/
inductive PbCall
  | broadcastBlock (block : Header)
  | handleBlock (block : Header)
  | handleVote (vote : Vote)
  | handleCertificate (certificate : Certificate)

/-- The certificates to be sent. -/
def broadcasts (actions : List PbAction) : List Certificate :=
  actions.filterMap fun
    | .broadcastCertificate certificate => some certificate
    | _ => none

namespace Pb

/-- The votes of the broadcast on the block of a round and an author. -/
def bucketAt (pb : Pb) (key : ℕ × PublicKey) : PhaseBucket :=
  ((pb.pendingVote.lookup key).getD {}).pbc

/-- The vote is one of the broadcast, on the block that is there for its round and author. -/
def Supports (pb : Pb) (v : Vote) (header : Header) : Prop :=
  pb.pendingBlocks.lookup (v.round, v.origin) = some header ∧ Names header v ∧
    v.wahooPhase = some .pbc

/-- The vote brings the stake of the voters on its block to a quorum. -/
def Completes (committee : Committee) (pb : Pb) (v : Vote) : Prop :=
  (∃ header, pb.Supports v header) ∧ Fills committee (pb.bucketAt (v.round, v.origin)) v.author

theorem broadcasts_outputActions (pb : Pb) (round : ℕ) (sender : PublicKey) :
    broadcasts (pb.outputActions round sender).2 = [] := by
  unfold outputActions broadcasts
  rcases (pb.tryToOutput round sender).2 with _ | block <;> rfl

/-- Handing on a block changes only what has been handed on. -/
theorem outputActions_fst (pb : Pb) (round : ℕ) (sender : PublicKey) :
    (pb.outputActions round sender).1.pendingBlocks = pb.pendingBlocks ∧
      (pb.outputActions round sender).1.pendingVote = pb.pendingVote ∧
      (pb.outputActions round sender).1.block2Send = pb.block2Send := by
  rcases tryToOutput_cases pb round sender with h | ⟨block, -, -, h⟩ <;>
    simp [outputActions, h]

/-- What a vote does. -/
structure Voted (committee : Committee) (pb : Pb) (v : Vote) (pb' : Pb)
    (actions : List PbAction) : Prop where
  blocks : pb'.pendingBlocks = pb.pendingBlocks
  others : ∀ key ≠ (v.round, v.origin), pb'.bucketAt key = pb.bucketAt key
  /-- A vote that completes a quorum sends the certificate, the first of its round. -/
  completes : ∀ header, pb.Supports v header →
    Fills committee (pb.bucketAt (v.round, v.origin)) v.author →
      v.round ∈ pb'.block2Send ∧ (∀ r ≠ v.round, r ∈ pb'.block2Send ↔ r ∈ pb.block2Send) ∧
      (v.round ∈ pb.block2Send → broadcasts actions = []) ∧
      (v.round ∉ pb.block2Send → ∃ votes, broadcasts actions = [{ header, votes }])
  otherwise : ¬ pb.Completes committee v →
    pb'.block2Send = pb.block2Send ∧ broadcasts actions = []
  /-- A vote short of a quorum counts its author. -/
  counts : ¬ pb.Completes committee v → (∃ header, pb.Supports v header) →
    (pb.bucketAt (v.round, v.origin)).done = false →
    v.author ∉ (pb.bucketAt (v.round, v.origin)).used →
      (pb'.bucketAt (v.round, v.origin)).done = false ∧
      (pb'.bucketAt (v.round, v.origin)).used =
        v.author :: (pb.bucketAt (v.round, v.origin)).used ∧
      (pb'.bucketAt (v.round, v.origin)).weight =
        (pb.bucketAt (v.round, v.origin)).weight + committee.stake v.author
  /-- Any other vote counts for nothing. -/
  ignores : (¬ ∃ header, pb.Supports v header) ∨
    (pb.bucketAt (v.round, v.origin)).done = true ∨
    v.author ∈ (pb.bucketAt (v.round, v.origin)).used →
      pb'.bucketAt (v.round, v.origin) = pb.bucketAt (v.round, v.origin)

variable {committee : Committee} {pb : Pb} {v : Vote} {header : Header}

theorem bucketAt_insert (pb : Pb) (a : WahooVotesAggregator) (key key' : ℕ × PublicKey) :
    ({ pb with pendingVote := pb.pendingVote.insert key a } : Pb).bucketAt key' =
      if key' = key then a.pbc else pb.bucketAt key' := by
  unfold bucketAt
  rw [FinMap.lookup_insert_ite]
  split_ifs <;> rfl

/-- A vote that changes the bucket of its block at most, and makes no certificate. -/
theorem Voted.of_bucket {a : WahooVotesAggregator} {key : ℕ × PublicKey}
    (hkey : key = (v.round, v.origin)) (hno : ¬ pb.Completes committee v)
    (hcounts : (∃ header, pb.Supports v header) → (pb.bucketAt (v.round, v.origin)).done = false →
      v.author ∉ (pb.bucketAt (v.round, v.origin)).used →
        a.pbc.done = false ∧ a.pbc.used = v.author :: (pb.bucketAt (v.round, v.origin)).used ∧
        a.pbc.weight = (pb.bucketAt (v.round, v.origin)).weight + committee.stake v.author)
    (hignores : (¬ ∃ header, pb.Supports v header) ∨
      (pb.bucketAt (v.round, v.origin)).done = true ∨
      v.author ∈ (pb.bucketAt (v.round, v.origin)).used →
        a.pbc = pb.bucketAt (v.round, v.origin)) :
    Voted committee pb v { pb with pendingVote := pb.pendingVote.insert key a } [] := by
  subst hkey
  refine ⟨rfl, fun key hkey => ?_, fun header hs hf => absurd ⟨⟨header, hs⟩, hf⟩ hno,
    fun _ => ⟨rfl, rfl⟩, fun _ hs hd hu => ?_, fun h => ?_⟩
  · rw [bucketAt_insert, if_neg hkey]
  · rw [bucketAt_insert, if_pos rfl]
    exact hcounts hs hd hu
  · rw [bucketAt_insert, if_pos rfl]
    exact hignores h

/-- A block to vote on is not there. -/
theorem handleVote_of_none (h : pb.pendingBlocks.lookup (v.round, v.origin) = none) :
    pb.handleVote committee v = (pb, []) := by
  unfold handleVote
  simp only [h]

/-- The votes on the block of a round and an author. -/
def aggregatorAt (pb : Pb) (key : ℕ × PublicKey) : WahooVotesAggregator :=
  (pb.pendingVote.lookup key).getD {}

def setAggregator (pb : Pb) (key : ℕ × PublicKey) (a : WahooVotesAggregator) : Pb :=
  { pb with pendingVote := pb.pendingVote.insert key a }

section Append

variable (h : pb.pendingBlocks.lookup (v.round, v.origin) = some header)
include h

theorem handleVote_of_error {e : DagError}
    (ha : (pb.aggregatorAt (v.round, v.origin)).append committee v header = .error e) :
    pb.handleVote committee v =
      (pb.setAggregator (v.round, v.origin) (pb.aggregatorAt (v.round, v.origin)), []) := by
  unfold aggregatorAt at ha
  unfold handleVote
  simp only [h, appendVote, ha]
  rfl

theorem handleVote_of_ok {a : WahooVotesAggregator} {out : Option WahooQuorum}
    (ha : (pb.aggregatorAt (v.round, v.origin)).append committee v header = .ok (a, out))
    (hout : ∀ q ∈ out, q.phase ≠ .pbc) :
    pb.handleVote committee v = (pb.setAggregator (v.round, v.origin) a, []) := by
  unfold aggregatorAt at ha
  unfold handleVote
  simp only [h, appendVote, ha]
  rcases out with _ | ⟨phase, certificate⟩
  · rfl
  · have hphase := hout _ rfl
    cases phase <;> first | rfl | exact absurd rfl hphase

theorem handleVote_of_quorum {a : WahooVotesAggregator} {certificate : Certificate}
    (ha : (pb.aggregatorAt (v.round, v.origin)).append committee v header =
      .ok (a, some { phase := .pbc, certificate })) :
    pb.handleVote committee v =
      let pb' := pb.setAggregator (v.round, v.origin) a
      if v.round ∈ pb.block2Send then pb'.outputActions v.round v.origin
      else
        let out := ({ pb' with block2Send := insert v.round pb.block2Send }.storeCertificate
          certificate).outputActions v.round v.origin
        (out.1, .broadcastCertificate certificate :: out.2) := by
  unfold aggregatorAt at ha
  unfold handleVote
  simp only [h, appendVote, ha]
  rfl

end Append

theorem supports_iff (h : pb.pendingBlocks.lookup (v.round, v.origin) = some header)
    (header' : Header) : pb.Supports v header' ↔
      header' = header ∧ Names header v ∧ v.wahooPhase = some .pbc := by
  unfold Supports
  rw [h, Option.some.injEq]
  constructor
  · rintro ⟨rfl, h⟩
    exact ⟨rfl, h⟩
  · rintro ⟨rfl, h⟩
    exact ⟨rfl, h⟩

theorem voted_handleVote (committee : Committee) (pb : Pb) (v : Vote) :
    Voted committee pb v (pb.handleVote committee v).1 (pb.handleVote committee v).2 := by
  rcases hheader : pb.pendingBlocks.lookup (v.round, v.origin) with _ | header
  · have hno : ¬ ∃ header, pb.Supports v header := fun ⟨header, h, _⟩ => by
      rw [hheader] at h
      cases h
    rw [handleVote_of_none hheader]
    exact ⟨rfl, fun _ _ => rfl, fun header hs => absurd ⟨header, hs⟩ hno, fun _ => ⟨rfl, rfl⟩,
      fun _ hs => absurd hs hno, fun _ => rfl⟩
  have hsupports := supports_iff hheader
  by_cases hpbc : Names header v ∧ v.wahooPhase = some .pbc
  swap
  · -- a vote on something else leaves the bucket as it is
    have hno : ¬ ∃ header, pb.Supports v header := fun ⟨header', h⟩ => hpbc ((hsupports _).1 h).2
    have hbucket : ∀ a : WahooVotesAggregator, a.pbc = pb.bucketAt (v.round, v.origin) →
        Voted committee pb v (pb.setAggregator (v.round, v.origin) a) [] :=
      fun a ha => .of_bucket rfl (fun h => hno h.1) (fun h => absurd h hno) fun _ => ha
    rcases happ : (pb.aggregatorAt (v.round, v.origin)).append committee v header
      with e | ⟨a, out⟩
    · rw [handleVote_of_error hheader happ]
      exact hbucket _ rfl
    · obtain ⟨ha, hout⟩ := append_of_not_pbc hpbc happ
      rw [handleVote_of_ok hheader happ hout]
      exact hbucket a ha
  have hs : ∃ header, pb.Supports v header := ⟨header, (hsupports _).2 ⟨rfl, hpbc⟩⟩
  rcases append_pbc committee (pb.aggregatorAt (v.round, v.origin)) hpbc.1 hpbc.2 with
    ⟨hf, a, votes, happ⟩ | ⟨hf, hd, hu, happ⟩ | ⟨hf, hold, happ⟩
  · have hcompletes : pb.Completes committee v := ⟨hs, hf⟩
    have hold : ¬ ((¬ ∃ header, pb.Supports v header) ∨
        (pb.bucketAt (v.round, v.origin)).done = true ∨
        v.author ∈ (pb.bucketAt (v.round, v.origin)).used) := by
      rintro (h | h | h)
      · exact h hs
      · exact absurd (hf.1.symm.trans h) Bool.false_ne_true
      · exact hf.2.1 h
    have hothers : ∀ pb' : Pb,
        pb'.pendingVote = (pb.setAggregator (v.round, v.origin) a).pendingVote →
        ∀ key ≠ (v.round, v.origin), pb'.bucketAt key = pb.bucketAt key := by
      intro pb' hpb key hkey
      have hinsert := bucketAt_insert pb a (v.round, v.origin) key
      rw [if_neg hkey] at hinsert
      rw [← hinsert]
      unfold bucketAt
      rw [hpb]
      rfl
    rw [handleVote_of_quorum hheader happ]
    by_cases hsent : v.round ∈ pb.block2Send
    · simp only [hsent, if_true]
      obtain ⟨hblocks, hvotes, hsend⟩ :=
        outputActions_fst (pb.setAggregator (v.round, v.origin) a) v.round v.origin
      refine ⟨hblocks, hothers _ hvotes, fun header' hs' _ => ⟨?_, fun r _ => ?_,
        fun _ => broadcasts_outputActions _ _ _, fun h => absurd hsent h⟩,
        fun h => absurd hcompletes h, fun h => absurd hcompletes h, fun h => absurd h hold⟩
      · rw [hsend]
        exact hsent
      · rw [hsend]
        rfl
    · simp only [hsent, if_false]
      obtain ⟨hblocks, hvotes, hsend⟩ := outputActions_fst
        ({ pb.setAggregator (v.round, v.origin) a with
          block2Send := insert v.round pb.block2Send }.storeCertificate { header, votes })
        v.round v.origin
      refine ⟨hblocks, hothers _ hvotes, fun header' hs' _ => ⟨?_, fun r hr => ?_,
        fun h => absurd h hsent, fun _ => ⟨votes, ?_⟩⟩,
        fun h => absurd hcompletes h, fun h => absurd hcompletes h, fun h => absurd h hold⟩
      · rw [hsend]
        exact Finset.mem_insert_self _ _
      · rw [hsend]
        exact (Finset.mem_insert.trans (or_iff_right hr))
      · obtain ⟨rfl, -⟩ := (hsupports _).1 hs'
        have hrest := broadcasts_outputActions ({ pb.setAggregator (v.round, v.origin) a with
          block2Send := insert v.round pb.block2Send }.storeCertificate
            { header := header', votes }) v.round v.origin
        unfold broadcasts at hrest ⊢
        rw [List.filterMap_cons, hrest]
  · rw [handleVote_of_ok hheader happ (by simp)]
    refine .of_bucket rfl (fun h => hf h.2) (fun _ _ _ => ⟨rfl, rfl, rfl⟩) fun h => ?_
    rcases h with h | h | h
    · exact absurd hs h
    · exact absurd (hd.symm.trans h) Bool.false_ne_true
    · exact absurd h hu
  · have hvoted : Voted committee pb v
        (pb.setAggregator (v.round, v.origin) (pb.aggregatorAt (v.round, v.origin))) [] := by
      refine .of_bucket rfl (fun h => hf h.2) (fun _ hd hu => ?_) fun _ => rfl
      rcases hold with h | h
      · exact absurd (hd.symm.trans h) Bool.false_ne_true
      · exact absurd h hu
    rcases happ with happ | ⟨e, happ⟩
    · rw [handleVote_of_ok hheader happ (by simp)]
      exact hvoted
    · rw [handleVote_of_error hheader happ]
      exact hvoted

end Pb

/-! ## Runs -/

section Runs

variable (committee : Committee) (b : Header)

instance (v : Vote) : Decidable (Names b v) := inferInstanceAs (Decidable (_ ∧ _ ∧ _))

/-- The author of a vote of the broadcast for the proposal. -/
def voterOf : PbCall → Option PublicKey
  | .handleVote v =>
    if Names b v ∧ v.wahooPhase = some .pbc then some v.author else none
  | _ => none

/-- The votes bring the stake of the voters to a quorum. -/
def Backed (calls : List PbCall) : Prop :=
  committee.quorumThreshold ≤ committee.stakeOf (calls.filterMap (voterOf b))

instance (calls : List PbCall) : Decidable (Backed committee b calls) :=
  inferInstanceAs (Decidable (_ ≤ _))

/-- The certificates of the proposal among what is to be sent. -/
def certificatesOf (actions : List PbAction) : List Certificate :=
  (broadcasts actions).filter fun certificate => certificate.header = b

/-- The call leaves the proposal where it is, and completes no other proposal of its round. -/
def Calm (pb : Pb) : PbCall → Prop
  | .handleCertificate certificate =>
    certificate.round = b.round → certificate.origin = b.author → certificate.header = b
  | .handleVote v => v.round = b.round → v.origin ≠ b.author → ¬ pb.Completes committee v
  | _ => True

variable {committee b} {pb : Pb}

theorem lookup_storeBlockMsg {key : ℕ × PublicKey} (block : Header)
    (h : pb.pendingBlocks.lookup key = some b) :
    (pb.storeBlockMsg block).pendingBlocks.lookup key = some b := by
  unfold Pb.storeBlockMsg
  rw [FinMap.lookup_alter]
  split_ifs with hkey
  · rw [← hkey, h]
    rfl
  · exact h

/-- What every call but a vote leaves of the votes, and what it sends. -/
structure Quiet (pb : Pb) (x : PbCall) (pb' : Pb) (actions : List PbAction) : Prop where
  votes : pb'.pendingVote = pb.pendingVote
  sent : pb'.block2Send = pb.block2Send
  broadcasts : broadcasts actions = []
  /-- A block is replaced only by that of a certificate. -/
  blocks : ∀ key b, pb.pendingBlocks.lookup key = some b →
    pb'.pendingBlocks.lookup key = some b ∨ ∃ certificate, x = .handleCertificate certificate ∧
      (certificate.round, certificate.origin) = key ∧
      pb'.pendingBlocks.lookup key = some certificate.header

variable [Crypto]

def Pb.call (committee : Committee) (name : PublicKey) (pb : Pb) :
    PbCall → List PbAction × Pb
  | .broadcastBlock block => ([], pb.broadcastBlock block)
  | .handleBlock block => (pb.handleBlock name block).swap
  | .handleVote vote => (pb.handleVote committee vote).swap
  | .handleCertificate certificate => (pb.handleCertificate certificate).swap

theorem quiet_call (committee : Committee) (name : PublicKey) (pb : Pb) (x : PbCall)
    (hx : ∀ v, x ≠ .handleVote v) :
    Quiet pb x (pb.call committee name x).2 (pb.call committee name x).1 := by
  rcases x with block | block | v | certificate
  · exact ⟨rfl, rfl, rfl, fun key b h => .inl (lookup_storeBlockMsg block h)⟩
  · simp only [Pb.call, Pb.handleBlock]
    split_ifs with hcomplete hcert
    · exact ⟨rfl, rfl, rfl, fun key b h => .inl h⟩
    · obtain ⟨hblocks, hvotes, hsend⟩ := (pb.storeBlockMsg block).outputActions_fst block.round
        block.author
      refine ⟨hvotes, hsend, ?_, fun key b h => .inl ?_⟩
      · exact (pb.storeBlockMsg block).broadcasts_outputActions block.round block.author
      · refine (congrArg (·.lookup key) hblocks).trans ?_
        exact lookup_storeBlockMsg block h
    · exact ⟨rfl, rfl, rfl, fun key b h => .inl (lookup_storeBlockMsg block h)⟩
  · exact absurd rfl (hx v)
  · obtain ⟨hblocks, hvotes, hsend⟩ := (({ pb with
      pendingBlocks := pb.pendingBlocks.insert (certificate.round, certificate.origin)
        certificate.header } : Pb).storeCertificate certificate).outputActions_fst certificate.round
          certificate.origin
    refine ⟨hvotes, hsend, Pb.broadcasts_outputActions _ _ _, fun key b h => ?_⟩
    have hlookup : (pb.call committee name (.handleCertificate certificate)).2.pendingBlocks.lookup
        key = if key = (certificate.round, certificate.origin) then some certificate.header
          else pb.pendingBlocks.lookup key := by
      refine (congrArg (·.lookup key) hblocks).trans ?_
      exact FinMap.lookup_insert_ite _ _ _ _
    rw [hlookup]
    split_ifs with hkey
    · exact .inr ⟨certificate, rfl, hkey.symm, rfl⟩
    · exact .inl h

omit [Crypto] in
theorem certificatesOf_of_nil {actions : List PbAction} (h : broadcasts actions = []) :
    certificatesOf b actions = [] := by rw [certificatesOf, h, List.filter_nil]

omit [Crypto] in
/-- A certificate of the proposal is sent for a vote on it, and once. -/
theorem Pb.Voted.certificatesOf {v : Vote} {pb' : Pb} {actions : List PbAction}
    (h : Pb.Voted committee pb v pb' actions)
    (hno : ¬ pb.Supports v b ∨ b.round ∈ pb.block2Send) : certificatesOf b actions = [] := by
  by_cases hc : pb.Completes committee v
  swap
  · exact certificatesOf_of_nil (h.otherwise hc).2
  obtain ⟨⟨header, hs⟩, hf⟩ := hc
  obtain ⟨-, -, hold, hnew⟩ := h.completes header hs hf
  by_cases hsent : v.round ∈ pb.block2Send
  · exact certificatesOf_of_nil (hold hsent)
  · obtain ⟨votes, hvotes⟩ := hnew hsent
    rw [Wahoo.certificatesOf, hvotes, List.filter_cons_of_neg, List.filter_nil]
    rw [decide_eq_true_eq]
    rintro rfl
    rcases hno with hno | hno
    · exact hno hs
    · exact hsent (hs.2.1.2.1 ▸ hno)

omit [Crypto] in
/-- Rounds whose certificate has been sent stay so, and only a vote that completes a quorum makes
one of its round such. -/
theorem Pb.Voted.mem_block2Send {v : Vote} {pb' : Pb} {actions : List PbAction}
    (h : Pb.Voted committee pb v pb' actions) (r : ℕ) :
    (r ∈ pb.block2Send → r ∈ pb'.block2Send) ∧
      (r ∈ pb'.block2Send → r ∈ pb.block2Send ∨ r = v.round ∧ pb.Completes committee v) := by
  by_cases hc : pb.Completes committee v
  · obtain ⟨⟨header, hs⟩, hf⟩ := hc
    obtain ⟨hmem, hothers, -, -⟩ := h.completes header hs hf
    by_cases hr : r = v.round
    · subst hr
      exact ⟨fun _ => hmem, fun _ => .inr ⟨rfl, ⟨header, hs⟩, hf⟩⟩
    · exact ⟨(hothers r hr).2, fun h => .inl ((hothers r hr).1 h)⟩
  · rw [(h.otherwise hc).1]
    exact ⟨id, .inl⟩

/-- Once the certificate of the round has been sent there is no other. -/
theorem sent_call (committee : Committee) (name : PublicKey) (h : b.round ∈ pb.block2Send)
    (x : PbCall) :
    b.round ∈ (pb.call committee name x).2.block2Send ∧
      certificatesOf b (pb.call committee name x).1 = [] := by
  by_cases hx : ∃ v, x = .handleVote v
  · obtain ⟨v, rfl⟩ := hx
    have hv := Pb.voted_handleVote committee pb v
    exact ⟨(hv.mem_block2Send b.round).1 h, hv.certificatesOf (.inr h)⟩
  · have hq := quiet_call committee name pb x fun v hv => hx ⟨v, hv⟩
    exact ⟨hq.sent ▸ h, certificatesOf_of_nil hq.broadcasts⟩

variable (committee b) in
/-- The proposal waits for votes; those of the authors have been counted. -/
structure Waiting (pb : Pb) (authors : List PublicKey) : Prop where
  unsent : b.round ∉ pb.block2Send
  block : pb.pendingBlocks.lookup (b.round, b.author) = some b
  done : (pb.bucketAt (b.round, b.author)).done = false
  used : ∀ a, a ∈ (pb.bucketAt (b.round, b.author)).used ↔ a ∈ authors
  weight : (pb.bucketAt (b.round, b.author)).weight = committee.stakeOf authors

omit [Crypto] in
/-- What the next step of a waiting proposal is. -/
theorem Waiting.vote {authors : List PublicKey} (h : Waiting committee b pb authors) {v : Vote}
    (hv : pb.Supports v b) {pb' : Pb} {actions : List PbAction}
    (hvoted : Pb.Voted committee pb v pb' actions)
    (hlow : committee.stakeOf authors < committee.quorumThreshold) :
    if committee.quorumThreshold ≤ committee.stakeOf (authors ++ [v.author]) then
      b.round ∈ pb'.block2Send ∧ (certificatesOf b actions).length = 1
    else Waiting committee b pb' (authors ++ [v.author]) ∧ certificatesOf b actions = [] := by
  obtain ⟨hround, horigin⟩ := hv.2.1.2
  have hkey : (v.round, v.origin) = (b.round, b.author) := by rw [hround, horigin]
  rw [stakeOf_concat, ← h.weight]
  have hused := h.used v.author
  rw [← h.weight] at hlow
  by_cases hmem : v.author ∈ authors
  · -- the author has been counted
    rw [if_pos hmem, if_neg (by omega)]
    have hno : ¬ pb.Completes committee v := fun hc => hc.2.2.1 (by rw [hkey]; exact hused.2 hmem)
    have hbucket := hvoted.ignores (.inr (.inr (by rw [hkey]; exact hused.2 hmem)))
    rw [hkey] at hbucket
    refine ⟨⟨?_, ?_, ?_, fun a => ?_, ?_⟩, certificatesOf_of_nil (hvoted.otherwise hno).2⟩
    · rw [(hvoted.otherwise hno).1]
      exact h.unsent
    · rw [hvoted.blocks]
      exact h.block
    · rw [hbucket]
      exact h.done
    · rw [hbucket, h.used, List.mem_append, List.mem_singleton]
      exact ⟨.inl, fun h => h.elim id fun h => h ▸ hmem⟩
    · rw [hbucket, h.weight, stakeOf_concat, if_pos hmem]
  rw [if_neg hmem]
  have hfresh : v.author ∉ (pb.bucketAt (b.round, b.author)).used := fun h => hmem (hused.1 h)
  split_ifs with hfull
  · have hfills : Fills committee (pb.bucketAt (v.round, v.origin)) v.author := by
      rw [hkey]
      exact ⟨h.done, hfresh, hfull⟩
    obtain ⟨hsent, -, -, hnew⟩ := hvoted.completes b hv hfills
    obtain ⟨votes, hvotes⟩ := hnew (hround ▸ h.unsent)
    exact ⟨hround ▸ hsent, by simp [certificatesOf, hvotes]⟩
  · have hno : ¬ pb.Completes committee v := fun ⟨_, hf⟩ => by
      rw [hkey] at hf
      exact hfull hf.2.2
    obtain ⟨hdone, hauthors, hweight⟩ := hvoted.counts hno ⟨b, hv⟩ (by rw [hkey]; exact h.done)
      (by rw [hkey]; exact hfresh)
    rw [hkey] at hdone hauthors hweight
    refine ⟨⟨?_, ?_, hdone, fun a => ?_, ?_⟩, certificatesOf_of_nil (hvoted.otherwise hno).2⟩
    · rw [(hvoted.otherwise hno).1]
      exact h.unsent
    · rw [hvoted.blocks]
      exact h.block
    · rw [hauthors, List.mem_cons, h.used, List.mem_append, List.mem_singleton, or_comm]
    · rw [hweight, h.weight, stakeOf_concat, if_neg hmem]

omit [Crypto] in
/-- What leaves the proposal and its bucket alone leaves it waiting. -/
theorem Waiting.congr {authors : List PublicKey} (h : Waiting committee b pb authors) {pb' : Pb}
    (hsent : b.round ∉ pb'.block2Send)
    (hblock : pb'.pendingBlocks.lookup (b.round, b.author) = some b)
    (hbucket : pb'.bucketAt (b.round, b.author) = pb.bucketAt (b.round, b.author)) :
    Waiting committee b pb' authors :=
  ⟨hsent, hblock, hbucket ▸ h.done, hbucket ▸ h.used, hbucket ▸ h.weight⟩

theorem Waiting.call (name : PublicKey) {authors : List PublicKey}
    (h : Waiting committee b pb authors)
    (hlow : committee.stakeOf authors < committee.quorumThreshold) {x : PbCall}
    (hx : Calm committee b pb x) :
    if committee.quorumThreshold ≤ committee.stakeOf (authors ++ (voterOf b x).toList) then
      b.round ∈ (pb.call committee name x).2.block2Send ∧
        (certificatesOf b (pb.call committee name x).1).length = 1
    else Waiting committee b (pb.call committee name x).2 (authors ++ (voterOf b x).toList) ∧
      certificatesOf b (pb.call committee name x).1 = [] := by
  by_cases hvote : ∃ v, x = .handleVote v
  swap
  · have hq := quiet_call committee name pb x fun v hv => hvote ⟨v, hv⟩
    have hnone : voterOf b x = none := by
      rcases x with _ | _ | v | _
      · rfl
      · rfl
      · exact absurd ⟨v, rfl⟩ hvote
      · rfl
    rw [hnone, Option.toList_none, List.append_nil, if_neg (by omega)]
    refine ⟨h.congr (hq.sent ▸ h.unsent) ?_ ?_, certificatesOf_of_nil hq.broadcasts⟩
    · rcases hq.blocks _ _ h.block with hb | ⟨certificate, rfl, hkey, hb⟩
      · exact hb
      · rw [hb]
        exact congrArg some (hx (congrArg Prod.fst hkey) (congrArg Prod.snd hkey))
    · unfold Pb.bucketAt
      rw [hq.votes]
  obtain ⟨v, rfl⟩ := hvote
  have hvoted := Pb.voted_handleVote committee pb v
  by_cases hsupports : pb.Supports v b
  · have hvoter : voterOf b (.handleVote v) = some v.author := if_pos hsupports.2
    rw [hvoter, Option.toList_some]
    exact h.vote hsupports hvoted hlow
  -- a vote on something else
  have hkey : Names b v → (v.round, v.origin) = (b.round, b.author) := fun hn => by
    rw [hn.2.1, hn.2.2]
  have hvoter : voterOf b (.handleVote v) = none := if_neg fun hv =>
    hsupports ⟨by rw [hkey hv.1]; exact h.block, hv⟩
  rw [hvoter, Option.toList_none, List.append_nil, if_neg (by omega)]
  have hblock := h.block
  rw [← hvoted.blocks] at hblock
  refine ⟨h.congr (fun hmem => ?_) hblock ?_, hvoted.certificatesOf (.inl hsupports)⟩
  · rcases (hvoted.mem_block2Send b.round).2 hmem with hmem | ⟨hround, hc⟩
    · exact h.unsent hmem
    · by_cases horigin : v.origin = b.author
      · obtain ⟨⟨header, hs⟩, -⟩ := hc
        have hheader := hs.1
        rw [← hround, horigin, h.block, Option.some.injEq] at hheader
        exact hsupports (hheader ▸ hs)
      · exact hx hround.symm horigin hc
  · by_cases hsame : (v.round, v.origin) = (b.round, b.author)
    · rw [← hsame]
      refine hvoted.ignores (.inl fun ⟨header, hs⟩ => hsupports ?_)
      have hheader := hs.1
      rw [hsame, h.block, Option.some.injEq] at hheader
      exact hheader ▸ hs
    · exact hvoted.others _ (Ne.symm hsame)

variable (committee b) in
/-- Nothing has happened to a proposal that is not there yet. -/
structure Untouched (pb : Pb) : Prop where
  unsent : b.round ∉ pb.block2Send
  bucket : pb.bucketAt (b.round, b.author) = {}

variable {name : PublicKey}

/-- Until the proposal is there. -/
theorem Untouched.call {x : PbCall} (h : pb.pendingBlocks.lookup (b.round, b.author) = none →
      Untouched b pb) (hx : b.round ∈ pb.block2Send ∨ Calm committee b pb x)
    (hnone : (pb.call committee name x).2.pendingBlocks.lookup (b.round, b.author) = none) :
    pb.pendingBlocks.lookup (b.round, b.author) = none ∧
      Untouched b (pb.call committee name x).2 ∧
      certificatesOf b (pb.call committee name x).1 = [] := by
  have hold : pb.pendingBlocks.lookup (b.round, b.author) = none := by
    rcases hb : pb.pendingBlocks.lookup (b.round, b.author) with _ | block
    · rfl
    by_cases hvote : ∃ v, x = .handleVote v
    · obtain ⟨v, rfl⟩ := hvote
      have hblocks := (Pb.voted_handleVote committee pb v).blocks
      rw [← hblocks] at hb
      exact absurd (hb.symm.trans hnone) (Option.some_ne_none _)
    · have hq := quiet_call committee name pb x fun v hv => hvote ⟨v, hv⟩
      rcases hq.blocks _ _ hb with hb | ⟨certificate, -, -, hb⟩
      · exact absurd (hb.symm.trans hnone) (Option.some_ne_none _)
      · exact absurd (hb.symm.trans hnone) (Option.some_ne_none _)
  obtain ⟨hunsent, hbucket⟩ := h hold
  have hcalm := hx.resolve_left hunsent
  refine ⟨hold, ?_⟩
  by_cases hvote : ∃ v, x = .handleVote v
  swap
  · have hq := quiet_call committee name pb x fun v hv => hvote ⟨v, hv⟩
    refine ⟨⟨hq.sent ▸ hunsent, ?_⟩, certificatesOf_of_nil hq.broadcasts⟩
    rw [← hbucket]
    unfold Pb.bucketAt
    rw [hq.votes]
  obtain ⟨v, rfl⟩ := hvote
  have hvoted := Pb.voted_handleVote committee pb v
  have hno : (v.round, v.origin) = (b.round, b.author) → ¬ ∃ header, pb.Supports v header :=
    fun hkey ⟨header, hs⟩ => by
      have hheader := hs.1
      rw [hkey, hold] at hheader
      cases hheader
  refine ⟨⟨fun hmem => ?_, ?_⟩, hvoted.certificatesOf (.inl fun hs =>
    hno (by rw [hs.2.1.2.1, hs.2.1.2.2]) ⟨b, hs⟩)⟩
  · rcases (hvoted.mem_block2Send b.round).2 hmem with hmem | ⟨hround, hc⟩
    · exact hunsent hmem
    · by_cases horigin : v.origin = b.author
      · exact hno (by rw [← hround, horigin]) hc.1
      · exact hcalm hround.symm horigin hc
  · rw [← hbucket]
    by_cases hsame : (v.round, v.origin) = (b.round, b.author)
    · rw [← hsame]
      exact hvoted.ignores (.inl (hno hsame))
    · exact hvoted.others _ (Ne.symm hsame)

variable (committee b) in
/-- A proposal that has been registered, after some calls. -/
def After (pb : Pb) (calls : List PbCall) : Prop :=
  if Backed committee b calls then b.round ∈ pb.block2Send
  else Waiting committee b pb (calls.filterMap (voterOf b))

omit [Crypto] in
theorem filterMap_concat (calls : List PbCall) (x : PbCall) :
    (calls ++ [x]).filterMap (voterOf b) = calls.filterMap (voterOf b) ++ (voterOf b x).toList := by
  rw [List.filterMap_append]
  rcases hx : voterOf b x with _ | a <;> simp [hx]

omit [Crypto] in
theorem Backed.concat {calls : List PbCall} (h : Backed committee b calls) (x : PbCall) :
    Backed committee b (calls ++ [x]) := by
  refine h.trans ?_
  rw [filterMap_concat]
  rcases voterOf b x with _ | a
  · rw [Option.toList_none, List.append_nil]
  · exact stakeOf_le_concat

theorem After.call (name : PublicKey) {calls : List PbCall} (h : After committee b pb calls)
    {x : PbCall} (hx : b.round ∈ pb.block2Send ∨ Calm committee b pb x) :
    After committee b (pb.call committee name x).2 (calls ++ [x]) ∧
      (certificatesOf b (pb.call committee name x).1).length =
        if ¬ Backed committee b calls ∧ Backed committee b (calls ++ [x]) then 1 else 0 := by
  unfold After at h ⊢
  by_cases hb : Backed committee b calls
  · rw [if_pos hb] at h
    obtain ⟨hsent, hnil⟩ := sent_call committee name h x
    rw [if_pos (hb.concat x), hnil, if_neg fun h => h.1 hb]
    exact ⟨hsent, rfl⟩
  · rw [if_neg hb] at h
    have hcall := h.call name (Nat.lt_of_not_le hb) (hx.resolve_left h.unsent)
    rw [← filterMap_concat] at hcall
    by_cases hb' : Backed committee b (calls ++ [x])
    · rw [if_pos hb', if_pos ⟨hb, hb'⟩]
      rwa [if_pos (by exact hb')] at hcall
    · rw [if_neg hb', if_neg fun h => hb' h.2]
      rw [if_neg (by exact hb')] at hcall
      exact ⟨hcall.1, by rw [hcall.2, List.length_nil]⟩

omit [Crypto] in
/-- The proposal is registered. -/
theorem Untouched.after (h : Untouched b pb)
    (hnone : pb.pendingBlocks.lookup (b.round, b.author) = none) :
    After committee b (pb.broadcastBlock b) [] := by
  have hzero : committee.stakeOf [] = 0 := rfl
  have hpos := committee.quorumThreshold_pos
  have hbucket : (pb.broadcastBlock b).bucketAt (b.round, b.author) = {} := h.bucket
  unfold After
  rw [if_neg (by unfold Backed; rw [List.filterMap_nil, hzero]; omega)]
  refine ⟨h.unsent, ?_, by rw [hbucket], fun a => ?_, ?_⟩
  · unfold Pb.broadcastBlock Pb.storeBlockMsg
    rw [FinMap.lookup_alter, if_pos rfl, hnone]
    rfl
  · rw [hbucket]
    simp
  · rw [hbucket]
    rfl

/-! ## The certificate of a proposal -/

/-- The certificates of the proposal sent in a trace. -/
def published (b : Header) (h : List (PbCall × List PbAction)) : List Certificate :=
  h.flatMap fun e => certificatesOf b e.2

variable (committee name) in
/-- A proposal is registered after some calls, and more calls follow. No certificate of it is sent
before it is registered; of the calls that follow the one that brings the stake of the voters to a
quorum sends one, and no other does. -/
structure Publishes (before : List PbCall) (b : Header) (calls : List PbCall) : Prop where
  early : published b (trace (Pb.call committee name) {} before) = []
  once : (published b (trace (Pb.call committee name)
      ((final (Pb.call committee name) {} before).broadcastBlock b) calls)).length =
    if Backed committee b calls then 1 else 0
  prompt : ∀ (pre : List (PbCall × List PbAction)) x actions post, trace (Pb.call committee name)
      ((final (Pb.call committee name) {} before).broadcastBlock b) calls =
        pre ++ (x, actions) :: post →
    (certificatesOf b actions).length =
      if ¬ Backed committee b (pre.map Prod.fst) ∧ Backed committee b (pre.map Prod.fst ++ [x])
        then 1 else 0

variable (committee name) in
/-- Up to the certificate of its round, no call replaces the proposal or completes another of its
round. -/
def Undisturbed (b : Header) (calls : List PbCall) : Prop :=
  ∀ pre x, pre ++ [x] <+: calls →
    b.round ∈ (final (Pb.call committee name) {} pre).block2Send ∨
      Calm committee b (final (Pb.call committee name) {} pre) x

/-- A proposer publishes the certificate of a proposal that is not disturbed. -/
theorem own_certificate_published {before calls : List PbCall}
    (hreg : (final (Pb.call committee name) {} before).pendingBlocks.lookup (b.round, b.author) =
      none)
    (h : Undisturbed committee name b (before ++ .broadcastBlock b :: calls)) :
    Publishes committee name before b calls := by
  have hbefore := final_induction (s := {})
    (I := fun pb h => pb.pendingBlocks.lookup (b.round, b.author) = none →
      Untouched b pb ∧ published b h = []) (fun _ => ⟨⟨by simp, rfl⟩, rfl⟩)
    (fun pre x hpre ih hnone => ?_) before (List.prefix_refl _) hreg
  swap
  · rw [final_concat] at hnone ⊢
    obtain ⟨hold, huntouched, hnil⟩ := Untouched.call (fun h => (ih h).1)
      (h pre x (hpre.trans (List.prefix_append _ _))) hnone
    refine ⟨huntouched, ?_⟩
    rw [trace_concat, published, List.flatMap_append]
    have hpre := (ih hold).2
    unfold published at hpre
    rw [hpre]
    simpa using hnil
  obtain ⟨huntouched, hearly⟩ := hbefore
  have hstep : ∀ pre x, pre ++ [x] <+: calls →
      b.round ∈ (final (Pb.call committee name)
        ((final (Pb.call committee name) {} before).broadcastBlock b) pre).block2Send ∨
      Calm committee b (final (Pb.call committee name)
        ((final (Pb.call committee name) {} before).broadcastBlock b) pre) x := fun pre x hpre => by
    have hcall := h (before ++ .broadcastBlock b :: pre) x (by
      rw [List.append_assoc, List.cons_append, List.prefix_append_right_inj,
        List.prefix_cons_inj]
      exact hpre)
    rw [final_append, final_cons] at hcall
    exact hcall
  have hafter : ∀ pre, pre <+: calls → After committee b (final (Pb.call committee name)
        ((final (Pb.call committee name) {} before).broadcastBlock b) pre) pre ∧
      (published b (trace (Pb.call committee name)
        ((final (Pb.call committee name) {} before).broadcastBlock b) pre)).length =
        if Backed committee b pre then 1 else 0 := fun pre hpre => by
    induction pre using List.reverseRecOn with
    | nil =>
      have hlow : ¬ Backed committee b [] := by
        have hzero : committee.stakeOf [] = 0 := rfl
        have hpos := committee.quorumThreshold_pos
        unfold Backed
        rw [List.filterMap_nil, hzero]
        omega
      exact ⟨huntouched.after hreg, by rw [if_neg hlow]; rfl⟩
    | append_singleton pre x ih =>
      obtain ⟨hafter, hlength⟩ := ih ((List.prefix_append _ _).trans hpre)
      obtain ⟨hafter', hnew⟩ := hafter.call name (hstep pre x hpre)
      rw [final_concat, trace_concat]
      refine ⟨hafter', ?_⟩
      have hconcat : ∀ e : PbCall × List PbAction, ∀ h, published b (h ++ [e]) =
          published b h ++ certificatesOf b e.2 := fun e h => by simp [published]
      rw [hconcat, List.length_append, hlength, hnew]
      by_cases hb : Backed committee b pre
      · simp [hb, hb.concat x]
      · simp [hb]
  refine ⟨hearly, (hafter calls (List.prefix_refl _)).2, fun pre x actions post he => ?_⟩
  obtain ⟨hbefore, -, rfl⟩ := trace_eq_append _ he
  have hpre := (List.prefix_append _ _).trans hbefore
  exact ((hafter _ hpre).1.call name (hstep _ x hbefore)).2

end Runs

/-- The proposal of a node for round 2. -/
def proposalOf [Crypto] (author : PublicKey) : Header :=
  let header : Header := { author, round := 2, wahooTag := some .pbc }
  { header with id := header.digest }

/-- The vote of a node on it. -/
def voteOn (block : Header) (author : PublicKey) : PbCall :=
  .handleVote { id := block.id, round := block.round, voterRound := block.round,
                origin := block.author, author, wahooPhase := some .pbc }

/-- Another proposal and its certificate come between the votes, and a vote comes twice. -/
theorem own_certificate_published_four :
    letI := toyCrypto
    let calls := [.handleBlock (proposalOf 1), voteOn (proposalOf 0) 1, voteOn (proposalOf 0) 1,
      voteOn (proposalOf 0) 2, .handleCertificate { header := proposalOf 1 },
      voteOn (proposalOf 0) 3]
    Backed (.uniform 4) (proposalOf 0) calls ∧
      Publishes (.uniform 4) 0 [] (proposalOf 0) calls := by
  let _ := toyCrypto
  refine ⟨by decide +kernel, own_certificate_published rfl fun pre x hpre => .inr ?_⟩
  have hx := hpre.subset (List.mem_append_right pre List.mem_cons_self)
  simp only [List.nil_append, List.mem_cons, List.not_mem_nil, or_false] at hx
  rcases hx with rfl | rfl | rfl | rfl | rfl | rfl | rfl
  · trivial
  · trivial
  · exact fun _ h => absurd rfl h
  · exact fun _ h => absurd rfl h
  · exact fun _ h => absurd rfl h
  · exact fun _ h => absurd h (by decide)
  · exact fun _ h => absurd rfl h

/-- The votes on the proposal of another come first and take the place of the certificate. -/
theorem not_own_certificate_published :
    letI := toyCrypto
    ¬ ∀ before b calls, (final (Pb.call (.uniform 4) 0) {} before).pendingBlocks.lookup
      (b.round, b.author) = none → b.author = 0 → b.round % 2 = 0 →
        Publishes (.uniform 4) 0 before b calls := by
  let _ := toyCrypto
  intro hall
  have honce := (hall [] (proposalOf 0) (.handleBlock (proposalOf 1) ::
    ([1, 2, 3].map (voteOn (proposalOf 1)) ++ [1, 2, 3].map (voteOn (proposalOf 0)))) rfl rfl
      (by decide)).once
  revert honce
  decide +kernel

end NovelDag.Wahoo
