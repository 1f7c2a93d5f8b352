import NovelDag.Messages

/-!
# What a header id binds

`Header::digest` hashes the fields one after another without their lengths. Two headers of one
author and round whose byte strings are equal are equal in every field as soon as they have one
layout: as many payload entries, parents and votes, a coin share and shares of the leader link of
one length, and QC votes of one phase, since the string leaves the phase out. The markers
`WTAG`, `WLLN`, `WLLH`, `WLPE`, `WLPN`, `EQVC` and `BINV` tell the optional parts apart.
-/

namespace NovelDag

open Encoding

/-! ## Ranges and layouts -/

section Layout

structure Vote.InRange (v : Vote) : Prop where
  round : v.round < 256 ^ 8
  voterRound : v.voterRound < 256 ^ 8

/-- The integers fit the machine types of the source. -/
structure Header.InRange (h : Header) : Prop where
  workers : ∀ e ∈ h.payload.toList, e.2 < 256 ^ 4
  qcRound : ∀ qc ∈ h.qc, qc.round < 256 ^ 8
  qcVotes : ∀ qc ∈ h.qc, ∀ v ∈ qc.votes, v.InRange
  recps : ∀ ll ∈ h.leaderLink, ∀ recps, ll.proof = .noCommit recps → ∀ r ∈ recps, r.round < 256 ^ 8
  equivocationTag : h.equivocationTag < 256 ^ 8

/-- The lengths of the signature, or of the shares, of a proof. -/
def LeaderProof.lengths : LeaderProof → List ℕ
  | .exclusiveCommit sig => [sig.length]
  | .noCommit recps => recps.map fun r => r.share.length

/-- What a reader of the byte string has to know beforehand. -/
structure Layout where
  payload : ℕ
  parents : ℕ
  parents2 : ℕ
  qcPhases : Option (List (Option WahooVotePhase))
  coinShare : ℕ
  proof : List ℕ
  deriving DecidableEq

def Header.layout (h : Header) : Layout where
  payload := h.payload.toList.length
  parents := h.parents.toList.length
  parents2 := h.parents2.toList.length
  qcPhases := h.qc.map fun qc => qc.votes.map Vote.wahooPhase
  coinShare := h.coinShare.length
  proof := h.leaderLink.elim [] fun ll => ll.proof.lengths

/-- Equality in every field but `author`, `round`, `id` and `signature`. -/
structure Header.SameBody (h₁ h₂ : Header) : Prop where
  payload : h₁.payload = h₂.payload
  parents : h₁.parents = h₂.parents
  parents2 : h₁.parents2 = h₂.parents2
  qc : h₁.qc = h₂.qc
  coinShare : h₁.coinShare = h₂.coinShare
  wahooTag : h₁.wahooTag = h₂.wahooTag
  leaderLink : h₁.leaderLink = h₂.leaderLink
  equivocationTag : h₁.equivocationTag = h₂.equivocationTag
  benchmarkInvalidPayload : h₁.benchmarkInvalidPayload = h₂.benchmarkInvalidPayload

theorem Header.SameBody.layout_eq {h₁ h₂ : Header} (h : h₁.SameBody h₂) :
    h₁.layout = h₂.layout := by
  unfold Header.layout
  rw [h.payload, h.parents, h.parents2, h.qc, h.coinShare, h.leaderLink]

end Layout

/-! ## Parts of fixed length -/

section Parts

theorem readable_digest : Readable (fun _ _ => True) Digest.bytes :=
  .of_length (by simp) fun _ _ _ h => Digest.bytes_injective h

theorem readable_publicKey : Readable (fun _ _ => True) PublicKey.bytes :=
  .of_length (by simp) fun _ _ _ h => PublicKey.bytes_injective h

theorem readable_signature : Readable (fun _ _ => True) Signature.toBytes :=
  .of_length (by simp) fun _ _ _ h => Signature.toBytes_injective h

theorem readable_vote :
    Readable (fun v w : Vote => v.InRange ∧ w.InRange ∧ v.wahooPhase = w.wahooPhase)
      Vote.embed := by
  rintro v w r s ⟨hv, hw, hp⟩ h
  simp only [Vote.embed, List.append_assoc] at h
  obtain ⟨hid, h⟩ := readable_digest _ _ _ _ trivial h
  obtain ⟨hround, h⟩ := Readable.leBytes 8 _ _ _ _ ⟨hv.round, hw.round⟩ h
  obtain ⟨hvoter, h⟩ := Readable.leBytes 8 _ _ _ _ ⟨hv.voterRound, hw.voterRound⟩ h
  obtain ⟨horigin, h⟩ := readable_publicKey _ _ _ _ trivial h
  obtain ⟨hauthor, h⟩ := readable_publicKey _ _ _ _ trivial h
  obtain ⟨hsig, h⟩ := readable_signature _ _ _ _ trivial h
  exact ⟨Vote.ext hid hround hvoter horigin hauthor hp hsig, h⟩

theorem readable_recp :
    Readable (fun a b : RecpMessage => a.round < 256 ^ 8 ∧ b.round < 256 ^ 8 ∧
      a.share.length = b.share.length) RecpMessage.embed := by
  rintro a b r s ⟨ha, hb, hl⟩ h
  simp only [RecpMessage.embed, List.append_assoc] at h
  obtain ⟨hhash, h⟩ := readable_digest _ _ _ _ trivial h
  obtain ⟨hround, h⟩ := Readable.leBytes 8 _ _ _ _ ⟨ha, hb⟩ h
  obtain ⟨hauthor, h⟩ := readable_publicKey _ _ _ _ trivial h
  obtain ⟨hshare, h⟩ := Readable.bytes _ _ _ _ hl h
  exact ⟨RecpMessage.ext hhash hround hauthor hshare, h⟩

theorem readable_entry :
    Readable (fun a b : Digest × ℕ => True ∧ a.2 < 256 ^ 4 ∧ b.2 < 256 ^ 4)
      fun e => e.1.bytes ++ leBytes 4 e.2 :=
  readable_digest.pair (Readable.leBytes 4)

end Parts

/-! ## Optional parts -/

section Optional

theorem readable_qc :
    Readable (fun a b : EmbeddedQc => (a.round < 256 ^ 8 ∧ ∀ v ∈ a.votes, v.InRange) ∧
      (b.round < 256 ^ 8 ∧ ∀ v ∈ b.votes, v.InRange) ∧
      a.votes.map Vote.wahooPhase = b.votes.map Vote.wahooPhase) EmbeddedQc.embed := by
  rintro a b r s ⟨⟨hra, hva⟩, ⟨hrb, hvb⟩, hp⟩ h
  simp only [EmbeddedQc.embed, List.append_assoc] at h
  obtain ⟨htarget, h⟩ := readable_digest _ _ _ _ trivial h
  obtain ⟨hround, h⟩ := Readable.leBytes 8 _ _ _ _ ⟨hra, hrb⟩ h
  have hvotes : List.Forall₂
      (fun v w : Vote => v.InRange ∧ w.InRange ∧ v.wahooPhase = w.wahooPhase) a.votes b.votes :=
    forall₂_of_map_eq hp hva hvb
  obtain ⟨hvotes, h⟩ := readable_vote.list _ _ _ _ hvotes h
  exact ⟨EmbeddedQc.ext htarget hround hvotes, h⟩

/-- The rounds of the shares fit their machine type. -/
def LeaderProof.InRange (p : LeaderProof) : Prop :=
  ∀ recps, p = .noCommit recps → ∀ r ∈ recps, r.round < 256 ^ 8

theorem readable_proof :
    Readable (fun a b : LeaderProof => a.InRange ∧ b.InRange ∧ a.lengths = b.lengths)
      LeaderProof.embed := by
  rintro (sig | recps) (sig' | recps') r s ⟨ha, hb, hl⟩ h
  · have hl : sig.length = sig'.length := by simpa [LeaderProof.lengths] using hl
    simp only [LeaderProof.embed, List.append_assoc] at h
    obtain ⟨hs, h⟩ := Readable.bytes _ _ _ _ hl (List.append_cancel_left h)
    exact ⟨congrArg _ hs, h⟩
  · simp [LeaderProof.embed] at h
  · simp [LeaderProof.embed] at h
  · have hn : recps.length = recps'.length := by
      simpa [LeaderProof.lengths] using congrArg List.length hl
    simp only [LeaderProof.embed, hn, List.append_assoc] at h
    have h := List.append_cancel_left (List.append_cancel_left h)
    have hrecps := forall₂_of_map_eq (f := fun r : RecpMessage => r.share.length) hl
      (ha _ rfl) (hb _ rfl)
    obtain ⟨hr, h⟩ := readable_recp.list _ _ _ _ hrecps h
    exact ⟨congrArg _ hr, h⟩

theorem readable_link :
    Readable (fun a b : LeaderLink => a.proof.InRange ∧ b.proof.InRange ∧
      a.proof.lengths = b.proof.lengths)
      fun ll => (ll.hash.elim [] fun h => [87, 76, 76, 72] ++ h.bytes) ++ ll.proof.embed := by
  have hno : ∀ (p : LeaderProof) (r : List UInt8), ¬ [87, 76, 76, 72] <+: p.embed ++ r := by
    rintro (sig | recps) r <;> simp [LeaderProof.embed]
  rintro a b r s hL h
  rw [List.append_assoc, List.append_assoc] at h
  obtain ⟨hhash, h⟩ := readable_digest.option (fun _ _ _ _ => trivial) (hno _ _) (hno _ _) h
  obtain ⟨hproof, h⟩ := readable_proof _ _ _ _ hL h
  exact ⟨LeaderLink.ext hhash hproof, h⟩

theorem readable_tag : Readable (fun _ _ => True) fun tag : WahooTag => [tag.toByte] :=
  .of_length (by simp) fun a b _ h => by cases a <;> cases b <;> simp_all [WahooTag.toByte]

end Optional

namespace Header

variable {h₁ h₂ : Header}

/-- What follows the coin share in the byte string. -/
def encodeTail (h : Header) : List UInt8 :=
  (h.wahooTag.elim [] fun tag => [87, 84, 65, 71] ++ [tag.toByte]) ++
    ((h.leaderLink.elim [] LeaderLink.embed) ++
      ((if h.equivocationTag ≠ 0 then [69, 81, 86, 67] ++ leBytes 8 h.equivocationTag else []) ++
        if h.benchmarkInvalidPayload then [66, 73, 78, 86] else []))

theorem encode_eq (h : Header) : h.encode = h.author.bytes ++ (leBytes 8 h.round ++
    ((h.payload.toList.flatMap fun e => e.1.bytes ++ leBytes 4 e.2) ++
      (h.parents.toList.flatMap Digest.bytes ++ (h.parents2.toList.flatMap Digest.bytes ++
        (h.qc.elim [] EmbeddedQc.embed ++ (h.coinShare ++ h.encodeTail)))))) := by
  simp only [encode, encodeTail, List.flatten_cons, List.flatten_nil, List.append_nil]
  rfl

theorem equivocation_eq (n : ℕ) :
    (if n ≠ 0 then [69, 81, 86, 67] ++ leBytes 8 n else []) =
      (if n ≠ 0 then some n else none).elim [] fun n => [69, 81, 86, 67] ++ leBytes 8 n := by
  split_ifs <;> rfl

/-- No optional part begins like the tag, none after the tag like the link, and so on. -/
theorem not_marker_link {marker r : List UInt8} {o : Option LeaderLink}
    (hm : ¬ [87, 76, 76, 78] <+: marker) (hl : 4 ≤ marker.length) (hr : ¬ marker <+: r) :
    ¬ marker <+: (o.elim [] LeaderLink.embed) ++ r := by
  rcases o with _ | ll
  · exact hr
  · intro h
    have h₁ : [87, 76, 76, 78] <+: (LeaderLink.embed ll ++ r) := by
      simp [LeaderLink.embed]
    exact hm (List.prefix_of_prefix_length_le h₁ h hl)

theorem not_marker_suffix {marker : List UInt8} (h : Header) (hne : marker ≠ [])
    (he : ∀ r, ¬ marker <+: [69, 81, 86, 67] ++ r) (hb : ¬ marker <+: [66, 73, 78, 86]) :
    ¬ marker <+: (if h.equivocationTag ≠ 0 then [69, 81, 86, 67] ++ leBytes 8 h.equivocationTag
      else []) ++ if h.benchmarkInvalidPayload then [66, 73, 78, 86] else [] := by
  split_ifs
  · rw [List.append_assoc]; exact he _
  · rw [List.append_assoc]; exact he _
  · exact hb
  · simpa using hne

theorem encodeTail_inj (r₁ : h₁.InRange) (r₂ : h₂.InRange)
    (hp : h₁.layout.proof = h₂.layout.proof) (h : h₁.encodeTail = h₂.encodeTail) :
    h₁.wahooTag = h₂.wahooTag ∧ h₁.leaderLink = h₂.leaderLink ∧
      h₁.equivocationTag = h₂.equivocationTag ∧
      h₁.benchmarkInvalidPayload = h₂.benchmarkInvalidPayload := by
  have hno : ∀ h : Header, ¬ [87, 76, 76, 78] <+: (if h.equivocationTag ≠ 0 then
      [69, 81, 86, 67] ++ leBytes 8 h.equivocationTag else []) ++
        if h.benchmarkInvalidPayload then [66, 73, 78, 86] else [] := fun h =>
    not_marker_suffix h (by decide) (by simp) (by decide)
  have hnt : ∀ h : Header, ¬ [87, 84, 65, 71] <+: h.leaderLink.elim [] LeaderLink.embed ++
      ((if h.equivocationTag ≠ 0 then [69, 81, 86, 67] ++ leBytes 8 h.equivocationTag else []) ++
        if h.benchmarkInvalidPayload then [66, 73, 78, 86] else []) := fun h =>
    not_marker_link (by decide) (by decide)
      (not_marker_suffix h (by decide) (by simp) (by decide))
  obtain ⟨htag, h⟩ := readable_tag.option (fun _ _ _ _ => trivial) (hnt h₁) (hnt h₂) h
  have hlengths : ∀ a b, h₁.leaderLink = some a → h₂.leaderLink = some b →
      a.proof.InRange ∧ b.proof.InRange ∧ a.proof.lengths = b.proof.lengths := fun a b ha hb =>
    ⟨r₁.recps a ha, r₂.recps b hb, by simpa only [layout, ha, hb, Option.elim_some] using hp⟩
  obtain ⟨hlink, h⟩ := readable_link.option hlengths (hno h₁) (hno h₂) h
  have hnb : ∀ h : Header, ¬ [69, 81, 86, 67] <+:
      if h.benchmarkInvalidPayload then [66, 73, 78, 86] else ([] : List UInt8) := fun h => by
    split_ifs <;> simp
  rw [equivocation_eq, equivocation_eq] at h
  have hin : ∀ {h : Header}, h.InRange → ∀ n,
      (if h.equivocationTag ≠ 0 then some h.equivocationTag else none) = some n → n < 256 ^ 8 :=
    fun {h} r n hn => by
      split_ifs at hn
      exact Option.some.inj hn ▸ r.equivocationTag
  obtain ⟨heq, h⟩ := (Readable.leBytes 8).option
    (fun a b ha hb => ⟨hin r₁ a ha, hin r₂ b hb⟩) (hnb h₁) (hnb h₂) h
  refine ⟨htag, hlink, ?_, ?_⟩
  · split_ifs at heq <;> simp_all
  · cases hb₁ : h₁.benchmarkInvalidPayload <;> cases hb₂ : h₂.benchmarkInvalidPayload <;>
      simp [hb₁, hb₂] at h ⊢

/-- Two headers of one author and round with equal byte strings have equal bodies exactly when they
have one layout. -/
theorem sameBody_iff_layout_eq (r₁ : h₁.InRange) (r₂ : h₂.InRange)
    (hauthor : h₁.author = h₂.author) (hround : h₁.round = h₂.round)
    (hencode : h₁.encode = h₂.encode) : h₁.SameBody h₂ ↔ h₁.layout = h₂.layout := by
  refine ⟨SameBody.layout_eq, fun hl => ?_⟩
  have hpay := congrArg Layout.payload hl
  have hpar := congrArg Layout.parents hl
  have hpar2 := congrArg Layout.parents2 hl
  have hqc := congrArg Layout.qcPhases hl
  have hcoin := congrArg Layout.coinShare hl
  have hproof := congrArg Layout.proof hl
  simp only [layout] at hpay hpar hpar2 hqc hcoin
  rw [encode_eq, encode_eq, hauthor, hround] at hencode
  have h := List.append_cancel_left (List.append_cancel_left hencode)
  obtain ⟨hpay, h⟩ := readable_entry.list _ _ _ _
    ((forall₂_of_length hpay r₁.workers r₂.workers).imp fun _ _ h => ⟨trivial, h⟩) h
  obtain ⟨hpar, h⟩ := readable_digest.list _ _ _ _
    ((forall₂_of_length hpar (P := fun _ => True) (by simp) (by simp)).imp
      fun _ _ _ => trivial) h
  obtain ⟨hpar2, h⟩ := readable_digest.list _ _ _ _
    ((forall₂_of_length hpar2 (P := fun _ => True) (by simp) (by simp)).imp
      fun _ _ _ => trivial) h
  have hq : h₁.qc = h₂.qc ∧ h₁.coinShare ++ h₁.encodeTail = h₂.coinShare ++ h₂.encodeTail := by
    rcases hq₁ : h₁.qc with _ | qc₁ <;> rcases hq₂ : h₂.qc with _ | qc₂ <;>
      simp only [hq₁, hq₂, Option.map_none, Option.map_some, reduceCtorEq, Option.some.injEq] at hqc
    · exact ⟨rfl, by simpa [hq₁, hq₂] using h⟩
    · rw [hq₁, hq₂] at h
      obtain ⟨hqc, h⟩ := readable_qc _ _ _ _ ⟨⟨r₁.qcRound _ hq₁, r₁.qcVotes _ hq₁⟩,
        ⟨r₂.qcRound _ hq₂, r₂.qcVotes _ hq₂⟩, hqc⟩ h
      exact ⟨congrArg some hqc, h⟩
  obtain ⟨hcoin, h⟩ := Readable.bytes _ _ _ _ hcoin hq.2
  obtain ⟨htag, hlink, heq, hinv⟩ := encodeTail_inj r₁ r₂ hproof h
  exact ⟨SortedMap.ext hpay, SortedSet.ext hpar, SortedSet.ext hpar2, hq.1, hcoin, htag, hlink,
    heq, hinv⟩

/-- Two headers of the first member in round 1 that spell the same bytes. -/
def binvFlag : Header := { round := 1, benchmarkInvalidPayload := true }

def binvShare : Header := { round := 1, coinShare := [66, 73, 78, 86] }

theorem binv_inRange : binvFlag.InRange ∧ binvShare.InRange := by
  constructor <;> constructor <;> simp [binvFlag, binvShare]

theorem not_sameBody_binv : ¬ binvFlag.SameBody binvShare := fun h =>
  absurd ((sameBody_iff_layout_eq binv_inRange.1 binv_inRange.2 rfl rfl
    (by decide)).1 h) (by decide)

/-- The checks of `Header::verify` that read the fields only. -/
def WellFormed (committee : Committee) (dagProtocol : DagProtocol) (h : Header) : Prop :=
  h.verifyStructure committee dagProtocol = .ok () ∧
    (∀ w ∈ h.payload.values, committee.worker h.author w = .ok ()) ∧
    h.parents.isDisjoint h.parents2 = true ∧ h.coinShare.length ≤ 256

/-- The coin share `BINV` and the flag behind it spell the same bytes. -/
theorem encode_not_binding : ¬ ∀ (committee : Committee) (dagProtocol : DagProtocol)
    (h₁ h₂ : Header), h₁.InRange → h₂.InRange → h₁.WellFormed committee dagProtocol →
    h₂.WellFormed committee dagProtocol → h₁.author = h₂.author → h₁.round = h₂.round →
    h₁.encode = h₂.encode → h₁.SameBody h₂ := by
  intro h
  have hbody := h (Committee.uniform 4) .narwhal binvFlag binvShare binv_inRange.1 binv_inRange.2
    ⟨rfl, by decide, rfl, by decide⟩ ⟨rfl, by decide, rfl, by decide⟩ rfl rfl (by decide)
  exact absurd hbody.coinShare (by decide)

end Header

end NovelDag
