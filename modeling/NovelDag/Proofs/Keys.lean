import NovelDag.Keys
import NovelDag.Lib.Base64

/-!
# What the key decoders accept

A decoder slices the decoded bytes before it looks at their length: shorter ones panic and longer
ones are cut, so it is right exactly on the strings that decode to a key's length or not at all.
-/

namespace NovelDag

section

variable [Base64Engine] {K ε : Type} {size : ℕ} {ofArray : ByteArrayOf size → K} {s : String}

omit [Base64Engine] in
theorem sliceTo_eq_none {bytes : List UInt8} : sliceTo bytes size = none ↔ bytes.length < size := by
  simp [sliceTo]

omit [Base64Engine] in
theorem tryInto_sliceTo {bytes slice : List UInt8} (h : sliceTo bytes size = some slice) :
    ∃ array : ByteArrayOf size, tryInto slice size = some array ∧ array.1 = bytes.take size := by
  unfold sliceTo at h
  split_ifs at h with hlen
  obtain rfl := Option.some.inj h
  have htake : (bytes.take size).length = size := by simp [hlen]
  exact ⟨⟨bytes.take size, htake⟩, by simp [tryInto, htake], rfl⟩

/-- A decoder keeps an error of the package, panics on short bytes and cuts long ones. -/
theorem decodeKey_cases (ofArray : ByteArrayOf size → K) (s : String) :
    (∃ e, Base64Engine.decode s = .error e ∧ decodeKey size ofArray s = some (.error e)) ∨
    (∃ bytes, Base64Engine.decode s = .ok bytes ∧ bytes.length < size ∧
      decodeKey size ofArray s = none) ∨
    ∃ bytes array, Base64Engine.decode s = .ok bytes ∧ size ≤ bytes.length ∧
      array.1 = bytes.take size ∧ decodeKey size ofArray s = some (.ok (ofArray array)) := by
  unfold decodeKey
  rcases hdecode : Base64Engine.decode s with e | bytes
  · exact .inl ⟨e, rfl, rfl⟩
  · right
    simp only [Option.bind_eq_bind]
    rcases hslice : sliceTo bytes size with _ | slice
    · exact .inl ⟨bytes, rfl, sliceTo_eq_none.1 hslice, rfl⟩
    · obtain ⟨array, harray, htake⟩ := tryInto_sliceTo hslice
      have hlen : size ≤ bytes.length := by
        by_contra hlt
        rw [sliceTo_eq_none.2 (not_le.1 hlt)] at hslice
        cases hslice
      refine .inr ⟨bytes, array, rfl, hlen, htake, ?_⟩
      simp [harray]

/-- The parser returns, and what it accepts has the length of a key and is encoded back. -/
def Parses (parse : String → Option (Except ε K)) (encode : K → String) (size : ℕ) (s : String) :
    Prop :=
  ∃ result, parse s = some result ∧ ∀ key, result = .ok key →
    ∃ bytes, Base64Engine.decode s = .ok bytes ∧ bytes.length = size ∧
      Base64Engine.decode (encode key) = .ok bytes

/-- What the string decodes to, if anything, has the length of a key. -/
def HasLength (size : ℕ) (s : String) : Prop :=
  ∀ bytes, Base64Engine.decode s = .ok bytes → bytes.length = size

theorem parses_decodeKey_iff {encode : K → String}
    (hencode : ∀ array, Base64Engine.decode (encode (ofArray array)) = .ok array.1) :
    Parses (decodeKey size ofArray) encode size s ↔ HasLength size s := by
  unfold Parses HasLength
  rcases decodeKey_cases ofArray s with ⟨e, hdecode, hkey⟩ | ⟨bytes, hdecode, hlen, hkey⟩ |
    ⟨bytes, array, hdecode, hlen, htake, hkey⟩
  · simp [hdecode, hkey]
  · simp only [hdecode, hkey, reduceCtorEq, false_and, exists_false, Except.ok.injEq,
      forall_eq', false_iff]
    exact hlen.ne
  · simp only [hdecode, hkey, Option.some.injEq, Except.ok.injEq, exists_eq_left', forall_eq',
      hencode, htake]
    refine ⟨fun h => h.1, fun h => ⟨h, ?_⟩⟩
    rw [List.take_of_length_le h.le]

/-- Deserializing only puts the error into words. -/
theorem parses_deserializeKey {decodeBase64 : String → Option (Except DecodeError K)}
    {encode : K → String} :
    Parses (deserializeKey decodeBase64) encode size s ↔ Parses decodeBase64 encode size s := by
  unfold Parses deserializeKey
  rcases decodeBase64 s with _ | (e | key) <;> simp [Except.mapError]

/-- The decoders of the two keys, and what reads a public key out of a message, are right exactly
on the strings that do not decode or decode to 32 bytes, to 64 for a secret key. -/
theorem keys_parse_iff [LawfulBase64Engine] (s : String) :
    (Parses PublicKey.decodeBase64 PublicKey.encodeBase64 32 s ↔ HasLength 32 s) ∧
      (Parses SecretKey.decodeBase64 SecretKey.encodeBase64 64 s ↔ HasLength 64 s) ∧
      (Parses PublicKey.deserialize PublicKey.encodeBase64 32 s ↔ HasLength 32 s) := by
  have hpublic : Parses PublicKey.decodeBase64 PublicKey.encodeBase64 32 s ↔ HasLength 32 s := by
    refine parses_decodeKey_iff fun array => ?_
    rw [PublicKey.encodeBase64, PublicKey.bytes_ofArray, LawfulBase64Engine.decode_encode]
  have hsecret : Parses SecretKey.decodeBase64 SecretKey.encodeBase64 64 s ↔ HasLength 64 s :=
    parses_decodeKey_iff fun array => LawfulBase64Engine.decode_encode array.1
  exact ⟨hpublic, hsecret, parses_deserializeKey.trans hpublic⟩

end

/-- The standard encoding, one error standing for all. -/
@[reducible] def standardBase64 : Base64Engine where
  encode := Base64.encode
  decode s := (Base64.decode s).elim (.error .invalidLength) .ok
  describe _ := "invalid"

theorem standardBase64_lawful : @LawfulBase64Engine standardBase64 :=
  @LawfulBase64Engine.mk standardBase64 fun bytes => by
    change (Base64.decode (Base64.encode bytes)).elim _ _ = _
    rw [Base64.decode_encode, Option.elim_some]

/-- Four characters of three bytes panic, and one byte too many is cut off. -/
theorem not_keys_parse : letI := standardBase64
    PublicKey.deserialize "AAAA" = none ∧ SecretKey.decodeBase64 "AAAA" = none ∧
      Base64Engine.decode (Base64Engine.encode (List.replicate 33 7)) =
        .ok (List.replicate 33 7) ∧
      PublicKey.decodeBase64 (Base64Engine.encode (List.replicate 33 7)) =
        some (.ok (.ofArray ⟨List.replicate 32 7, rfl⟩)) ∧
      ¬ Parses PublicKey.decodeBase64 PublicKey.encodeBase64 32 "AAAA" := by
  let _ := standardBase64
  refine ⟨by decide, by decide, by decide, by decide, ?_⟩
  rintro ⟨result, hresult, -⟩
  have hnone : PublicKey.decodeBase64 "AAAA" = none := by decide
  rw [hnone] at hresult
  cases hresult

theorem keys_parse_iff_zeros : letI := standardBase64
    Parses PublicKey.decodeBase64 PublicKey.encodeBase64 32
      (Base64.encode (List.replicate 32 0)) := by
  let _ := standardBase64
  have _ := standardBase64_lawful
  refine (keys_parse_iff _).1.2 fun bytes h => ?_
  have hdecode : (Base64.decode (Base64.encode (List.replicate 32 0))).elim
      (Except.error DecodeError.invalidLength) Except.ok = Except.ok bytes := h
  rw [Base64.decode_encode, Option.elim_some, Except.ok.injEq] at hdecode
  rw [← hdecode, List.length_replicate]

end NovelDag
