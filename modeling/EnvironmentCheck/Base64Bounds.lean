import EnvironmentCheck.Base64Encode

namespace EnvironmentCheck.Base64

/-- `getBase64DecodedSize` with the accesses to its input. -/
def readBase64DecodedSize (input : List UInt8) : Except OutOfBounds ℕ :=
  let mod := input.length % 4
  let isNullEnding (i : ℕ) : Except OutOfBounds Bool :=
    if mod = 0 then (read input i).map fun c => c = kBase64NullEnding else .ok false
  if input = [] ∨ mod = 1 then .ok 0
  else
    let paddedSize := (input.length + 3) / 4 * 3
    (if 2 ≤ mod then .ok true else isNullEnding (input.length - 1)).bind fun shorter =>
    if shorter then
      (if mod = 2 then .ok true else isNullEnding (input.length - 2)).map fun twice =>
        if twice then paddedSize - 2 else paddedSize - 1
    else .ok paddedSize

theorem read_eq {input : List UInt8} {i : ℕ} (h : i < input.length) : read input i = .ok input[i] := by
  rw [read, List.getElem?_eq_getElem h]

theorem readBase64DecodedSize_eq (input : List UInt8) :
    readBase64DecodedSize input = .ok (getBase64DecodedSize input) := by
  unfold readBase64DecodedSize getBase64DecodedSize
  by_cases hshort : input = [] ∨ input.length % 4 = 1
  · simp only [if_pos hshort]
  · have hpos : 0 < input.length := List.length_pos_iff.mpr fun h => hshort (.inl h)
    have hmod : input.length % 4 ≠ 1 := fun h => hshort (.inr h)
    simp only [if_neg hshort]
    obtain h0 | h2 | h3 : input.length % 4 = 0 ∨ input.length % 4 = 2 ∨ input.length % 4 = 3 := by
      omega
    · have hlast : input.length - 1 < input.length := by omega
      have hsecond : input.length - 2 < input.length := by omega
      rw [read_eq hlast, read_eq hsecond, List.getElem?_eq_getElem hlast,
        List.getElem?_eq_getElem hsecond]
      simp only [h0, Option.some.injEq, Except.map, Except.bind]
      by_cases hl : input[input.length - 1] = kBase64NullEnding
      · by_cases hs : input[input.length - 2] = kBase64NullEnding
        · simp [hl, hs]
        · simp [hl, hs]
      · simp [hl]
    · simp [h2, Except.map, Except.bind]
    · simp [h3, Except.map, Except.bind]

/-- Every access of the decoder and of the encoders is in bounds, on an ABI with this `char`. -/
structure InBounds (char : CharType) (s : List UInt8) : Prop where
  decodedSize : readBase64DecodedSize s = .ok (getBase64DecodedSize s)
  decode : ∀ output, ∃ r, base64Decode char s output = .ok r
  decodeInt : ∀ i < s.length, int (i + 4) = .ok (i + 4)
  encode : ∀ (encoder : Encoder) output, ∃ r, encoder.run s output = .ok r

theorem base64Decode_ok_iff (char : CharType) (s : List UInt8) (output : Output) :
    (∃ r, base64Decode char s (some output) = .ok r) ↔
      (char = .signed → s.length % 4 ≠ 1 → ¬ ReadsHigh s) := by
  by_cases h : s.length % 4 = 1
  · refine iff_of_true ⟨none, if_pos h⟩ fun _ hne => absurd h hne
  · have hunsigned := base64Decode_unsigned h output
    cases char with
    | unsigned => exact iff_of_true ⟨_, hunsigned⟩ fun hchar => by cases hchar
    | signed =>
      have hsigned := base64Decode_signed h output
      constructor
      · rintro ⟨r, hr⟩ _ _ hhigh
        cases (hsigned.1 hhigh).symm.trans hr
      · intro hlow
        exact ⟨_, (hsigned.2 (hlow rfl h)).trans hunsigned⟩

theorem encoder_ok_iff (encoder : Encoder) (s : List UInt8) (output : Output) :
    (∃ r, encoder.run s (some output) = .ok r) ↔ getBase64EncodedSize s < 2 ^ 31 := by
  obtain ⟨urlSafe, padTo32Bits, -, hrun⟩ := encoder.run_eq
  rw [hrun, base64EncodeInternal_eq]
  by_cases hint : getBase64EncodedSize s < 2 ^ 31
  · rw [if_pos hint]
    exact iff_of_true ⟨_, rfl⟩ hint
  · rw [if_neg hint]
    apply iff_of_false _ hint
    rintro ⟨r, hr⟩
    cases hr

theorem encoder_null (encoder : Encoder) (s : List UInt8) : encoder.run s none = .ok none := by
  obtain ⟨urlSafe, padTo32Bits, -, hrun⟩ := encoder.run_eq
  rw [hrun]
  rfl

theorem base64_inBounds_iff (char : CharType) {s : List UInt8} (h : s.length < 2 ^ 31 - 4) :
    InBounds char s ↔
      (char = .signed → s.length % 4 ≠ 1 → ¬ ReadsHigh s) ∧ getBase64EncodedSize s < 2 ^ 31 := by
  constructor
  · intro hin
    exact ⟨(base64Decode_ok_iff char s .inplace).mp (hin.decode _),
      (encoder_ok_iff .base64Encode s .inplace).mp (hin.encode _ _)⟩
  · rintro ⟨hlow, hsize⟩
    refine ⟨readBase64DecodedSize_eq s, ?_, fun i hi => if_pos (by omega), ?_⟩
    · intro output
      cases output with
      | none => exact ⟨none, rfl⟩
      | some output => exact (base64Decode_ok_iff char s output).mpr hlow
    · intro encoder output
      cases output with
      | none => exact ⟨none, encoder_null encoder s⟩
      | some output => exact (encoder_ok_iff encoder s output).mpr hsize

theorem base64_inBounds_iff_plain : InBounds .signed (bytes "Zm9v") := by
  have hlen : (bytes "Zm9v").length = 4 := by decide +kernel
  rw [base64_inBounds_iff .signed (by rw [hlen]; decide)]
  refine ⟨fun _ _ => ?_, by rw [getBase64EncodedSize, hlen]; decide⟩
  rintro ⟨p, b, r, hs, hb, -⟩
  have hlow : ∀ c ∈ bytes "Zm9v", c.toNat < 128 := by decide +kernel
  have hlt := hlow b (by rw [hs]; simp)
  omega

theorem base64_not_inBounds :
    (base64Decode .signed [65, 128] (some .inplace) = .error .reverseTable ∧
      ¬ InBounds .signed [65, 128]) ∧
    ∃ s : List UInt8, s.length < 2 ^ 31 - 4 ∧
      base64Encode s (some .inplace) = .error .int ∧ ¬ InBounds .unsigned s := by
  have hdecode : base64Decode .signed [65, 128] (some .inplace) = .error .reverseTable := by
    decide +kernel
  have hsize : ¬ getBase64EncodedSize (List.replicate (3 * 2 ^ 29 + 1) 0) < 2 ^ 31 := by
    rw [getBase64EncodedSize, List.length_replicate]
    decide
  refine ⟨⟨hdecode, fun hin => ?_⟩, List.replicate (3 * 2 ^ 29 + 1) 0, ?_, ?_, fun hin => ?_⟩
  · obtain ⟨r, hr⟩ := hin.decode (some .inplace)
    cases hdecode.symm.trans hr
  · rw [List.length_replicate]
    decide
  · exact (base64EncodeInternal_eq _ .inplace false false).trans (if_neg hsize)
  · exact hsize ((encoder_ok_iff .base64Encode _ .inplace).mp (hin.encode _ _))

end EnvironmentCheck.Base64
