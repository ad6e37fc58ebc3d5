import EnvironmentCheck.SnappyRoundTrip

namespace EnvironmentCheck

open SnappyCodec

namespace SnappyC

inductive SnappyStatus
  | SNAPPY_OK
  | SNAPPY_INVALID_INPUT
  | SNAPPY_BUFFER_TOO_SMALL
  deriving DecidableEq

open SnappyStatus

/-- The status, the buffer and what is written to `*compressed_length`. -/
def snappyCompress (abi : Abi) (input compressed : List UInt8) (compressedLength : ℕ) :
    Option (SnappyStatus × List UInt8 × ℕ) :=
  if compressedLength < maxCompressedLength input.length then
    some (SNAPPY_BUFFER_TOO_SMALL, compressed, compressedLength)
  else (rawCompress abi input compressed).map fun r => (SNAPPY_OK, r)

def snappyUncompress (abi : Abi) (scratch : Vector UInt8 kMaximumTagLength)
    (compressed uncompressed : List UInt8) (uncompressedLength : ℕ) :
    Option (SnappyStatus × List UInt8 × ℕ) :=
  match getUncompressedLength compressed with
  | none => some (SNAPPY_INVALID_INPUT, uncompressed, uncompressedLength)
  | some realUncompressedLength =>
    if uncompressedLength < realUncompressedLength then
      some (SNAPPY_BUFFER_TOO_SMALL, uncompressed, uncompressedLength)
    else do
      let (ok, uncompressed) ← rawUncompress abi scratch (byteArraySource compressed) uncompressed
      if ok then return (SNAPPY_OK, uncompressed, realUncompressedLength)
      else return (SNAPPY_INVALID_INPUT, uncompressed, uncompressedLength)

def snappyValidateCompressedBuffer (abi : Abi) (scratch : Vector UInt8 kMaximumTagLength)
    (compressed : List UInt8) : Option SnappyStatus := do
  if ← isValidCompressed abi scratch (byteArraySource compressed) then return SNAPPY_OK
  else return SNAPPY_INVALID_INPUT

variable {compressed uncompressed out : List UInt8} {n uncompressedLength : ℕ}

theorem undeclared (h : getUncompressedLength compressed = none) (m : ℕ) : ¬ Declares compressed m := by
  intro hm
  rw [getUncompressedLength_eq_some.mpr hm] at h
  cases h

theorem not_uncompresses (h : ∀ m, ¬ Declares compressed m) (out : List UInt8) : ¬ Uncompresses compressed out :=
  fun hout => h _ hout.declares

/-- Whatever the bytes are, nothing is stored past `*uncompressed_length`, and the status says whether they
stand for something and whether there was room for it. -/
theorem snappyUncompress_safe (abi : Abi) (scratch : Vector UInt8 kMaximumTagLength)
    (compressed uncompressed : List UInt8) (uncompressedLength : ℕ) (hleft : compressed.length < 2 ^ 32)
    (hroom : uncompressedLength ≤ uncompressed.length) :
    ∃ status uncompressed' length', snappyUncompress abi scratch compressed uncompressed uncompressedLength =
        some (status, uncompressed', length') ∧ uncompressed'.length = uncompressed.length ∧
      uncompressed'.drop uncompressedLength = uncompressed.drop uncompressedLength ∧
      (status = SNAPPY_BUFFER_TOO_SMALL ↔ ∃ n, Declares compressed n ∧ uncompressedLength < n) ∧
      (status = SNAPPY_OK ↔ ∃ out, Uncompresses compressed out ∧ out.length ≤ uncompressedLength) ∧
      (status ≠ SNAPPY_OK → length' = uncompressedLength) ∧
      (status = SNAPPY_OK → Uncompresses compressed (uncompressed'.take length')) := by
  rw [snappyUncompress]
  cases hlength : getUncompressedLength compressed with
  | none =>
    have hnone := undeclared hlength
    refine ⟨_, _, _, rfl, rfl, rfl, iff_of_false nofun ?_, iff_of_false nofun ?_, fun _ => rfl, nofun⟩
    · rintro ⟨n, hn, -⟩
      exact hnone n hn
    · rintro ⟨out, hout, -⟩
      exact not_uncompresses hnone out hout
  | some n =>
    have hdeclares := getUncompressedLength_eq_some.mp hlength
    have hunique : ∀ m, Declares compressed m → m = n := fun m hm => declares_unique hdeclares hm
    by_cases hsmall : uncompressedLength < n
    · simp only [if_pos hsmall]
      refine ⟨_, _, _, rfl, rfl, rfl, iff_of_true rfl ⟨n, hdeclares, hsmall⟩, iff_of_false nofun ?_,
        fun _ => rfl, nofun⟩
      rintro ⟨out, hout, hfits⟩
      have hn := hunique _ hout.declares
      omega
    · simp only [if_neg hsmall]
      have hfits : ¬ ∃ m, Declares compressed m ∧ uncompressedLength < m := by
        rintro ⟨m, hm, hlt⟩
        exact hsmall (hunique m hm ▸ hlt)
      have hspec := rawUncompress_spec abi scratch (byteArraySource compressed) uncompressed hleft
        fun m hm => show m ≤ uncompressed.length by have hn := hunique m hm; omega
      generalize rawUncompress abi scratch (byteArraySource compressed) uncompressed = r at hspec ⊢
      have hbeyond : ∀ m, Declares compressed m → m ≤ uncompressedLength := by
        intro m hm
        have hn := hunique m hm
        omega
      cases hspec with
      | @succeeded out mem' hout htake hcontained =>
        have hn := hunique _ hout.declares
        refine ⟨_, _, _, rfl, hcontained.size, hcontained.beyond _ hbeyond, iff_of_false nofun hfits,
          iff_of_true rfl ⟨out, hout, by omega⟩, nofun, fun _ => ?_⟩
        rw [← hn, htake]
        exact hout
      | @failed mem' hnone hcontained =>
        refine ⟨_, _, _, rfl, hcontained.size, hcontained.beyond _ hbeyond, iff_of_false nofun hfits,
          iff_of_false nofun ?_, fun _ => rfl, nofun⟩
        rintro ⟨out, hout, -⟩
        exact hnone out hout

theorem snappyUncompress_safe_overlapping :
    ∃ status uncompressed' length',
      snappyUncompress .arm64V8a (.replicate 5 0) overlapping.left (List.replicate 8 1) 6 =
        some (status, uncompressed', length') ∧ uncompressed'.length = 8 ∧
      uncompressed'.drop 6 = (List.replicate 8 (1 : UInt8)).drop 6 ∧
      (status = SNAPPY_BUFFER_TOO_SMALL ↔ ∃ n, Declares overlapping.left n ∧ 6 < n) ∧
      (status = SNAPPY_OK ↔ ∃ out, Uncompresses overlapping.left out ∧ out.length ≤ 6) ∧
      (status ≠ SNAPPY_OK → length' = 6) ∧
      (status = SNAPPY_OK → Uncompresses overlapping.left (uncompressed'.take length')) :=
  snappyUncompress_safe .arm64V8a (.replicate 5 0) overlapping.left (List.replicate 8 1) 6 (by decide)
    (by decide)

theorem snappyUncompress_ok (abi : Abi) (scratch : Vector UInt8 kMaximumTagLength)
    (hout : Uncompresses compressed out) (hleft : compressed.length < 2 ^ 32)
    (hlength : out.length ≤ uncompressedLength) (hroom : uncompressedLength ≤ uncompressed.length) :
    ∃ uncompressed', snappyUncompress abi scratch compressed uncompressed uncompressedLength =
        some (SNAPPY_OK, uncompressed', out.length) ∧ uncompressed'.take out.length = out := by
  have hspec := rawUncompress_spec abi scratch (byteArraySource compressed) uncompressed hleft
    fun n hn => show n ≤ uncompressed.length by rw [declares_unique hout.declares hn]; omega
  rw [snappyUncompress, getUncompressedLength_eq_some.mpr hout.declares]
  simp only [if_neg (Nat.not_lt.mpr hlength)]
  generalize rawUncompress abi scratch (byteArraySource compressed) uncompressed = r at hspec ⊢
  cases hspec with
  | @succeeded out' mem' hout' htake hcontained =>
    obtain rfl := hout.unique hout'
    exact ⟨mem', rfl, htake⟩
  | @failed mem' hnone => exact absurd hout (hnone out)

/-- The buffer is refused where what comes out might not fit, and anything that has been compressed is
accepted: by the validator, and by `snappy_uncompress` with whatever buffer has room for the input. -/
theorem snappyCompress_accepted (abi abi' : Abi) (scratch : Vector UInt8 kMaximumTagLength)
    (input compressed : List UInt8) (compressedLength : ℕ) (hinput : maxCompressedLength input.length < 2 ^ 32)
    (hroom : compressedLength ≤ compressed.length) :
    ∃ status compressed' length', snappyCompress abi input compressed compressedLength =
        some (status, compressed', length') ∧ compressed'.length = compressed.length ∧
      length' ≤ compressedLength ∧
      (status = SNAPPY_OK ↔ maxCompressedLength input.length ≤ compressedLength) ∧
      (status = SNAPPY_OK →
        (abi'.sizeT = .bits64 →
          snappyValidateCompressedBuffer abi' scratch (compressed'.take length') = some SNAPPY_OK) ∧
        ∀ uncompressed n, input.length ≤ n → n ≤ uncompressed.length →
          ∃ uncompressed', snappyUncompress abi' scratch (compressed'.take length') uncompressed n =
              some (SNAPPY_OK, uncompressed', input.length) ∧ uncompressed'.take input.length = input) := by
  rw [snappyCompress]
  by_cases hsmall : compressedLength < maxCompressedLength input.length
  · simp only [if_pos hsmall]
    exact ⟨_, _, _, rfl, rfl, le_rfl, iff_of_false nofun (Nat.not_le.mpr hsmall), nofun⟩
  have hfits : maxCompressedLength input.length ≤ compressedLength := Nat.le_of_not_lt hsmall
  have hshort : input.length < 2 ^ 32 := by
    rw [maxCompressedLength] at hinput
    omega
  obtain ⟨⟨compressed', written⟩, hcompress, hsize, hwritten, hstands⟩ :=
    compress_standsFor abi (byteArraySource input) hshort (hfits.trans hroom)
  have hcompress' : rawCompress abi input compressed = some (compressed', written) := hcompress
  have hwritten' : written ≤ maxCompressedLength input.length := hwritten
  have hout : Uncompresses (compressed'.take written) input := hstands.uncompresses hshort
  have hleft : (compressed'.take written).length < 2 ^ 32 := by
    rw [List.length_take]
    omega
  simp only [if_neg hsmall, hcompress', Option.map_some]
  refine ⟨_, _, _, rfl, hsize, hwritten'.trans hfits, iff_of_true rfl hfits, fun _ => ⟨?_, ?_⟩⟩
  · intro hsizeT
    obtain ⟨ok, hvalid, hok⟩ := isValidCompressed_spec scratch
      (byteArraySource (compressed'.take written)) hsizeT hleft
    obtain rfl := hok.mpr ⟨input, hout⟩
    rw [snappyValidateCompressedBuffer, hvalid]
    rfl
  · exact fun uncompressed n hn hmem => snappyUncompress_ok abi' scratch hout hleft hn hmem

theorem snappyCompress_accepted_seven :
    ∃ status compressed' length',
      snappyCompress .armeabiV7a [1, 2, 3, 1, 2, 3, 1] (List.replicate 50 0) 45 =
        some (status, compressed', length') ∧ compressed'.length = 50 ∧ length' ≤ 45 ∧
      (status = SNAPPY_OK ↔ maxCompressedLength 7 ≤ 45) ∧
      (status = SNAPPY_OK →
        (Abi.x86_64.sizeT = .bits64 →
          snappyValidateCompressedBuffer .x86_64 (.replicate 5 0) (compressed'.take length') =
            some SNAPPY_OK) ∧
        ∀ uncompressed n, 7 ≤ n → n ≤ uncompressed.length →
          ∃ uncompressed', snappyUncompress .x86_64 (.replicate 5 0) (compressed'.take length')
              uncompressed n = some (SNAPPY_OK, uncompressed', 7) ∧
            uncompressed'.take 7 = [1, 2, 3, 1, 2, 3, 1]) :=
  snappyCompress_accepted .armeabiV7a .x86_64 (.replicate 5 0) [1, 2, 3, 1, 2, 3, 1] (List.replicate 50 0)
    45 (by decide) (by decide)

end SnappyC

namespace SnappyJni

open Snappy

/-- `rawCompress(Object, int)`, where `call` is what the native code is called with; `none` is an access
outside of an array. -/
def rawCompressArray (vm : JavaVm) (abi : Abi) (data : List UInt8) (call : NativeCompression) :
    Option (Except Throwable (List UInt8)) := do
  let input ← Buffer.load data 0 call.inputLength
  let (buf, compressedByteSize) ← SnappyCodec.rawCompress abi input (List.replicate call.output 0)
  return (newArray vm 1 (.ofNat compressedByteSize)).map fun length => buf.take length

/-- `compress(byte[])`. -/
def compress (vm : JavaVm) (abi : Abi) (data : List UInt8) : Option (Except Throwable (List UInt8)) :=
  match compressByteArray vm abi.sizeT (.ofNat data.length) with
  | .error e => some (.error e)
  | .ok call => rawCompressArray vm abi data call

/-- The native call, on the memory of the arrays. -/
def rawUncompressArray (vm : JavaVm) (abi : Abi) (scratch : Vector UInt8 kMaximumTagLength)
    (input output : List UInt8) : Option (Except Throwable (List UInt8)) :=
  if !vm.pinsInput || !vm.pinsOutput then some (.error (throwException vm 4))
  else do
    let (ok, output) ← SnappyCodec.rawUncompress abi scratch (byteArraySource input) output
    return if ok then .ok output else .error (throwException vm 5)

def newResult (vm : JavaVm) (input : List UInt8) : Except Throwable ℕ := do
  newArray vm 1 (← uncompressedLength vm input)

/-- `uncompress(byte[])`. -/
def uncompress (vm : JavaVm) (abi : Abi) (scratch : Vector UInt8 kMaximumTagLength) (input : List UInt8) :
    Option (Except Throwable (List UInt8)) :=
  match newResult vm input with
  | .error e => some (.error e)
  | .ok length => rawUncompressArray vm abi scratch input (List.replicate length 0)

/-- Every array is granted, of this many bytes at most, and every pointer. -/
structure Grants (vm : JavaVm) (n : ℕ) : Prop where
  stream : vm.pinsStream = true
  input : vm.pinsInput = true
  output : vm.pinsOutput = true
  allocates : ∀ m ≤ n, vm.allocates m = true

variable {vm : JavaVm} {input out data : List UInt8} {n m length : ℕ}

theorem Grants.mono (h : Grants vm n) (hm : m ≤ n) : Grants vm m :=
  ⟨h.stream, h.input, h.output, fun k hk => h.allocates k (hk.trans hm)⟩

theorem newResult_ok (h : newResult vm input = .ok length) : Declares input length := by
  obtain ⟨m, hm, h⟩ := bind_ok h
  obtain ⟨declared, hdeclared, rfl⟩ := uncompressedLength_ok hm
  obtain ⟨hnonneg, rfl⟩ := newArray_ok h
  have hdeclares := getUncompressedLength_eq_some.mp hdeclared
  have hlt : declared < 2 ^ 32 := hdeclares.choose_spec.2.2
  rw [toInt_narrowed hlt] at hnonneg ⊢
  split_ifs at hnonneg ⊢
  · exact hdeclares
  · omega

theorem newArray_of_lt (h : n < 2 ^ 31) (hallocates : vm.allocates n = true) :
    newArray vm 1 (.ofNat n) = .ok n := by
  have hvalue : (Int32.ofNat n).toInt = n := Int32.toInt_ofNat_of_lt h
  have hnot : ¬ Int32.ofNat n < 0 := by
    rw [Int32.lt_iff_toInt_lt, Int32.toInt_zero]
    omega
  rw [newArray, if_neg hnot, hvalue, Int.toNat_natCast, one_mul, if_pos hallocates]

theorem newResult_of_declares (h : Declares input n) (hlt : n < 2 ^ 31) (hpins : vm.pinsStream = true)
    (hallocates : vm.allocates n = true) : newResult vm input = .ok n := by
  rw [newResult, uncompressedLength_of_declares hpins h]
  exact newArray_of_lt hlt hallocates

/-- An array of the declared length takes what the bytes stand for, and nothing else. -/
theorem rawUncompress_exact (abi : Abi) (scratch : Vector UInt8 kMaximumTagLength) (hinput : input.length < 2 ^ 31)
    (hdeclares : Declares input length) :
    (∃ out, Uncompresses input out ∧ SnappyCodec.rawUncompress abi scratch (byteArraySource input)
        (List.replicate length 0) = some (true, out)) ∨
      (∀ out, ¬ Uncompresses input out) ∧ ∃ mem, SnappyCodec.rawUncompress abi scratch
        (byteArraySource input) (List.replicate length 0) = some (false, mem) := by
  have hspec := rawUncompress_spec abi scratch (byteArraySource input) (List.replicate length 0)
    (hinput.trans (by decide)) fun n hn => by
      rw [declares_unique hdeclares hn, List.length_replicate]
  generalize SnappyCodec.rawUncompress abi scratch (byteArraySource input) (List.replicate length 0) = r
    at hspec ⊢
  cases hspec with
  | @succeeded out mem' hout htake hcontained =>
    have hsize := hcontained.size
    rw [List.length_replicate, ← declares_unique hdeclares hout.declares] at hsize
    rw [List.take_of_length_le hsize.le] at htake
    exact .inl ⟨out, hout, by rw [htake]⟩
  | @failed mem' hnone => exact .inr ⟨hnone, mem', rfl⟩

theorem rawUncompressArray_ok (abi : Abi) (scratch : Vector UInt8 kMaximumTagLength)
    (hinput : input.length < 2 ^ 31) (hout : Uncompresses input out) (hpinsInput : vm.pinsInput = true)
    (hpinsOutput : vm.pinsOutput = true) :
    rawUncompressArray vm abi scratch input (List.replicate out.length 0) = some (.ok out) := by
  obtain ⟨out', hout', hrun⟩ | ⟨hnone, -⟩ := rawUncompress_exact abi scratch hinput hout.declares
  · obtain rfl := hout.unique hout'
    rw [rawUncompressArray, hpinsInput, hpinsOutput, hrun]
    rfl
  · exact absurd hout (hnone out)

theorem uncompress_ok (abi : Abi) (scratch : Vector UInt8 kMaximumTagLength) (hinput : input.length < 2 ^ 31)
    (hout : Uncompresses input out) (hlt : out.length < 2 ^ 31) (hgrants : Grants vm out.length) :
    uncompress vm abi scratch input = some (.ok out) := by
  rw [uncompress, newResult_of_declares hout.declares hlt hgrants.stream (hgrants.allocates _ le_rfl)]
  exact rawUncompressArray_ok abi scratch hinput hout hgrants.input hgrants.output

/-- `uncompress` of any array of bytes stays in the array that it makes, and returns what the bytes stand
for. -/
theorem uncompress_faultless (vm : JavaVm) (abi : Abi) (scratch : Vector UInt8 kMaximumTagLength)
    (input : List UInt8) (hinput : input.length < 2 ^ 31) :
    ∃ r, uncompress vm abi scratch input = some r ∧ (∀ out, r = .ok out → Uncompresses input out) ∧
      ∀ out, Uncompresses input out → out.length < 2 ^ 31 → Grants vm out.length → r = .ok out := by
  have hright : ∀ r, uncompress vm abi scratch input = some r → ∀ out, Uncompresses input out →
      out.length < 2 ^ 31 → Grants vm out.length → r = .ok out := by
    intro r hr out hout hlt hgrants
    rw [uncompress_ok abi scratch hinput hout hlt hgrants] at hr
    exact (Option.some.inj hr).symm
  have hany : ∃ r, uncompress vm abi scratch input = some r ∧ ∀ out, r = .ok out → Uncompresses input out := by
    rw [uncompress]
    cases hnew : newResult vm input with
    | error e => exact ⟨_, rfl, nofun⟩
    | ok length =>
      dsimp only
      rw [rawUncompressArray]
      split_ifs
      · exact ⟨_, rfl, nofun⟩
      obtain ⟨out, hout, hrun⟩ | ⟨-, mem, hrun⟩ := rawUncompress_exact abi scratch hinput (newResult_ok hnew)
      · rw [hrun]
        refine ⟨.ok out, rfl, ?_⟩
        intro out' h
        cases h
        exact hout
      · rw [hrun]
        exact ⟨.error (throwException vm 5), rfl, nofun⟩
  obtain ⟨r, hr, hok⟩ := hany
  exact ⟨r, hr, hok, hright r hr⟩

theorem uncompress_faultless_overlapping :
    ∃ r, uncompress ample .x86 (.replicate 5 0) overlapping.left = some r ∧
      (∀ out, r = .ok out → Uncompresses overlapping.left out) ∧
      ∀ out, Uncompresses overlapping.left out → out.length < 2 ^ 31 → Grants ample out.length → r = .ok out :=
  uncompress_faultless ample .x86 (.replicate 5 0) overlapping.left (by decide)

/-- `RawUncompress` of an array, into as much room as the stream declares, as the bytes that it stores. -/
def nativeRawUncompress (abi : Abi) (scratch : Vector UInt8 kMaximumTagLength) (input : List UInt8) :
    Option (List UInt8) :=
  if input.length < 2 ^ 31 then
    (getUncompressedLength input).bind fun length =>
      match SnappyCodec.rawUncompress abi scratch (byteArraySource input) (List.replicate length 0) with
      | some (true, output) => some output
      | _ => none
  else none

theorem nativeRawUncompress_cases (abi : Abi) (scratch : Vector UInt8 kMaximumTagLength)
    (hinput : input.length < 2 ^ 31)
    (hdeclares : Declares input length) :
    (∃ out, Uncompresses input out ∧ nativeRawUncompress abi scratch input = some out ∧
      SnappyCodec.rawUncompress abi scratch (byteArraySource input) (List.replicate length 0) = some (true, out)) ∨
    ∃ mem, nativeRawUncompress abi scratch input = none ∧
      SnappyCodec.rawUncompress abi scratch (byteArraySource input) (List.replicate length 0) = some (false, mem) := by
  have hlength := getUncompressedLength_eq_some.mpr hdeclares
  have hnative : ∀ ok output, SnappyCodec.rawUncompress abi scratch (byteArraySource input)
      (List.replicate length 0) = some (ok, output) →
      nativeRawUncompress abi scratch input = if ok then some output else none := by
    intro ok output hrun
    rw [nativeRawUncompress, if_pos hinput, hlength, Option.bind_some, hrun]
    cases ok <;> rfl
  obtain ⟨out, hout, hrun⟩ | ⟨-, mem, hrun⟩ := rawUncompress_exact abi scratch hinput hdeclares
  · exact .inl ⟨out, hout, hnative true out hrun, hrun⟩
  · exact .inr ⟨mem, hnative false mem hrun, hrun⟩

theorem nativeRawUncompress_storesDeclared (abi : Abi) (scratch : Vector UInt8 kMaximumTagLength) :
    StoresDeclared (nativeRawUncompress abi scratch) := by
  intro stream output h
  have hstream := h
  obtain ⟨hinput, h⟩ := Option.ite_none_right_eq_some.mp h
  obtain ⟨length, hlength, -⟩ := Option.bind_eq_some_iff.mp h
  obtain ⟨out, hout, hnative, -⟩ | ⟨mem, hnative, -⟩ := nativeRawUncompress_cases abi scratch hinput
    (getUncompressedLength_eq_some.mp hlength)
  · rw [hnative] at hstream
    cases hstream
    exact hout.declares
  · rw [hnative] at hstream
    cases hstream

theorem uncompress_eq (vm : JavaVm) (native : List UInt8 → Option (List UInt8)) (input : List UInt8) :
    Snappy.uncompress vm native input = (newResult vm input >>= fun length =>
      Snappy.rawUncompress vm native input >>= fun stored => pure ⟨1, length, stored⟩) := by
  rw [Snappy.uncompress, newResult]
  cases Snappy.uncompressedLength vm input <;> rfl

/-- `uncompress` on the memory of its arrays is `uncompress` over a native call that stores what the decompressor
does, and this call stores as many bytes as the stream declares. -/
theorem uncompress_refines (vm : JavaVm) (abi : Abi) (scratch : Vector UInt8 kMaximumTagLength) (input : List UInt8)
    (hinput : input.length < 2 ^ 31) :
    StoresDeclared (nativeRawUncompress abi scratch) ∧ uncompress vm abi scratch input =
      some ((Snappy.uncompress vm (nativeRawUncompress abi scratch) input).map (·.stored)) := by
  refine ⟨nativeRawUncompress_storesDeclared abi scratch, ?_⟩
  rw [uncompress, uncompress_eq]
  cases hnew : newResult vm input with
  | error e => rfl
  | ok length =>
    dsimp only
    change _ = some (Except.map _ (Snappy.rawUncompress vm (nativeRawUncompress abi scratch) input >>= _))
    rw [rawUncompressArray, Snappy.rawUncompress]
    split_ifs
    · rfl
    · obtain ⟨out, -, hnative, hrun⟩ | ⟨mem, hnative, hrun⟩ := nativeRawUncompress_cases abi scratch hinput
        (newResult_ok hnew)
      · rw [hnative, hrun]
        rfl
      · rw [hnative, hrun]
        rfl

theorem uncompress_refines_overlapping :
    StoresDeclared (nativeRawUncompress .x86 (.replicate 5 0)) ∧
      uncompress ample .x86 (.replicate 5 0) overlapping.left = some ((Snappy.uncompress ample
        (nativeRawUncompress .x86 (.replicate 5 0)) overlapping.left).map (·.stored)) :=
  uncompress_refines ample .x86 (.replicate 5 0) overlapping.left (by decide)

theorem toNat_toSizeT_of_lt (sizeT : SizeT) (h : n < 2 ^ 31) : (toSizeT sizeT.width (.ofNat n)).toNat = n := by
  have hwide : (2 : ℤ) ^ 32 ≤ 2 ^ sizeT.width := by
    cases sizeT with
    | bits32 => exact le_rfl
    | bits64 => decide
  have hvalue : (Int32.ofNat n).toInt = n := Int32.toInt_ofNat_of_lt h
  rw [toNat_toSizeT, hvalue, Int.emod_eq_of_lt (by omega) (by omega), Int.toNat_natCast]

theorem maxCompressedLength_eq (sizeT : SizeT) (h : SnappyCodec.maxCompressedLength n < 2 ^ 31) :
    Snappy.maxCompressedLength sizeT (.ofNat n) = .ofNat (SnappyCodec.maxCompressedLength n) := by
  have hvalue : (Int32.ofNat (SnappyCodec.maxCompressedLength n)).toInt = SnappyCodec.maxCompressedLength n :=
    Int32.toInt_ofNat_of_lt h
  apply Int32.toInt_inj.mp
  rw [SnappyCodec.maxCompressedLength] at h hvalue ⊢
  rw [toInt_maxCompressedLength, toNat_toSizeT_of_lt sizeT (by omega), hvalue, Int.bmod_def]
  split_ifs <;> omega

theorem compress_call (sizeT : SizeT) (h : SnappyCodec.maxCompressedLength n < 2 ^ 31)
    (hgrants : Grants vm (SnappyCodec.maxCompressedLength n)) :
    compressByteArray vm sizeT (.ofNat n) = .ok ⟨n, SnappyCodec.maxCompressedLength n⟩ := by
  have hn : n < 2 ^ 31 := by
    rw [SnappyCodec.maxCompressedLength] at h
    omega
  rw [compressByteArray, Snappy.rawCompress, maxCompressedLength_eq sizeT h,
    newArray_of_lt h (hgrants.allocates _ le_rfl), toNat_toSizeT_of_lt sizeT hn, hgrants.input, hgrants.output]
  rfl

/-- On any two of the ABIs, what `compress` returns is uncompressed to what it was given. -/
theorem compress_uncompresses (vm : JavaVm) (abi abi' : Abi) (scratch : Vector UInt8 kMaximumTagLength)
    (data : List UInt8) (hdata : SnappyCodec.maxCompressedLength data.length < 2 ^ 31)
    (hgrants : Grants vm (SnappyCodec.maxCompressedLength data.length)) :
    ∃ stream, compress vm abi data = some (.ok stream) ∧
      uncompress vm abi' scratch stream = some (.ok data) := by
  have hlength : data.length ≤ SnappyCodec.maxCompressedLength data.length := by
    rw [SnappyCodec.maxCompressedLength]
    omega
  have hload : Buffer.load data 0 data.length = some data := by
    rw [Buffer.load_of_le (Nat.zero_add _).le, List.drop_zero, List.take_length]
  have hroom : SnappyCodec.maxCompressedLength data.length ≤
      (List.replicate (SnappyCodec.maxCompressedLength data.length) (0 : UInt8)).length :=
    List.length_replicate.ge
  obtain ⟨⟨buf, written⟩, hcompress, -, hwritten, hstands⟩ :=
    compress_standsFor abi (byteArraySource data) (show data.length < 2 ^ 32 by omega) hroom
  have hcompress' : SnappyCodec.rawCompress abi data
      (List.replicate (SnappyCodec.maxCompressedLength data.length) 0) = some (buf, written) := hcompress
  have hshort : written ≤ SnappyCodec.maxCompressedLength data.length := hwritten
  have hresult : newArray vm 1 (.ofNat written) = .ok written :=
    newArray_of_lt (by omega) (hgrants.allocates _ hshort)
  have hout : Uncompresses (buf.take written) data :=
    hstands.uncompresses (show data.length < 2 ^ 32 by omega)
  have hstream : (buf.take written).length ≤ written := by
    rw [List.length_take]
    exact Nat.min_le_left _ _
  refine ⟨buf.take written, ?_, uncompress_ok abi' scratch (by omega) hout (by omega) (hgrants.mono hlength)⟩
  rw [compress, compress_call abi.sizeT hdata hgrants]
  simp only [rawCompressArray, hload, hcompress', hresult, Option.bind_eq_bind, Option.bind_some]
  rfl

theorem compress_uncompresses_seven :
    ∃ stream, compress ample .armeabiV7a [1, 2, 3, 1, 2, 3, 1] = some (.ok stream) ∧
      uncompress ample .arm64V8a (.replicate 5 0) stream = some (.ok [1, 2, 3, 1, 2, 3, 1]) :=
  compress_uncompresses ample .armeabiV7a .arm64V8a (.replicate 5 0) [1, 2, 3, 1, 2, 3, 1] (by decide)
    ⟨rfl, rfl, rfl, fun _ _ => rfl⟩

end SnappyJni
end EnvironmentCheck
