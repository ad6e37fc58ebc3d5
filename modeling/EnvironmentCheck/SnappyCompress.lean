import EnvironmentCheck.Snappy

namespace EnvironmentCheck.Snappy

inductive SizeT
  | bits32
  | bits64

def SizeT.width : SizeT → ℕ
  | .bits32 => 32
  | .bits64 => 64

def toSizeT (w : ℕ) (size : Int32) : BitVec w := .ofInt w size.toInt

/-- `snappy::MaxCompressedLength`. -/
def nativeMaxCompressedLength {w : ℕ} (sourceBytes : BitVec w) : BitVec w :=
  32 + sourceBytes + sourceBytes / 6

def maxCompressedLength (sizeT : SizeT) (size : Int32) : Int32 :=
  .ofBitVec ((nativeMaxCompressedLength (toSizeT sizeT.width size)).setWidth 32)

/-- What `snappy::RawCompress` is called with: the count of bytes to read, and room for as many to
store. -/
structure NativeCompression where
  inputLength : ℕ
  output : ℕ

/-- Up to the call of the native compressor. -/
def rawCompress (vm : JavaVm) (sizeT : SizeT) (byteSize : Int32) :
    Except Throwable NativeCompression := do
  let buf ← newArray vm 1 (maxCompressedLength sizeT byteSize)
  if !vm.pinsInput || !vm.pinsOutput then .error (throwException vm 4)
  else return ⟨(toSizeT sizeT.width byteSize).toNat, buf⟩

def compressByteArray (vm : JavaVm) (sizeT : SizeT) (length : Int32) :=
  rawCompress vm sizeT length

def compressElements (width : ℕ) (vm : JavaVm) (sizeT : SizeT) (length : Int32) :=
  rawCompress vm sizeT (length * .ofNat width)

def compressCharArray := compressElements 2

def compressShortArray := compressElements 2

def compressIntArray := compressElements 4

def compressFloatArray := compressElements 4

def compressLongArray := compressElements 8

def compressDoubleArray := compressElements 8

def SizesRight (compress : JavaVm → Except Throwable NativeCompression) (byteCount : ℕ) : Prop :=
  ∀ vm call, compress vm = .ok call →
    call.inputLength = byteCount ∧ 32 + byteCount + byteCount / 6 ≤ call.output

/-- The count wraps in Java, but so that the size of the buffer is negative. -/
def Refused (sizeT : SizeT) (byteCount : ℕ) : Prop :=
  if byteCount % 2 ^ 32 < 2 ^ 31 then
    2 ^ 31 ≤ 32 + byteCount % 2 ^ 32 + byteCount % 2 ^ 32 / 6
  else
    match sizeT with
    | .bits32 => 715827914 < (2 ^ 32 - byteCount % 2 ^ 32) + (2 ^ 32 - byteCount % 2 ^ 32 + 1) / 6
    | .bits64 => (2 ^ 32 - byteCount % 2 ^ 32) + (2 ^ 32 - byteCount % 2 ^ 32 + 1) / 6 ≤ 715827914

variable {vm : JavaVm} {sizeT : SizeT} {byteSize : Int32} {call : NativeCompression}

theorem toNat_toSizeT (w : ℕ) (size : Int32) : (toSizeT w size).toNat = (size.toInt % 2 ^ w).toNat := by
  rw [toSizeT, BitVec.toNat_ofInt]
  norm_cast

theorem dvd_two_pow_width (sizeT : SizeT) : 2 ^ 32 ∣ 2 ^ sizeT.width := by
  cases sizeT with
  | bits32 => exact dvd_rfl
  | bits64 => exact pow_dvd_pow 2 (by decide)

theorem toNat_nativeMaxCompressedLength (sizeT : SizeT) (s : BitVec sizeT.width) :
    (nativeMaxCompressedLength s).toNat % 2 ^ 32 = (32 + s.toNat + s.toNat / 6) % 2 ^ 32 := by
  have hsix : (6 : BitVec sizeT.width).toNat = 6 := by cases sizeT <;> rfl
  have hmax : (32 : BitVec sizeT.width).toNat = 32 := by cases sizeT <;> rfl
  rw [nativeMaxCompressedLength, BitVec.toNat_add, BitVec.toNat_add, BitVec.toNat_udiv, hsix, hmax,
    Nat.mod_add_mod, Nat.mod_mod_of_dvd _ (dvd_two_pow_width sizeT)]

theorem toInt_maxCompressedLength (sizeT : SizeT) (size : Int32) :
    (maxCompressedLength sizeT size).toInt =
      ((32 + (toSizeT sizeT.width size).toNat + (toSizeT sizeT.width size).toNat / 6 : ℕ) : ℤ).bmod
        (2 ^ 32) := by
  rw [maxCompressedLength, Int32.toInt_ofBitVec, BitVec.toInt_eq_toNat_bmod, BitVec.toNat_setWidth,
    toNat_nativeMaxCompressedLength, Int.natCast_mod]
  exact Int.emod_bmod _ _

theorem rawCompress_ok (h : rawCompress vm sizeT byteSize = .ok call) :
    0 ≤ (maxCompressedLength sizeT byteSize).toInt ∧
      call.inputLength = (toSizeT sizeT.width byteSize).toNat ∧
      call.output = (maxCompressedLength sizeT byteSize).toInt.toNat := by
  obtain ⟨buf, hbuf, h⟩ := bind_ok h
  obtain ⟨hnonneg, rfl⟩ := newArray_ok hbuf
  split_ifs at h
  cases h
  exact ⟨hnonneg, rfl, rfl⟩

theorem rawCompress_ample (h : 0 ≤ (maxCompressedLength sizeT byteSize).toInt) :
    rawCompress ample sizeT byteSize = .ok ⟨(toSizeT sizeT.width byteSize).toNat,
      (maxCompressedLength sizeT byteSize).toInt.toNat⟩ := by
  have hnot : ¬ maxCompressedLength sizeT byteSize < 0 := by
    rw [Int32.lt_iff_toInt_lt, Int32.toInt_zero]
    omega
  have hbuf : newArray ample 1 (maxCompressedLength sizeT byteSize) =
      .ok (maxCompressedLength sizeT byteSize).toInt.toNat := by
    rw [newArray, if_neg hnot]
    rfl
  rw [rawCompress, hbuf]
  rfl

theorem sizesRight_rawCompress_iff (byteCount : ℕ) :
    SizesRight (rawCompress · sizeT byteSize) byteCount ↔
      (0 ≤ (maxCompressedLength sizeT byteSize).toInt →
        (toSizeT sizeT.width byteSize).toNat = byteCount ∧
          (32 + byteCount + byteCount / 6 : ℤ) ≤ (maxCompressedLength sizeT byteSize).toInt) := by
  constructor
  · intro h hnonneg
    obtain ⟨hinput, houtput⟩ := h ample _ (rawCompress_ample hnonneg)
    refine ⟨hinput, ?_⟩
    dsimp only at houtput
    omega
  · intro h vm call hcall
    obtain ⟨hnonneg, hinput, houtput⟩ := rawCompress_ok hcall
    obtain ⟨hcount, hroom⟩ := h hnonneg
    rw [hinput, houtput]
    exact ⟨hcount, by omega⟩

def sizeTOf (sizeT : SizeT) (byteCount : ℕ) : ℕ :=
  if byteCount % 2 ^ 32 < 2 ^ 31 then byteCount % 2 ^ 32
  else 2 ^ sizeT.width - (2 ^ 32 - byteCount % 2 ^ 32)

theorem toNat_toSizeT_wrapped {byteCount : ℕ} (h : byteSize.toInt = (byteCount : ℤ).bmod (2 ^ 32)) :
    (toSizeT sizeT.width byteSize).toNat = sizeTOf sizeT byteCount := by
  rw [toNat_toSizeT, h, Int.bmod_def, sizeTOf]
  cases sizeT with
  | bits32 =>
    change (_ % 2 ^ 32 : ℤ).toNat = ite _ _ (2 ^ 32 - _)
    split_ifs <;> omega
  | bits64 =>
    change (_ % 2 ^ 64 : ℤ).toNat = ite _ _ (2 ^ 64 - _)
    split_ifs <;> omega

theorem sizesRight_iff {byteCount : ℕ} (h : byteSize.toInt = (byteCount : ℤ).bmod (2 ^ 32))
    (hlt : byteCount < 2 ^ 34) :
    SizesRight (rawCompress · sizeT byteSize) byteCount ↔
      byteCount < 2 ^ 31 ∨ Refused sizeT byteCount := by
  rw [sizesRight_rawCompress_iff, toInt_maxCompressedLength, toNat_toSizeT_wrapped h, Int.bmod_def]
  cases sizeT with
  | bits32 =>
    have hwidth : SizeT.bits32.width = 32 := rfl
    unfold Refused sizeTOf
    rw [hwidth]
    by_cases hsmall : byteCount % 2 ^ 32 < 2 ^ 31
    · simp only [if_pos hsmall]
      split_ifs <;> omega
    · simp only [if_neg hsmall]
      split_ifs <;> omega
  | bits64 =>
    have hwidth : SizeT.bits64.width = 64 := rfl
    unfold Refused sizeTOf
    rw [hwidth]
    by_cases hsmall : byteCount % 2 ^ 32 < 2 ^ 31
    · simp only [if_pos hsmall]
      split_ifs <;> omega
    · simp only [if_neg hsmall]
      split_ifs <;> omega

theorem compressElements_sizesRight_iff (sizeT : SizeT) {n width : ℕ} (hn : n < 2 ^ 31)
    (hw : width = 2 ∨ width = 4 ∨ width = 8) :
    SizesRight (compressElements width · sizeT (.ofNat n)) (n * width) ↔
      n * width < 2 ^ 31 ∨ Refused sizeT (n * width) := by
  apply sizesRight_iff
  · have hwidth : (Int32.ofNat width).toInt = width := Int32.toInt_ofNat_of_lt (by omega)
    rw [Int32.toInt_mul, Int32.toInt_ofNat_of_lt hn, hwidth]
    rfl
  · obtain rfl | rfl | rfl := hw <;> omega

theorem compress_sizesRight_iff (sizeT : SizeT) (n : ℕ) (hn : n < 2 ^ 31) :
    SizesRight (compressByteArray · sizeT (.ofNat n)) n ∧
      (SizesRight (compressCharArray · sizeT (.ofNat n)) (n * 2) ↔
        n * 2 < 2 ^ 31 ∨ Refused sizeT (n * 2)) ∧
      (SizesRight (compressShortArray · sizeT (.ofNat n)) (n * 2) ↔
        n * 2 < 2 ^ 31 ∨ Refused sizeT (n * 2)) ∧
      (SizesRight (compressIntArray · sizeT (.ofNat n)) (n * 4) ↔
        n * 4 < 2 ^ 31 ∨ Refused sizeT (n * 4)) ∧
      (SizesRight (compressFloatArray · sizeT (.ofNat n)) (n * 4) ↔
        n * 4 < 2 ^ 31 ∨ Refused sizeT (n * 4)) ∧
      (SizesRight (compressLongArray · sizeT (.ofNat n)) (n * 8) ↔
        n * 8 < 2 ^ 31 ∨ Refused sizeT (n * 8)) ∧
      (SizesRight (compressDoubleArray · sizeT (.ofNat n)) (n * 8) ↔
        n * 8 < 2 ^ 31 ∨ Refused sizeT (n * 8)) := by
  have hbyte : (Int32.ofNat n).toInt = (n : ℤ).bmod (2 ^ 32) := by
    rw [Int32.toInt_ofNat']
    rfl
  have htwo := compressElements_sizesRight_iff sizeT hn (.inl rfl)
  have hfour := compressElements_sizesRight_iff sizeT hn (.inr (.inl rfl))
  have height := compressElements_sizesRight_iff sizeT hn (.inr (.inr rfl))
  exact ⟨(sizesRight_iff hbyte (by omega)).mpr (.inl hn), htwo, htwo, hfour, hfour, height, height⟩

theorem compress_sizesRight_iff_five :
    SizesRight (compressCharArray · .bits64 (.ofNat 5)) 10 ↔ 10 < 2 ^ 31 ∨ Refused .bits64 10 :=
  (compress_sizesRight_iff .bits64 5 (by decide)).2.1

/-- Of `2 ^ 29` numbers no byte is compressed, into a buffer of 32. -/
theorem compressLongArray_wraps :
    compressLongArray ample .bits64 (.ofNat (2 ^ 29)) = .ok ⟨0, 32⟩ ∧
      ¬ SizesRight (compressLongArray · .bits64 (.ofNat (2 ^ 29))) (2 ^ 29 * 8) := by
  have hrun : compressLongArray ample .bits64 (.ofNat (2 ^ 29)) = .ok ⟨0, 32⟩ := rfl
  refine ⟨hrun, fun h => ?_⟩
  exact absurd (h ample _ hrun).1 (by decide)

end EnvironmentCheck.Snappy
