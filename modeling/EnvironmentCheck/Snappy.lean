import EnvironmentCheck.SnappyVarint

namespace EnvironmentCheck

inductive SnappyErrorCode
  | UNKNOWN
  | FAILED_TO_LOAD_NATIVE_LIBRARY
  | PARSING_ERROR
  | NOT_A_DIRECT_BUFFER
  | OUT_OF_MEMORY
  | FAILED_TO_UNCOMPRESS
  | EMPTY_INPUT
  | INCOMPATIBLE_VERSION
  | INVALID_CHUNK_SIZE
  deriving DecidableEq

namespace SnappyErrorCode

def id : SnappyErrorCode → ℕ
  | UNKNOWN => 0
  | FAILED_TO_LOAD_NATIVE_LIBRARY => 1
  | PARSING_ERROR => 2
  | NOT_A_DIRECT_BUFFER => 3
  | OUT_OF_MEMORY => 4
  | FAILED_TO_UNCOMPRESS => 5
  | EMPTY_INPUT => 6
  | INCOMPATIBLE_VERSION => 7
  | INVALID_CHUNK_SIZE => 8

def name : SnappyErrorCode → String
  | UNKNOWN => "UNKNOWN"
  | FAILED_TO_LOAD_NATIVE_LIBRARY => "FAILED_TO_LOAD_NATIVE_LIBRARY"
  | PARSING_ERROR => "PARSING_ERROR"
  | NOT_A_DIRECT_BUFFER => "NOT_A_DIRECT_BUFFER"
  | OUT_OF_MEMORY => "OUT_OF_MEMORY"
  | FAILED_TO_UNCOMPRESS => "FAILED_TO_UNCOMPRESS"
  | EMPTY_INPUT => "EMPTY_INPUT"
  | INCOMPATIBLE_VERSION => "INCOMPATIBLE_VERSION"
  | INVALID_CHUNK_SIZE => "INVALID_CHUNK_SIZE"

def values : List SnappyErrorCode :=
  [UNKNOWN, FAILED_TO_LOAD_NATIVE_LIBRARY, PARSING_ERROR, NOT_A_DIRECT_BUFFER, OUT_OF_MEMORY,
    FAILED_TO_UNCOMPRESS, EMPTY_INPUT, INCOMPATIBLE_VERSION, INVALID_CHUNK_SIZE]

def getErrorCode (id : ℕ) : SnappyErrorCode := (values.find? fun code => code.id = id).getD UNKNOWN

def getErrorMessage (id : ℕ) : String := (getErrorCode id).name

theorem getErrorCode_id (code : SnappyErrorCode) : getErrorCode code.id = code := by
  cases code <;> rfl

end SnappyErrorCode

inductive Throwable
  | ioException (message : String)
  | negativeArraySize
  | outOfMemory
  deriving DecidableEq

/-- How the default locale writes a number, whether there is room for an array of so many bytes, and
which calls of `GetPrimitiveArrayCritical` give a pointer. -/
structure JavaVm where
  digits : ℕ → String
  allocates : ℕ → Bool
  pinsStream : Bool
  pinsInput : Bool
  pinsOutput : Bool

/-- An array of `length` elements, and the bytes that native code has stored from its start on. -/
structure JavaArray where
  width : ℕ
  length : ℕ
  stored : List UInt8

namespace Snappy

def throwException (vm : JavaVm) (errorCode : ℕ) : Throwable :=
  .ioException (SnappyErrorCode.getErrorMessage errorCode ++ "(" ++ vm.digits errorCode ++ ")")

def newArray (vm : JavaVm) (width : ℕ) (length : Int32) : Except Throwable ℕ :=
  if length < 0 then .error .negativeArraySize
  else if vm.allocates (width * length.toInt.toNat) then .ok length.toInt.toNat
  else .error .outOfMemory

def uncompressedLength (vm : JavaVm) (input : List UInt8) : Except Throwable Int32 :=
  if !vm.pinsStream then .error (throwException vm 4)
  else
    match getUncompressedLength input with
    | none => .error (throwException vm 2)
    | some result => .ok (.ofNat result)

/-- The native call, with `snappy::RawUncompress` as the bytes it stores where it succeeds. -/
def rawUncompress (vm : JavaVm) (native : List UInt8 → Option (List UInt8)) (input : List UInt8) :
    Except Throwable (List UInt8) :=
  if !vm.pinsInput || !vm.pinsOutput then .error (throwException vm 4)
  else
    match native input with
    | none => .error (throwException vm 5)
    | some output => .ok output

def uncompress (vm : JavaVm) (native : List UInt8 → Option (List UInt8)) (input : List UInt8) :
    Except Throwable JavaArray := do
  let length ← newArray vm 1 (← uncompressedLength vm input)
  let stored ← rawUncompress vm native input
  return ⟨1, length, stored⟩

def uncompressArray (width : ℕ) (vm : JavaVm) (native : List UInt8 → Option (List UInt8))
    (input : List UInt8) : Except Throwable JavaArray := do
  let uncompressedLength ← uncompressedLength vm input
  let length ← newArray vm width (uncompressedLength / .ofNat width)
  let stored ← rawUncompress vm native input
  return ⟨width, length, stored⟩

def uncompressCharArray := uncompressArray 2

def uncompressShortArray := uncompressArray 2

def uncompressIntArray := uncompressArray 4

def uncompressFloatArray := uncompressArray 4

def uncompressLongArray := uncompressArray 8

def uncompressDoubleArray := uncompressArray 8

variable {vm : JavaVm} {native : List UInt8 → Option (List UInt8)} {input output : List UInt8}
  {width length : ℕ} {array : JavaArray}

theorem toInt_narrowed (h : length < 2 ^ 32) : (Int32.ofNat length).toInt =
    if length < 2 ^ 31 then (length : ℤ) else length - 2 ^ 32 := by
  rw [Int32.toInt_ofNat', Int.bmod_def]
  have hsize : (Int32.size : ℤ) = 2 ^ 32 := rfl
  rw [hsize]
  split_ifs <;> omega

def FitsArray (uncompressed : JavaVm → Except Throwable JavaArray) : Prop :=
  ∀ vm array, uncompressed vm = .ok array → array.stored.length ≤ array.width * array.length

/-- From `2 ^ 31` on the length is negative in Java, and its quotient zero at the very end. -/
def Whole (width length : ℕ) : Prop :=
  (length < 2 ^ 31 ∧ width ∣ length) ∨ (2 ^ 31 ≤ length ∧ length + width ≤ 2 ^ 32)

theorem newArray_ok {n : Int32} (h : newArray vm width n = .ok length) :
    0 ≤ n.toInt ∧ length = n.toInt.toNat := by
  unfold newArray at h
  split_ifs at h with hneg
  · cases h
    rw [Int32.lt_iff_toInt_lt, Int32.toInt_zero] at hneg
    exact ⟨by omega, rfl⟩

theorem newArray_error {n : Int32} {e : Throwable} (h : newArray vm width n = .error e) :
    (n < 0 ∧ e = .negativeArraySize) ∨
      (0 ≤ n ∧ vm.allocates (width * n.toInt.toNat) = false ∧ e = .outOfMemory) := by
  unfold newArray at h
  split_ifs at h with hneg hroom
  · exact .inl ⟨hneg, (Except.error.inj h).symm⟩
  · exact .inr ⟨Int32.not_lt.mp hneg, Bool.eq_false_of_not_eq_true hroom, (Except.error.inj h).symm⟩

theorem uncompressedLength_ok {n : Int32} (h : uncompressedLength vm input = .ok n) :
    ∃ length, getUncompressedLength input = some length ∧ n = .ofNat length := by
  unfold uncompressedLength at h
  split_ifs at h
  split at h
  · cases h
  · next length hlength =>
    cases h
    exact ⟨length, hlength, rfl⟩

theorem uncompressedLength_error {e : Throwable} (h : uncompressedLength vm input = .error e) :
    ∃ message, e = .ioException message := by
  unfold uncompressedLength at h
  split_ifs at h
  · cases h
    exact ⟨_, rfl⟩
  · split at h
    · cases h
      exact ⟨_, rfl⟩
    · cases h

theorem pinsStream_of_ok {n : Int32} (h : uncompressedLength vm input = .ok n) :
    vm.pinsStream = true := by
  unfold uncompressedLength at h
  split_ifs at h with hpins
  simpa using hpins

theorem rawUncompress_error {e : Throwable} (h : rawUncompress vm native input = .error e) :
    ∃ message, e = .ioException message := by
  unfold rawUncompress at h
  split_ifs at h
  · cases h
    exact ⟨_, rfl⟩
  · split at h
    · cases h
      exact ⟨_, rfl⟩
    · cases h

theorem rawUncompress_ok (h : rawUncompress vm native input = .ok output) :
    native input = some output := by
  unfold rawUncompress at h
  split_ifs at h
  split at h
  · cases h
  · next stored hnative =>
    cases h
    exact hnative

theorem bind_ok {α β : Type} {x : Except Throwable α} {f : α → Except Throwable β} {b : β}
    (h : x >>= f = .ok b) : ∃ a, x = .ok a ∧ f a = .ok b := by
  cases x with
  | error e => cases h
  | ok a => exact ⟨a, rfl, h⟩

theorem bind_error {α β : Type} {x : Except Throwable α} {f : α → Except Throwable β} {e : Throwable}
    (h : x >>= f = .error e) : x = .error e ∨ ∃ a, x = .ok a ∧ f a = .error e := by
  cases x with
  | error e' =>
    cases h
    exact .inl rfl
  | ok a => exact .inr ⟨a, rfl, h⟩

theorem uncompressArray_ok (h : uncompressArray width vm native input = .ok array) :
    ∃ length, getUncompressedLength input = some length ∧ native input = some array.stored ∧
      array.width = width ∧ 0 ≤ (Int32.ofNat length / .ofNat width).toInt ∧
      array.length = (Int32.ofNat length / .ofNat width).toInt.toNat := by
  obtain ⟨n, hn, h⟩ := bind_ok h
  obtain ⟨m, hm, h⟩ := bind_ok h
  obtain ⟨stored, hstored, h⟩ := bind_ok h
  cases h
  obtain ⟨length, hlength, rfl⟩ := uncompressedLength_ok hn
  obtain ⟨hnonneg, rfl⟩ := newArray_ok hm
  exact ⟨length, hlength, rawUncompress_ok hstored, rfl, hnonneg, rfl⟩

/-- With room for every array, and a pointer to each. -/
def ample : JavaVm := ⟨toString, fun _ => true, true, true, true⟩

theorem uncompressArray_ample (hlength : getUncompressedLength input = some length)
    (hnative : native input = some output)
    (hnonneg : 0 ≤ (Int32.ofNat length / .ofNat width).toInt) :
    uncompressArray width ample native input =
      .ok ⟨width, (Int32.ofNat length / .ofNat width).toInt.toNat, output⟩ := by
  have hnot : ¬ Int32.ofNat length / .ofNat width < 0 := by
    rw [Int32.lt_iff_toInt_lt, Int32.toInt_zero]
    omega
  have hquery : uncompressedLength ample input = .ok (.ofNat length) := by
    simp [uncompressedLength, ample, hlength]
  have harray : newArray ample width (.ofNat length / .ofNat width) =
      .ok (Int32.ofNat length / .ofNat width).toInt.toNat := by
    rw [newArray, if_neg hnot]
    rfl
  have hraw : rawUncompress ample native input = .ok output := by
    simp [rawUncompress, ample, hnative]
  rw [uncompressArray, hquery]
  change (newArray ample width (.ofNat length / .ofNat width) >>= _) = _
  rw [harray]
  change (rawUncompress ample native input >>= _) = _
  rw [hraw]
  rfl

theorem toInt_quotient (h : length < 2 ^ 32) (hw : width = 2 ∨ width = 4 ∨ width = 8) :
    (Int32.ofNat length / .ofNat width).toInt =
      (if length < 2 ^ 31 then (length : ℤ) else length - 2 ^ 32).tdiv width := by
  have hwidth : (Int32.ofNat width).toInt = width := Int32.toInt_ofNat_of_lt (by omega)
  have hne : Int32.ofNat width ≠ -1 := by
    obtain rfl | rfl | rfl := hw <;> decide
  rw [Int32.toInt_div_of_ne_right _ _ hne, toInt_narrowed h, hwidth]

theorem fitsArray_iff (hlength : getUncompressedLength input = some length)
    (hvalid : native input = some output) :
    FitsArray (uncompressArray width · native input) ↔
      (0 ≤ (Int32.ofNat length / .ofNat width).toInt →
        output.length ≤ width * (Int32.ofNat length / .ofNat width).toInt.toNat) := by
  constructor
  · intro h hnonneg
    exact h ample _ (uncompressArray_ample hlength hvalid hnonneg)
  · intro h vm array harray
    obtain ⟨length', hlength', hnative, rfl, hnonneg, heq⟩ := uncompressArray_ok harray
    obtain rfl := Option.some.inj (hlength.symm.trans hlength')
    rw [← Option.some.inj (hvalid.symm.trans hnative), heq]
    exact h hnonneg

theorem toInt_quotient_cases (h : length < 2 ^ 32) (hw : width = 2 ∨ width = 4 ∨ width = 8) :
    (length < 2 ^ 31 ∧ (Int32.ofNat length / .ofNat width).toInt = (length / width : ℕ)) ∨
      (2 ^ 31 ≤ length ∧
        (Int32.ofNat length / .ofNat width).toInt = -((2 ^ 32 - length) / width : ℕ)) := by
  rw [toInt_quotient h hw]
  split_ifs with hlt
  · refine .inl ⟨hlt, ?_⟩
    rw [Int.tdiv_eq_ediv_of_nonneg (Int.natCast_nonneg _)]
    rfl
  · refine .inr ⟨not_lt.mp hlt, ?_⟩
    have hneg : (length : ℤ) - 2 ^ 32 = -((2 ^ 32 - length : ℕ) : ℤ) := by omega
    rw [hneg, Int.neg_tdiv, Int.tdiv_eq_ediv_of_nonneg (Int.natCast_nonneg _)]
    rfl

theorem uncompressArray_fits_iff (hlength : getUncompressedLength input = some output.length)
    (hvalid : native input = some output) (hlt : output.length < 2 ^ 32)
    (hw : width = 2 ∨ width = 4 ∨ width = 8) :
    FitsArray (uncompressArray width · native input) ↔ Whole width output.length := by
  rw [fitsArray_iff hlength hvalid, Whole]
  obtain ⟨hsmall, hquotient⟩ | ⟨hlarge, hquotient⟩ := toInt_quotient_cases hlt hw
  · rw [hquotient, Int.toNat_natCast]
    obtain rfl | rfl | rfl := hw <;> omega
  · rw [hquotient]
    obtain rfl | rfl | rfl := hw <;> omega

/-- `RawUncompress` stores as many bytes as the stream declares. -/
def StoresDeclared (native : List UInt8 → Option (List UInt8)) : Prop :=
  ∀ stream output, native stream = some output → Declares stream output.length

theorem uncompressArrays_fit_iff (hnative : StoresDeclared native) (hvalid : native input = some output) :
    (FitsArray (uncompressCharArray · native input) ↔ Whole 2 output.length) ∧
      (FitsArray (uncompressShortArray · native input) ↔ Whole 2 output.length) ∧
      (FitsArray (uncompressIntArray · native input) ↔ Whole 4 output.length) ∧
      (FitsArray (uncompressFloatArray · native input) ↔ Whole 4 output.length) ∧
      (FitsArray (uncompressLongArray · native input) ↔ Whole 8 output.length) ∧
      (FitsArray (uncompressDoubleArray · native input) ↔ Whole 8 output.length) := by
  have hdeclares := hnative input output hvalid
  have hlength := getUncompressedLength_eq_some.mpr hdeclares
  obtain ⟨-, -, -, hlt⟩ := hdeclares
  have htwo := uncompressArray_fits_iff hlength hvalid hlt (.inl rfl)
  have hfour := uncompressArray_fits_iff hlength hvalid hlt (.inr (.inl rfl))
  have height := uncompressArray_fits_iff hlength hvalid hlt (.inr (.inr rfl))
  exact ⟨htwo, htwo, hfour, hfour, height, height⟩

/-- `RawUncompress` of the streams that are one literal of at most sixty bytes. -/
def oneLiteral : List UInt8 → Option (List UInt8)
  | length :: tag :: data =>
    if data.length = length.toNat ∧ length.toNat ≤ 60 ∧ tag.toNat + 4 = 4 * length.toNat then some data
    else none
  | _ => none

theorem oneLiteral_storesDeclared : StoresDeclared oneLiteral := by
  intro stream output h
  match stream with
  | [] => cases h
  | [_] => cases h
  | length :: tag :: data =>
    simp only [oneLiteral] at h
    split_ifs at h with hliteral
    obtain rfl := Option.some.inj h
    obtain ⟨hdata, hshort, -⟩ := hliteral
    refine ⟨tag :: data, ?_, ?_, ?_⟩
    · rw [Leb128.decode_cons_last (by omega), hdata]
    · simp only [List.length_cons]
      omega
    · omega

theorem uncompressArrays_fit_iff_oneLiteral :
    FitsArray (uncompressShortArray · oneLiteral [4, 12, 1, 2, 3, 4]) ↔ Whole 2 4 :=
  (uncompressArrays_fit_iff oneLiteral_storesDeclared
    (rfl : oneLiteral [4, 12, 1, 2, 3, 4] = some [1, 2, 3, 4])).2.1

/-- A stream of three bytes as an array of shorts, which has room for two. -/
theorem uncompressShortArray_overrun : oneLiteral [3, 8, 1, 2, 3] = some [1, 2, 3] ∧
    uncompressShortArray ample oneLiteral [3, 8, 1, 2, 3] = .ok ⟨2, 1, [1, 2, 3]⟩ ∧
      ¬ FitsArray (uncompressShortArray · oneLiteral [3, 8, 1, 2, 3]) := by
  have hrun : uncompressShortArray ample oneLiteral [3, 8, 1, 2, 3] = .ok ⟨2, 1, [1, 2, 3]⟩ := rfl
  refine ⟨rfl, hrun, fun h => ?_⟩
  exact absurd (h ample _ hrun) (by decide)

def QueryExact (vm : JavaVm) (input : List UInt8) : Prop :=
  (∀ length, Declares input length →
      ∃ n, uncompressedLength vm input = .ok n ∧ n.toInt = length) ∧
    ((∀ length, ¬ Declares input length) →
      uncompressedLength vm input = .error (throwException vm 2))

structure EndsCleanly (vm : JavaVm) (native : List UInt8 → Option (List UInt8)) (input : List UInt8) :
    Prop where
  data : ∀ array, uncompress vm native input = .ok array →
    native input = some array.stored ∧ Declares input array.length
  memory : uncompress vm native input = .error .outOfMemory →
    ∃ length, Declares input length ∧ vm.allocates length = false
  notNegative : uncompress vm native input ≠ .error .negativeArraySize

def ShortLength (input : List UInt8) : Prop := ∀ length, Declares input length → length < 2 ^ 31

theorem throwException_ne (vm : JavaVm) : throwException vm 4 ≠ throwException vm 2 := by
  intro h
  have hmessage := congrArg String.toList (Throwable.ioException.inj h)
  simp [SnappyErrorCode.getErrorMessage, SnappyErrorCode.getErrorCode, SnappyErrorCode.values,
    SnappyErrorCode.id, SnappyErrorCode.name] at hmessage

theorem uncompressedLength_of_declares (hpins : vm.pinsStream = true) (h : Declares input length) :
    uncompressedLength vm input = .ok (.ofNat length) := by
  simp [uncompressedLength, hpins, getUncompressedLength_eq_some.mpr h]

theorem getUncompressedLength_eq_none (h : ∀ length, ¬ Declares input length) :
    getUncompressedLength input = none := by
  cases hlength : getUncompressedLength input with
  | none => rfl
  | some length => exact absurd (getUncompressedLength_eq_some.mp hlength) (h length)

theorem queryExact_iff (vm : JavaVm) (input : List UInt8) :
    QueryExact vm input ↔ vm.pinsStream = true ∧ ShortLength input := by
  constructor
  · rintro ⟨hexact, hfails⟩
    cases hpins : vm.pinsStream with
    | false =>
      exfalso
      have hunpinned : uncompressedLength vm input = .error (throwException vm 4) := by
        simp [uncompressedLength, hpins]
      by_cases hdeclares : ∃ length, Declares input length
      · obtain ⟨length, hdeclares⟩ := hdeclares
        obtain ⟨n, hn, -⟩ := hexact length hdeclares
        rw [hunpinned] at hn
        cases hn
      · have hfailed := hfails fun length h => hdeclares ⟨length, h⟩
        rw [hunpinned] at hfailed
        exact throwException_ne vm (Except.error.inj hfailed)
    | true =>
      refine ⟨rfl, fun length hdeclares => ?_⟩
      obtain ⟨n, hn, hvalue⟩ := hexact length hdeclares
      rw [uncompressedLength_of_declares hpins hdeclares] at hn
      rw [← Except.ok.inj hn] at hvalue
      have hlt := (Int32.ofNat length).toInt_lt
      omega
  · rintro ⟨hpins, hshort⟩
    constructor
    · intro length hdeclares
      exact ⟨_, uncompressedLength_of_declares hpins hdeclares,
        Int32.toInt_ofNat_of_lt (hshort length hdeclares)⟩
    · intro hnone
      simp [uncompressedLength, hpins, getUncompressedLength_eq_none hnone]

theorem uncompress_ok (h : uncompress vm native input = .ok array) :
    ∃ length, getUncompressedLength input = some length ∧ native input = some array.stored ∧
      0 ≤ (Int32.ofNat length).toInt ∧ array.length = (Int32.ofNat length).toInt.toNat := by
  obtain ⟨n, hn, h⟩ := bind_ok h
  obtain ⟨m, hm, h⟩ := bind_ok h
  obtain ⟨stored, hstored, h⟩ := bind_ok h
  cases h
  obtain ⟨length, hlength, rfl⟩ := uncompressedLength_ok hn
  obtain ⟨hnonneg, rfl⟩ := newArray_ok hm
  exact ⟨length, hlength, rawUncompress_ok hstored, hnonneg, rfl⟩

theorem uncompress_error {e : Throwable} (h : uncompress vm native input = .error e) :
    (∃ message, e = .ioException message) ∨
      ∃ length, vm.pinsStream = true ∧ getUncompressedLength input = some length ∧
        newArray vm 1 (.ofNat length) = .error e := by
  obtain hquery | ⟨n, hn, h⟩ := bind_error h
  · exact .inl (uncompressedLength_error hquery)
  · obtain ⟨length, hlength, rfl⟩ := uncompressedLength_ok hn
    obtain hnew | ⟨m, -, h⟩ := bind_error h
    · exact .inr ⟨length, pinsStream_of_ok hn, hlength, hnew⟩
    · obtain hraw | ⟨stored, -, h⟩ := bind_error h
      · exact .inl (rawUncompress_error hraw)
      · cases h

theorem uncompress_of_negative {n : Int32} (hquery : uncompressedLength vm input = .ok n) (hneg : n < 0) :
    uncompress vm native input = .error .negativeArraySize := by
  rw [uncompress, hquery]
  change (newArray vm 1 n >>= _) = _
  rw [newArray, if_pos hneg]
  rfl

theorem endsCleanly_iff (vm : JavaVm) (native : List UInt8 → Option (List UInt8)) (input : List UInt8) :
    EndsCleanly vm native input ↔ (vm.pinsStream = true → ShortLength input) := by
  constructor
  · intro h hpins length hdeclares
    by_contra hlong
    have hlt : length < 2 ^ 32 := hdeclares.choose_spec.2.2
    have hneg : Int32.ofNat length < 0 := by
      rw [Int32.lt_iff_toInt_lt, toInt_narrowed hlt, if_neg hlong, Int32.toInt_zero]
      omega
    exact h.notNegative (uncompress_of_negative (uncompressedLength_of_declares hpins hdeclares) hneg)
  · intro h
    constructor
    · intro array harray
      obtain ⟨length, hlength, hnative, -, hsize⟩ := uncompress_ok harray
      have hdeclares := getUncompressedLength_eq_some.mp hlength
      obtain ⟨n, hn, -⟩ := bind_ok harray
      have hshort := h (pinsStream_of_ok hn) length hdeclares
      rw [Int32.toInt_ofNat_of_lt hshort, Int.toNat_natCast] at hsize
      exact ⟨hnative, hsize ▸ hdeclares⟩
    · intro hmemory
      obtain ⟨message, hio⟩ | ⟨length, hpins, hlength, hnew⟩ := uncompress_error hmemory
      · cases hio
      · have hdeclares := getUncompressedLength_eq_some.mp hlength
        obtain ⟨-, hnegative⟩ | ⟨-, hroom, -⟩ := newArray_error hnew
        · cases hnegative
        · rw [Int32.toInt_ofNat_of_lt (h hpins length hdeclares), Int.toNat_natCast, one_mul] at hroom
          exact ⟨length, hdeclares, hroom⟩
    · intro hnegative
      obtain ⟨message, hio⟩ | ⟨length, hpins, hlength, hnew⟩ := uncompress_error hnegative
      · cases hio
      · obtain ⟨hneg, -⟩ | ⟨-, -, hmemory⟩ := newArray_error hnew
        · rw [Int32.lt_iff_toInt_lt, Int32.toInt_zero,
            Int32.toInt_ofNat_of_lt (h hpins length (getUncompressedLength_eq_some.mp hlength))] at hneg
          omega
        · cases hmemory

theorem snappyLength_iff (vm : JavaVm) (native : List UInt8 → Option (List UInt8)) (input : List UInt8) :
    (QueryExact vm input ↔ vm.pinsStream = true ∧ ShortLength input) ∧
      (EndsCleanly vm native input ↔ (vm.pinsStream = true → ShortLength input)) :=
  ⟨queryExact_iff vm input, endsCleanly_iff vm native input⟩

theorem uncompressedLength_negative : Declares [128, 128, 128, 128, 8] (2 ^ 31) ∧
    (∃ n, uncompressedLength ample [128, 128, 128, 128, 8] = .ok n ∧ n.toInt = -2 ^ 31) ∧
      uncompress ample oneLiteral [128, 128, 128, 128, 8] = .error .negativeArraySize := by
  have hdeclares : Declares [128, 128, 128, 128, 8] (2 ^ 31) := ⟨[], by decide, by decide, by decide⟩
  exact ⟨hdeclares, ⟨_, uncompressedLength_of_declares rfl hdeclares, by decide⟩, rfl⟩

end Snappy

end EnvironmentCheck
