import EnvironmentCheck.SnappyFragment
import EnvironmentCheck.SnappyVarint

namespace EnvironmentCheck.SnappyCodec

open BackReference Buffer

/-- `Source`, whose bytes lie in several flat regions: `flat n` is how many of the last `n` bytes come
in one piece. -/
structure Source where
  left : List UInt8
  flat : ℕ → ℕ
  flat_pos : ∀ n, 0 < n → 0 < flat n

namespace Source

def available (reader : Source) : ℕ := reader.left.length

def peek (reader : Source) : List UInt8 := reader.left.take (reader.flat reader.left.length)

def skip (reader : Source) (n : ℕ) : Source := { reader with left := reader.left.drop n }

end Source

def byteArraySource (p : List UInt8) : Source := ⟨p, id, fun _ h => h⟩

/-- `Varint::Encode32`, of an argument that is narrowed to 32 bits. -/
def encode32 (n : ℕ) : List UInt8 :=
  let v := n % 2 ^ 32
  let B := 128
  if v < 1 <<< 7 then [.ofNat v]
  else if v < 1 <<< 14 then [.ofNat (v ||| B), .ofNat (v >>> 7)]
  else if v < 1 <<< 21 then [.ofNat (v ||| B), .ofNat (v >>> 7 ||| B), .ofNat (v >>> 14)]
  else if v < 1 <<< 28 then
    [.ofNat (v ||| B), .ofNat (v >>> 7 ||| B), .ofNat (v >>> 14 ||| B), .ofNat (v >>> 21)]
  else
    [.ofNat (v ||| B), .ofNat (v >>> 7 ||| B), .ofNat (v >>> 14 ||| B), .ofNat (v >>> 21 ||| B),
      .ofNat (v >>> 28)]

/-- Regions are copied to the scratch input until there are `needed` bytes more. -/
def gather : ℕ → Source → ℕ → Option (List UInt8 × Source)
  | _, reader, 0 => some ([], reader)
  | 0, _, _ + 1 => none
  | fuel + 1, reader, needed@(_ + 1) => do
    let fragment := reader.peek
    let n := min fragment.length needed
    let (bytes, reader) ← gather fuel (reader.skip n) (needed - n)
    return (fragment.take n ++ bytes, reader)

/-- The next block, where it can be had without a copy, and what is left to skip after it. -/
def nextBlock (reader : Source) (numToRead : ℕ) : Option (List UInt8 × Source × ℕ) := do
  let fragment := reader.peek
  if fragment.length ≥ numToRead then return (fragment.take numToRead, reader, numToRead)
  else
    let bytesRead := fragment.length
    let (bytes, reader) ← gather numToRead (reader.skip bytesRead) (numToRead - bytesRead)
    return (fragment ++ bytes, reader, 0)

/-- `GetHashTable`, of what has been allocated for a table. -/
def getHashTable (allocated fragmentSize : ℕ) : Option (List UInt16) :=
  let htsize := calculateTableSize fragmentSize
  if htsize ≤ allocated then some (List.replicate htsize 0) else none

/-- The loop over the blocks; `UncheckedByteArraySink` gives its own buffer away. -/
def compressBlocks (abi : Abi) (allocated : ℕ) : ℕ → Source → ℕ → List UInt8 → ℕ → Option Output
  | _, _, 0, dest, written => some (dest, written)
  | 0, _, _ + 1, _, _ => none
  | fuel + 1, reader, N@(_ + 1), dest, written => do
    let numToRead := min N kBlockSize
    let (fragment, reader, pendingAdvance) ← nextBlock reader numToRead
    let table ← getHashTable allocated numToRead
    let (dest, written) ← compressFragment abi fragment dest written table table.length
    compressBlocks abi allocated fuel (reader.skip pendingAdvance) (N - numToRead) dest written

def compress (abi : Abi) (reader : Source) (dest : List UInt8) : Option Output := do
  let N := reader.available
  let ulength := encode32 N
  let dest ← store dest 0 ulength
  let allocated := calculateTableSize (min N kBlockSize)
  compressBlocks abi allocated N reader N dest ulength.length

/-- `RawCompress`, with the buffer it has filled and the length of what is in it. -/
def rawCompress (abi : Abi) (input compressed : List UInt8) : Option Output :=
  compress abi (byteArraySource input) compressed

variable {abi : Abi} {reader : Source} {input front dest : List UInt8} {m n needed fuel written : ℕ}

theorem or_marked (v : ℕ) : UInt8.ofNat (v ||| 128) = .ofNat (v % 128 + 128) := by
  apply UInt8.toNat_inj.mp
  have hmarked : (v ||| 2 ^ 7) % 2 ^ 8 = 2 ^ 7 + v % 2 ^ 7 := by
    apply Nat.eq_of_testBit_eq
    intro j
    have hlow : v % 2 ^ 7 < 2 ^ 7 := Nat.mod_lt _ (by decide)
    have hor := Nat.two_pow_add_eq_or_of_lt hlow 1
    rw [mul_one] at hor
    rw [hor, Nat.testBit_mod_two_pow, Nat.testBit_or, Nat.testBit_or, Nat.testBit_mod_two_pow,
      Nat.testBit_two_pow]
    obtain hj | rfl | hj := lt_trichotomy j 7
    · rw [decide_eq_true (by omega), decide_eq_true hj, decide_eq_false (by omega), Bool.true_and,
        Bool.true_and, Bool.or_false, Bool.false_or]
    · rw [decide_eq_true rfl, Bool.or_true, Bool.true_or]
      rfl
    · rw [decide_eq_false (by omega), decide_eq_false (by omega), decide_eq_false (by omega)]
      rfl
  rw [UInt8.toNat_ofNat', UInt8.toNat_ofNat']
  change (v ||| 2 ^ 7) % 2 ^ 8 = _
  rw [hmarked]
  omega

theorem encode32_eq (h : n < 2 ^ 32) : encode32 n = Leb128.encode n := by
  have hlast : ∀ v, v < 128 → Leb128.encode v = [.ofNat v] := by
    intro v hv
    rw [Leb128.encode, if_pos hv]
  have hmore : ∀ v, ¬ v < 128 → Leb128.encode v = .ofNat (v ||| 128) :: Leb128.encode (v / 128) := by
    intro v hv
    rw [Leb128.encode, if_neg hv, or_marked]
  have h7 : n >>> 7 = n / 128 := Nat.shiftRight_eq_div_pow n 7
  have h14 : n >>> 14 = n / 128 / 128 := by rw [Nat.shiftRight_eq_div_pow]; omega
  have h21 : n >>> 21 = n / 128 / 128 / 128 := by rw [Nat.shiftRight_eq_div_pow]; omega
  have h28 : n >>> 28 = n / 128 / 128 / 128 / 128 := by rw [Nat.shiftRight_eq_div_pow]; omega
  simp only [encode32, Nat.mod_eq_of_lt h, h7, h14, h21, h28, Nat.one_shiftLeft]
  split_ifs with h1 h2 h3 h4
  · rw [hlast n (by omega)]
  · rw [hmore n (by omega), hlast _ (by omega)]
  · rw [hmore n (by omega), hmore _ (by omega), hlast _ (by omega)]
  · rw [hmore n (by omega), hmore _ (by omega), hmore _ (by omega), hlast _ (by omega)]
  · rw [hmore n (by omega), hmore _ (by omega), hmore _ (by omega), hmore _ (by omega),
      hlast _ (by omega)]

theorem gather_eq (h : needed ≤ reader.left.length) (hfuel : needed ≤ fuel) :
    gather fuel reader needed = some (reader.left.take needed, reader.skip needed) := by
  induction fuel generalizing reader needed with
  | zero =>
    obtain rfl : needed = 0 := by omega
    rfl
  | succ fuel ih =>
    cases needed with
    | zero => rfl
    | succ needed =>
      have hflat := reader.flat_pos reader.left.length (by omega)
      have hpeek : reader.peek.length = min (reader.flat reader.left.length) reader.left.length :=
        List.length_take
      have hregion : reader.peek.take (min reader.peek.length (needed + 1)) =
          reader.left.take (min reader.peek.length (needed + 1)) := by
        rw [Source.peek, List.take_take]
        congr 1
        rw [Source.peek] at hpeek
        omega
      have hpositive : 0 < min reader.peek.length (needed + 1) := by omega
      have hwithin : min reader.peek.length (needed + 1) ≤ needed + 1 := Nat.min_le_right _ _
      rw [gather]
      simp only [hregion, Option.bind_eq_bind]
      generalize min reader.peek.length (needed + 1) = k at hpositive hwithin ⊢
      have hlength : (reader.skip k).left.length = reader.left.length - k := List.length_drop
      have hsum : k + (needed + 1 - k) = needed + 1 := by omega
      rw [ih (by omega) (by omega)]
      simp only [Option.bind_some, Source.skip, List.drop_drop]
      rw [← List.take_add, hsum]
      rfl

theorem nextBlock_eq (h : n ≤ reader.left.length) :
    ∃ reader' pending, nextBlock reader n = some (reader.left.take n, reader', pending) ∧
      reader'.skip pending = reader.skip n := by
  rw [nextBlock]
  have hpeek : reader.peek.length = min (reader.flat reader.left.length) reader.left.length :=
    List.length_take
  by_cases hwhole : reader.peek.length ≥ n
  · have hregion : reader.peek.take n = reader.left.take n := by
      rw [Source.peek, List.take_take]
      congr 1
      omega
    simp only [if_pos hwhole, hregion]
    exact ⟨reader, n, rfl, rfl⟩
  · have hlength : (reader.skip reader.peek.length).left.length =
        reader.left.length - reader.peek.length := List.length_drop
    have hfront : reader.peek = reader.left.take reader.peek.length := by
      rw [Source.peek, List.length_take]
      exact (List.take_eq_take_min ..)
    have hsum : reader.peek.length + (n - reader.peek.length) = n := by omega
    simp only [if_neg hwhole, Option.bind_eq_bind]
    rw [gather_eq (by omega) (by omega)]
    refine ⟨_, 0, congrArg some (congrArg (Prod.mk · _) ?_), ?_⟩
    · conv => lhs; arg 1; rw [hfront]
      rw [Source.skip, ← List.take_add, hsum]
    · simp only [Source.skip, List.drop_drop, Nat.add_zero, hsum]

theorem calculateTableSize_pos (n : ℕ) : 0 < calculateTableSize n := by
  rw [calculateTableSize]
  split_ifs
  · decide
  · decide
  · rw [Nat.shiftLeft_eq]
    positivity

theorem calculateTableSize_mono (h : m ≤ n) : calculateTableSize m ≤ calculateTableSize n := by
  have hmax : kMaxHashTableSize = 2 ^ 14 := by decide
  have hmin : kMinHashTableSize = 2 ^ 8 := by decide
  have hlog : ∀ k, 256 ≤ k → k ≤ 2 ^ 14 → 2 ^ log2FloorNonZero (k - 1) ≤ k - 1 ∧
      k - 1 < 2 ^ (log2FloorNonZero (k - 1) + 1) := by
    intro k hk hle
    exact log2FloorNonZero_eq (by omega) (by omega)
  have hshift : ∀ k, 2 <<< log2FloorNonZero (k - 1) = 2 ^ (log2FloorNonZero (k - 1) + 1) := by
    intro k
    rw [Nat.shiftLeft_eq, pow_succ']
  have hlow : ∀ k, 256 ≤ k → k ≤ 2 ^ 14 → 2 ^ 8 ≤ 2 ^ (log2FloorNonZero (k - 1) + 1) := by
    intro k hk hle
    apply Nat.pow_le_pow_right (by decide)
    by_contra hlt
    have hpow : 2 ^ (log2FloorNonZero (k - 1) + 1) ≤ 2 ^ 7 := Nat.pow_le_pow_right (by decide) (by omega)
    have hupper := (hlog k hk hle).2
    omega
  have hhigh : ∀ k, 256 ≤ k → k ≤ 2 ^ 14 → 2 ^ (log2FloorNonZero (k - 1) + 1) ≤ 2 ^ 14 := by
    intro k hk hle
    apply Nat.pow_le_pow_right (by decide)
    by_contra hlt
    have hpow : 2 ^ 14 ≤ 2 ^ log2FloorNonZero (k - 1) := Nat.pow_le_pow_right (by decide) (by omega)
    have hlower := (hlog k hk hle).1
    omega
  simp only [calculateTableSize, hshift, hmax, hmin]
  split_ifs with h1 h2 h3 h4 h5 h6 h7
  · exact le_rfl
  · omega
  · omega
  · decide
  · exact le_rfl
  · exact hlow n (by omega) (by omega)
  · exact hhigh m (by omega) (by omega)
  · omega
  · apply Nat.pow_le_pow_right (by decide)
    by_contra hlt
    have hpow : 2 ^ (log2FloorNonZero (n - 1) + 1) ≤ 2 ^ log2FloorNonZero (m - 1) :=
      Nat.pow_le_pow_right (by decide) (by omega)
    have hlower := (hlog m (by omega) (by omega)).1
    have hupper := (hlog n (by omega) (by omega)).2
    omega

theorem getHashTable_eq (h : m ≤ n) : getHashTable (calculateTableSize n) m =
    some (List.replicate (calculateTableSize m) 0) := if_pos (calculateTableSize_mono h)

theorem compressBlocks_zero (allocated : ℕ) :
    compressBlocks abi allocated fuel reader 0 dest written = some (dest, written) := by
  cases fuel <;> rfl

/-- A block costs a thirtieth at most, and the last one a byte more. -/
theorem compressBlocks_decodes (abi : Abi) {N : ℕ} (hN : reader.left.length = N) (hfuel : N ≤ fuel) {whole : ℕ}
    (hblock : min N kBlockSize ≤ whole) (hwritten : 60 * written ≤ 300 + 62 * front.length)
    (hroom : maxCompressedLength (front.length + N) ≤ dest.length) :
    ∃ r emitted, compressBlocks abi (calculateTableSize whole) fuel reader N dest written = some r ∧
      Emits dest written emitted r ∧ Decodes emitted front (front ++ reader.left) ∧
      60 * r.2 ≤ 360 + 62 * (front.length + N) := by
  have hsize : kBlockSize = 65536 := by decide
  induction fuel generalizing reader front dest written N with
  | zero =>
    obtain rfl : N = 0 := Nat.le_zero.mp hfuel
    rw [List.length_eq_zero_iff.mp hN, List.append_nil]
    exact ⟨_, [], rfl, ⟨rfl, (List.append_nil _).symm, rfl⟩, .done front, by dsimp only; omega⟩
  | succ fuel ih =>
    cases N with
    | zero =>
      rw [List.length_eq_zero_iff.mp hN, List.append_nil]
      exact ⟨_, [], rfl, ⟨rfl, (List.append_nil _).symm, rfl⟩, .done front, by dsimp only; omega⟩
    | succ n =>
      have hpositive : 0 < min (n + 1) kBlockSize := by omega
      have hwithin : min (n + 1) kBlockSize ≤ 65536 := hsize ▸ Nat.min_le_right _ _
      have hfull : min (n + 1) kBlockSize = n + 1 ∨ min (n + 1) kBlockSize = 65536 := by omega
      have hle : min (n + 1) kBlockSize ≤ n + 1 := Nat.min_le_left _ _
      rw [compressBlocks]
      generalize min (n + 1) kBlockSize = b at hblock hpositive hwithin hfull hle ⊢
      obtain ⟨reader', pending, hnext, hskip⟩ :=
        nextBlock_eq (show b ≤ reader.left.length by omega)
      have htaken : (reader.left.take b).length = b := by
        rw [List.length_take]
        omega
      rw [maxCompressedLength] at hroom
      obtain ⟨⟨d, o⟩, emitted, hr, hemits, hdecodes, hbound⟩ := compressFragment_decodes abi front
        (show (reader.left.take b).length ≤ 65536 by omega)
        (show written + fragmentRoom (reader.left.take b).length ≤ dest.length by
          rw [htaken, fragmentRoom]; omega)
        (calculateTableSize_pos b) List.length_replicate.ge fun e he => List.eq_of_mem_replicate he
      have hlength := hemits.size
      have hop := hemits.next
      dsimp only at hlength hop
      have hfront : (front ++ reader.left.take b).length = front.length + b := by
        rw [List.length_append, htaken]
      have hrest : (reader.skip b).left.length = n + 1 - b := by
        rw [Source.skip, List.length_drop, hN]
      simp only [hnext, getHashTable_eq hblock, Option.bind_eq_bind, Option.bind_some,
        List.length_replicate, hr, hskip]
      obtain rfl | hmore := hfull
      · rw [Nat.sub_self, compressBlocks_zero]
        refine ⟨_, emitted, rfl, hemits, ?_, by dsimp only; omega⟩
        rwa [← hN, List.take_length] at hdecodes
      · have hsum : front.length + b + (n + 1 - b) = front.length + (n + 1) := by omega
        have hwritten' : 60 * o ≤ 300 + 62 * (front ++ reader.left.take b).length := by omega
        have hroom' : maxCompressedLength ((front ++ reader.left.take b).length + (n + 1 - b)) ≤
            d.length := by
          rw [hfront, hsum, maxCompressedLength, hlength]
          exact hroom
        obtain ⟨r', emitted', hr', hemits', hdecodes', hbound'⟩ :=
          ih hrest (by omega) (by omega) hwritten' hroom'
        refine ⟨r', emitted ++ emitted', hr', hemits.trans hemits', ?_, by omega⟩
        rw [List.append_assoc, Source.skip, List.take_append_drop] at hdecodes'
        exact hdecodes.trans hdecodes'

/-- A stream: the length of what it stands for, and elements that produce it. -/
def StandsFor (stream out : List UInt8) : Prop :=
  ∃ body, stream = Leb128.encode out.length ++ body ∧ Decodes body [] out

theorem compress_standsFor (abi : Abi) (reader : Source) (hlength : reader.left.length < 2 ^ 32)
    (hroom : maxCompressedLength reader.left.length ≤ dest.length) :
    ∃ r, compress abi reader dest = some r ∧ r.1.length = dest.length ∧
      r.2 ≤ maxCompressedLength reader.left.length ∧ StandsFor (r.1.take r.2) reader.left := by
  have hshort : (encode32 reader.left.length).length ≤ 5 := by
    rw [encode32_eq hlength]
    exact Leb128.length_encode_le (hlength.trans (by decide)) (by decide)
  rw [maxCompressedLength] at hroom
  obtain ⟨d, hd, hsize, hemits⟩ := exists_emits dest 0 (encode32 reader.left.length) (by omega)
  have hvarint := hemits _ le_rfl
  rw [List.take_length, Nat.zero_add] at hvarint
  have hwritten : 60 * (encode32 reader.left.length).length ≤ 300 + 62 * ([] : List UInt8).length := by
    rw [List.length_nil]
    omega
  have hroom' : maxCompressedLength (([] : List UInt8).length + reader.left.length) ≤ d.length := by
    rw [List.length_nil, Nat.zero_add, maxCompressedLength, hsize]
    exact hroom
  obtain ⟨r, emitted, hr, hbody, hdecodes, hbound⟩ :=
    compressBlocks_decodes abi rfl le_rfl le_rfl hwritten hroom'
  have hwhole := hvarint.trans hbody
  refine ⟨r, ?_, hwhole.size, ?_, emitted, ?_, hdecodes⟩
  · rw [compress, Source.available, hd]
    exact hr
  · rw [List.length_nil] at hbound
    rw [maxCompressedLength]
    omega
  · rw [hwhole.kept, List.take_zero, List.nil_append, encode32_eq hlength]

end EnvironmentCheck.SnappyCodec
