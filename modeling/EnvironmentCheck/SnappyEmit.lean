import EnvironmentCheck.SnappyFormat
import EnvironmentCheck.SnappyMatch

namespace EnvironmentCheck.SnappyCodec

open BackReference Buffer LittleEndian

def LITERAL : ℕ := 0

def COPY_1_BYTE_OFFSET : ℕ := 1

def COPY_2_BYTE_OFFSET : ℕ := 2

def COPY_4_BYTE_OFFSET : ℕ := 3

/-- The destination, and where the next byte goes. -/
abbrev Output := List UInt8 × ℕ

/-- The sixteen bytes of `UnalignedCopy128` go one past the tag. -/
def emitShort (dest : List UInt8) (op : ℕ) (input : List UInt8) (literal n : ℕ) :
    Option (List UInt8) := do
  let dest ← store dest op [.ofNat (LITERAL ||| n <<< 2)]
  store dest (op + 1) (← load input literal 16)

def emitLiteral (allowFastPath : Bool) (dest : List UInt8) (op : ℕ) (input : List UInt8)
    (literal len : ℕ) : Option Output := do
  let n := len - 1
  if allowFastPath && len ≤ 16 then
    let dest ← emitShort dest op input literal n
    return (dest, op + 1 + len)
  else if n < 60 then
    let dest ← store dest op [.ofNat (LITERAL ||| n <<< 2)]
    let dest ← store dest (op + 1) (← load input literal len)
    return (dest, op + 1 + len)
  else
    let count := log2FloorNonZero n >>> 3 + 1
    let dest ← store dest op [.ofNat (LITERAL ||| (59 + count) <<< 2)]
    let dest ← store dest (op + 1) (bytes 4 n)
    let dest ← store dest (op + 1 + count) (← load input literal len)
    return (dest, op + 1 + count + len)

def emitCopyAtMost64 (lenLessThan12 : Bool) (dest : List UInt8) (op offset len : ℕ) :
    Option Output := do
  if lenLessThan12 then
    let u := len <<< 2 + offset <<< 8
    let copy1 := COPY_1_BYTE_OFFSET + 2 ^ 32 - 4 <<< 2 + (offset >>> 3 &&& 0xe0)
    let copy2 := COPY_2_BYTE_OFFSET + 2 ^ 32 - 1 <<< 2
    let u := (u + if offset < 2048 then copy1 else copy2) % 2 ^ 32
    let dest ← store dest op (bytes 4 u)
    return (dest, op + if offset < 2048 then 2 else 3)
  else
    let u := COPY_2_BYTE_OFFSET + (len - 1) <<< 2 + offset <<< 8
    let dest ← store dest op (bytes 4 u)
    return (dest, op + 3)

/-- The last one or two copies, of at most 67 bytes. -/
def emitLastCopies (dest : List UInt8) (op offset len : ℕ) : Option Output := do
  let (dest, op, len) ← if len > 64 then
      let (dest, op) ← emitCopyAtMost64 false dest op offset 60
      pure (dest, op, len - 60)
    else pure (dest, op, len)
  emitCopyAtMost64 (len < 12) dest op offset len

def emitLongCopy (dest : List UInt8) (op offset len : ℕ) : Option Output :=
  if _h : len ≥ 68 then do
    let (dest, op) ← emitCopyAtMost64 false dest op offset 64
    emitLongCopy dest op offset (len - 64)
  else emitLastCopies dest op offset len
termination_by len

def emitCopy (lenLessThan12 : Bool) (dest : List UInt8) (op offset len : ℕ) : Option Output :=
  if lenLessThan12 then emitCopyAtMost64 true dest op offset len else emitLongCopy dest op offset len

/-- What has been written stays, and is followed by these bytes. -/
structure Emits (dest : List UInt8) (op : ℕ) (emitted : List UInt8) (r : Output) : Prop where
  size : r.1.length = dest.length
  kept : r.1.take r.2 = dest.take op ++ emitted
  next : r.2 = op + emitted.length

variable {dest dest' input xs emitted emitted' : List UInt8} {op offset len literal n k pos : ℕ}
  {r r' : Output}

theorem Emits.trans (h : Emits dest op emitted r) (h' : Emits r.1 r.2 emitted' r') :
    Emits dest op (emitted ++ emitted') r' := by
  refine ⟨h'.size.trans h.size, ?_, ?_⟩
  · rw [h'.kept, h.kept, List.append_assoc]
  · rw [h'.next, h.next, List.length_append, Nat.add_assoc]

/-- Of the stored bytes the first `k` count, and the others may be overwritten. -/
theorem emits_of_store (h : store dest op xs = some dest') (hk : k ≤ xs.length) :
    Emits dest op (xs.take k) (dest', op + k) := by
  refine ⟨length_store h, take_store h hk, ?_⟩
  rw [List.length_take, Nat.min_eq_left hk]

theorem toNat_tag (h : n < 64) : (UInt8.ofNat (LITERAL ||| n <<< 2)).toNat = 4 * n := by
  have htag : LITERAL ||| n <<< 2 = 4 * n := by
    rw [LITERAL, Nat.zero_or, Nat.shiftLeft_eq, mul_comm]
  rw [htag, UInt8.toNat_ofNat']
  omega

theorem exists_emits (dest : List UInt8) (op : ℕ) (xs : List UInt8)
    (h : op + xs.length ≤ dest.length) :
    ∃ dest', store dest op xs = some dest' ∧ dest'.length = dest.length ∧
      ∀ k ≤ xs.length, Emits dest op (xs.take k) (dest', op + k) := by
  obtain ⟨dest', hdest⟩ := exists_store h
  exact ⟨dest', hdest, length_store hdest, fun k hk => emits_of_store hdest hk⟩

theorem emitShort_emits (dest : List UInt8) (op : ℕ) (hlen : 0 < len) (hlen' : len ≤ 16)
    (hinput : literal + 16 ≤ input.length)
    (hroom : op + 17 ≤ dest.length) :
    ∃ dest', emitShort dest op input literal (len - 1) = some dest' ∧
      Emits dest op (.ofNat (LITERAL ||| (len - 1) <<< 2) :: (input.drop literal).take len)
        (dest', op + 1 + len) := by
  have hload := load_of_le hinput
  have hlength := length_load hload
  obtain ⟨dest1, h1, hsize, htag⟩ := exists_emits dest op
        ([.ofNat (LITERAL ||| (len - 1) <<< 2)]) (by rw [List.length_singleton]; omega)
  obtain ⟨dest2, h2, -, hchunk⟩ := exists_emits dest1 (op + 1)
        ((input.drop literal).take 16) (by omega)
  refine ⟨dest2, ?_, ?_⟩
  · rw [emitShort, h1, hload]
    simp only [Option.bind_eq_bind, Option.bind_some, h2]
  · have htwice := (htag 1 le_rfl).trans (hchunk len (by omega))
    rwa [List.take_take, Nat.min_eq_left hlen'] at htwice

/-- The number of bytes that `n` takes. -/
theorem count_spec (hn : 60 ≤ n) (hlt : n < 65536) :
    log2FloorNonZero n >>> 3 + 1 ≤ 2 ∧ n < 256 ^ (log2FloorNonZero n >>> 3 + 1) ∧
      60 * (log2FloorNonZero n >>> 3 + 1) ≤ n := by
  obtain ⟨hlow, hhigh⟩ := log2FloorNonZero_eq (n := n) (by omega) (by omega)
  have hlog : log2FloorNonZero n < 16 := by
    apply (Nat.pow_lt_pow_iff_right (a := 2) (by decide)).mp
    exact hlow.trans_lt hlt
  rw [Nat.shiftRight_eq_div_pow]
  obtain hone | htwo := lt_or_ge (log2FloorNonZero n) 8
  · have hpow : 2 ^ (log2FloorNonZero n + 1) ≤ 2 ^ 8 := Nat.pow_le_pow_right (by decide) hone
    have hzero : log2FloorNonZero n / 2 ^ 3 = 0 := by omega
    rw [hzero]
    omega
  · have hpow : 2 ^ 8 ≤ 2 ^ log2FloorNonZero n := Nat.pow_le_pow_right (by decide) htwo
    have hunit : log2FloorNonZero n / 2 ^ 3 = 1 := by omega
    rw [hunit]
    omega

theorem emitLiteral_emits (fast : Bool) (hlen : 0 < len) (hlen' : len ≤ 65536)
    (hinput : literal + len ≤ input.length) (hfast : fast = true → literal + 16 ≤ input.length)
    (hroom : op + len + 21 ≤ dest.length) :
    ∃ r emitted, emitLiteral fast dest op input literal len = some r ∧ Emits dest op emitted r ∧
      Encodes emitted (.literal ((input.drop literal).take len)) ∧
      60 * emitted.length ≤ 61 * len + 60 := by
  have hload := load_of_le hinput
  have hlength := length_load hload
  rw [emitLiteral]
  split_ifs with hshort hfits
  · rw [Bool.and_eq_true, decide_eq_true_eq] at hshort
    obtain ⟨dest', hdest, hemits⟩ :=
      emitShort_emits dest op hlen hshort.2 (hfast hshort.1) (by omega)
    rw [hdest]
    refine ⟨_, _, rfl, hemits, ?_, ?_⟩
    · exact encodes_literal _ (toNat_tag (by omega)) (by omega) (by omega)
    · rw [List.length_cons, hlength]
      omega
  · obtain ⟨dest1, h1, hsize, htag⟩ := exists_emits dest op
        ([.ofNat (LITERAL ||| (len - 1) <<< 2)]) (by rw [List.length_singleton]; omega)
    obtain ⟨dest2, h2, -, hliteral⟩ := exists_emits dest1 (op + 1)
        ((input.drop literal).take len) (by omega)
    rw [h1, hload]
    simp only [Option.bind_eq_bind, Option.bind_some, h2]
    have hemits := (htag 1 le_rfl).trans (hliteral len hlength.ge)
    rw [List.take_of_length_le (l := (input.drop literal).take len) hlength.le] at hemits
    refine ⟨_, _, rfl, hemits, ?_, ?_⟩
    · exact encodes_literal ((input.drop literal).take len) (toNat_tag (by omega)) hfits
        (by omega)
    · rw [List.length_append, List.length_take, hlength, List.length_singleton]
      omega
  · obtain ⟨hcount, hvalue, hlong⟩ := count_spec (n := len - 1) (by omega) (by omega)
    generalize log2FloorNonZero (len - 1) >>> 3 + 1 = count at hcount hvalue hlong ⊢
    obtain ⟨dest1, h1, hsize, htag⟩ := exists_emits dest op
        ([.ofNat (LITERAL ||| (59 + count) <<< 2)]) (by rw [List.length_singleton]; omega)
    obtain ⟨dest2, h2, hsize2, htrailer⟩ := exists_emits dest1 (op + 1)
        (bytes 4 (len - 1)) (by rw [length_bytes]; omega)
    obtain ⟨dest3, h3, -, hliteral⟩ := exists_emits dest2 (op + 1 + count)
        ((input.drop literal).take len) (by omega)
    simp only [Option.bind_eq_bind, h1, hload, Option.bind_some, h2, h3]
    have hemits := (htag 1 le_rfl).trans ((htrailer count (by rw [length_bytes]; omega)).trans
      (hliteral len hlength.ge))
    rw [take_bytes (by omega), List.take_of_length_le (l := (input.drop literal).take len)
      hlength.le] at hemits
    refine ⟨_, _, rfl, hemits, ?_, ?_⟩
    · have hcountPos : 0 < count := by
        by_contra hzero
        rw [Nat.eq_zero_of_not_pos hzero, pow_zero] at hvalue
        omega
      apply encodes_longLiteral (toNat_tag (by omega)) hcountPos (length_bytes count _) _ (by omega)
      rw [value_bytes hvalue]
      omega
    · rw [List.length_append, List.length_append, List.length_take, List.length_singleton,
        length_bytes, hlength]
      omega

theorem and_224 (offset : ℕ) : offset >>> 3 &&& 0xe0 = offset / 256 % 8 * 32 := by
  apply Nat.eq_of_testBit_eq
  intro j
  have hmask : 0xe0 = (2 ^ 3 - 1) * 2 ^ 5 := by decide
  have hmul : offset / 256 % 8 * 32 = offset / 2 ^ 8 % 2 ^ 3 * 2 ^ 5 := rfl
  rw [hmask, hmul, Nat.testBit_and, Nat.testBit_shiftRight, Nat.testBit_mul_two_pow,
    Nat.testBit_mul_two_pow, Nat.testBit_two_pow_sub_one, Nat.testBit_mod_two_pow,
    Nat.testBit_div_two_pow]
  by_cases hj : 5 ≤ j
  · have hsum : j - 5 + 8 = 3 + j := by omega
    rw [hsum, decide_eq_true hj, Bool.true_and, Bool.true_and, Bool.and_comm]
  · rw [decide_eq_false hj, Bool.false_and, Bool.and_false, Bool.false_and]

theorem bytes_cons (n v : ℕ) : bytes (n + 1) v = .ofNat v :: bytes n (v / 256) := rfl

theorem low_byte {t : ℕ} (h : t < 256) (offset : ℕ) :
    (UInt8.ofNat (256 * offset + t)).toNat = t ∧ (256 * offset + t) / 256 = offset := by
  rw [UInt8.toNat_ofNat']
  omega

theorem emitCopyAtMost64_emits {short : Bool} (hshort : short = decide (len < 12)) (hlen : 4 ≤ len)
    (hlen' : len ≤ 64) (hoffset : offset < 65536) (hroom : op + 4 ≤ dest.length) :
    ∃ r emitted, emitCopyAtMost64 short dest op offset len = some r ∧ Emits dest op emitted r ∧
      Encodes emitted (.copy offset len) ∧ emitted.length ≤ 3 := by
  have hshift : offset <<< 8 = offset * 256 := Nat.shiftLeft_eq offset 8
  have hlow : len <<< 2 = len * 4 := Nat.shiftLeft_eq len 2
  have hlow' : (len - 1) <<< 2 = (len - 1) * 4 := Nat.shiftLeft_eq (len - 1) 2
  have htrailer : value (bytes 2 offset) = offset := value_bytes (by omega)
  have hbyte : ∀ v, (UInt8.ofNat v).toNat = v % 256 := fun v => UInt8.toNat_ofNat'
  cases hs : short with
  | true =>
    have hlt : len < 12 := of_decide_eq_true (hshort.symm.trans hs)
    simp only [emitCopyAtMost64, if_true]
    rw [and_224, hshift, hlow]
    split_ifs with hnear
    · obtain ⟨dest', hdest, -, hemits⟩ := exists_emits dest op
        (bytes 4 ((len * 4 + offset * 256 + (COPY_1_BYTE_OFFSET + 2 ^ 32 - 4 <<< 2 +
          offset / 256 % 8 * 32)) % 2 ^ 32)) (by rw [length_bytes]; omega)
      rw [hdest]
      refine ⟨_, _, rfl, hemits 2 (by rw [length_bytes]; omega), ?_, ?_⟩
      · have hsame : offset / 256 % 8 = offset / 256 := by omega
        have hword : (len * 4 + offset * 256 + (COPY_1_BYTE_OFFSET + 2 ^ 32 - 4 <<< 2 +
            offset / 256 % 8 * 32)) % 2 ^ 32 =
              256 * offset + (4 * (8 * (offset / 256) + (len - 4)) + 1) := by
          rw [COPY_1_BYTE_OFFSET, hsame]
          omega
        obtain ⟨htag, hrest⟩ :=
          low_byte (t := 4 * (8 * (offset / 256) + (len - 4)) + 1) (by omega) offset
        rw [hword, take_bytes (by decide), bytes_cons, bytes_cons, hrest]
        exact encodes_copy1 htag (hbyte offset) hlen hlt
      · rw [List.length_take, length_bytes]
        decide
    · obtain ⟨dest', hdest, -, hemits⟩ := exists_emits dest op
        (bytes 4 ((len * 4 + offset * 256 + (COPY_2_BYTE_OFFSET + 2 ^ 32 - 1 <<< 2)) % 2 ^ 32))
        (by rw [length_bytes]; omega)
      rw [hdest]
      refine ⟨_, _, rfl, hemits 3 (by rw [length_bytes]; omega), ?_, ?_⟩
      · have hrest : (len * 4 + offset * 256 + (COPY_2_BYTE_OFFSET + 2 ^ 32 - 1 <<< 2)) % 2 ^ 32 / 256 =
            offset := by
          rw [COPY_2_BYTE_OFFSET]
          omega
        rw [take_bytes (by decide), bytes_cons, hrest]
        apply encodes_copy2 _ (length_bytes 2 offset) htrailer (by omega)
        rw [hbyte, COPY_2_BYTE_OFFSET]
        omega
      · rw [List.length_take, length_bytes]
        decide
  | false =>
    simp only [emitCopyAtMost64, Bool.false_eq_true, if_false]
    rw [hshift, hlow']
    obtain ⟨dest', hdest, -, hemits⟩ := exists_emits dest op
        (bytes 4 (COPY_2_BYTE_OFFSET + (len - 1) * 4 + offset * 256))
      (by rw [length_bytes]; omega)
    rw [hdest]
    refine ⟨_, _, rfl, hemits 3 (by rw [length_bytes]; omega), ?_, ?_⟩
    · have hrest : (COPY_2_BYTE_OFFSET + (len - 1) * 4 + offset * 256) / 256 = offset := by
        rw [COPY_2_BYTE_OFFSET]
        omega
      rw [take_bytes (by decide), bytes_cons, hrest]
      apply encodes_copy2 _ (length_bytes 2 offset) htrailer (by omega)
      rw [hbyte, COPY_2_BYTE_OFFSET]
      omega
    · rw [List.length_take, length_bytes]
      decide

/-- The copy brings the output from the first `pos` elements to the first `pos + len`, in bytes of
which every three stand for at least four. -/
def Copies (copy : Option Output) (dest : List UInt8) (op pos len : ℕ) (xs : List UInt8) : Prop :=
  ∃ r emitted, copy = some r ∧ Emits dest op emitted r ∧
    Decodes emitted (xs.take pos) (xs.take (pos + len)) ∧ 4 * emitted.length ≤ 3 * len

theorem emitCopyAtMost64_copies {short : Bool} (hshort : short = decide (len < 12)) (hlen : 4 ≤ len)
    (hlen' : len ≤ 64) (hoffset : offset < 65536) (hroom : op + 4 ≤ dest.length) (hpos : 0 < offset)
    (hback : offset ≤ pos) (hfits : pos + len ≤ xs.length)
    (hxs : Repeats offset pos (pos + len) xs) :
    Copies (emitCopyAtMost64 short dest op offset len) dest op pos len xs := by
  obtain ⟨r, emitted, hr, hemits, henc, hsize⟩ :=
    emitCopyAtMost64_emits hshort hlen hlen' hoffset hroom
  exact ⟨r, emitted, hr, hemits, henc.decodes (apply_copy_take hpos hback hfits hxs), by omega⟩

/-- A copy in two parts, of which the first leaves room for the second. -/
theorem Copies.bind {copy : Option Output} {len' : ℕ} {f : Output → Option Output}
    (h : Copies copy dest op pos len xs)
    (hf : ∀ r, r.1.length = dest.length → r.2 + len ≤ op + len + 3 * len / 4 →
      Copies (f r) r.1 r.2 (pos + len) len' xs) :
    Copies (copy.bind f) dest op pos (len + len') xs := by
  obtain ⟨r, emitted, hr, hemits, hdecodes, hsize⟩ := h
  have hnext := hemits.next
  obtain ⟨r', emitted', hr', hemits', hdecodes', hsize'⟩ := hf r hemits.size (by omega)
  refine ⟨r', emitted ++ emitted', ?_, hemits.trans hemits', ?_, ?_⟩
  · rw [hr, Option.bind_some, hr']
  · rw [← Nat.add_assoc]
    exact hdecodes.trans hdecodes'
  · rw [List.length_append]
    omega

theorem emitLastCopies_copies (hlen : 4 ≤ len) (hlen' : len < 68) (hoffset : offset < 65536)
    (hroom : op + len ≤ dest.length) (hpos : 0 < offset) (hback : offset ≤ pos)
    (hfits : pos + len ≤ xs.length) (hxs : Repeats offset pos (pos + len) xs) :
    Copies (emitLastCopies dest op offset len) dest op pos len xs := by
  rw [emitLastCopies]
  split_ifs with hlong
  · have hfirst : Copies (emitCopyAtMost64 false dest op offset 60) dest op pos 60 xs :=
      emitCopyAtMost64_copies rfl (by decide) (by decide) hoffset (by omega) hpos hback (by omega)
        (hxs.mono (by omega))
    have hsum : 60 + (len - 60) = len := by omega
    conv => arg 5; rw [← hsum]
    apply hfirst.bind
    intro r hsize hnext
    exact emitCopyAtMost64_copies rfl (by omega) (by omega) hoffset (by omega) hpos (by omega)
      (by omega) fun i hi hlt => hxs i (by omega) (by omega)
  · exact emitCopyAtMost64_copies rfl hlen (by omega) hoffset (by omega) hpos hback hfits hxs

theorem emitLongCopy_copies (hlen : 4 ≤ len) (hoffset : offset < 65536)
    (hroom : op + len ≤ dest.length) (hpos : 0 < offset) (hback : offset ≤ pos)
    (hfits : pos + len ≤ xs.length) (hxs : Repeats offset pos (pos + len) xs) :
    Copies (emitLongCopy dest op offset len) dest op pos len xs := by
  induction hn : len using Nat.strong_induction_on generalizing dest op pos len with
  | h n ih =>
    subst hn
    rw [emitLongCopy]
    split_ifs with hlong
    · have hfirst : Copies (emitCopyAtMost64 false dest op offset 64) dest op pos 64 xs :=
        emitCopyAtMost64_copies rfl (by decide) (by decide) hoffset (by omega) hpos hback (by omega)
          (hxs.mono (by omega))
      have hsum : 64 + (len - 64) = len := by omega
      conv => arg 5; rw [← hsum]
      apply hfirst.bind
      intro r hsize hnext
      exact ih (len - 64) (by omega) (by omega) (by omega) (by omega) (by omega)
        (fun i hi hlt => hxs i (by omega) (by omega)) rfl
    · exact emitLastCopies_copies hlen (by omega) hoffset hroom hpos hback hfits hxs

theorem emitCopy_copies {short : Bool} (hshort : short = decide (len < 12)) (hlen : 4 ≤ len)
    (hoffset : offset < 65536) (hroom : op + len ≤ dest.length) (hpos : 0 < offset)
    (hback : offset ≤ pos) (hfits : pos + len ≤ xs.length)
    (hxs : Repeats offset pos (pos + len) xs) :
    Copies (emitCopy short dest op offset len) dest op pos len xs := by
  cases short with
  | true =>
    have hlt : len < 12 := of_decide_eq_true hshort.symm
    exact emitCopyAtMost64_copies hshort hlen (by omega) hoffset (by omega) hpos hback hfits hxs
  | false => exact emitLongCopy_copies hlen hoffset hroom hpos hback hfits hxs

end EnvironmentCheck.SnappyCodec
