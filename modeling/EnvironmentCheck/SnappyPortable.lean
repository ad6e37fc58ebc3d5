import EnvironmentCheck.SnappySource

namespace EnvironmentCheck.SnappyCodec

open Buffer BackReference LittleEndian

variable {input front dest : List UInt8} {table : List UInt16}
  {mask ipLimit op ip candidate data data' preload fuel o n : ℕ}
  {d : List UInt8}

/-- The hash is of the low four bytes. -/
theorem replaceCandidate_congr (h : data' % 2 ^ 32 = data % 2 ^ 32) (table : List UInt16) (mask p : ℕ) :
    replaceCandidate table data' mask p = replaceCandidate table data mask p := by
  unfold replaceCandidate hashBytes
  rw [h]

/-- Whatever word the bodies begin with, what they emit is the same. -/
theorem emitMatches_same (abi abi' : Abi) (hlimit : ipLimit + 15 = input.length) (hsize : input.length ≤ 65536)
    (hbefore : candidate < ip) (hwithin : ip < ipLimit) (htable : TableBelow mask (ip + 1) table) :
    emitMatches abi' input mask ipLimit fuel d o ⟨ip, candidate, data', table⟩ =
      emitMatches abi input mask ipLimit fuel d o ⟨ip, candidate, data, table⟩ := by
  induction fuel generalizing d o ip candidate data data' table with
  | zero => rfl
  | succ fuel ih =>
    obtain ⟨r, hr, hmatch⟩ := findMatchLength_isMatch abi data
      (show candidate + 4 ≤ ip + 4 by omega) (show ip + 4 ≤ input.length by omega) le_rfl
    obtain ⟨r', hr', hmatch'⟩ := findMatchLength_isMatch abi' data'
      (show candidate + 4 ≤ ip + 4 by omega) (show ip + 4 ≤ input.length by omega) le_rfl
    have heq : r'.matched = r.matched := le_antisymm (hmatch'.matched_le hmatch) (hmatch.matched_le hmatch')
    have hshort : r'.short = r.short := by rw [hmatch'.short, hmatch.short, heq]
    have hfits := hmatch.fits
    rw [emitMatches, emitMatches]
    simp only [hr, hr', heq, hshort, Option.bind_eq_bind, Option.bind_some]
    cases emitCopy r.short d o (ip - candidate) (4 + r.matched) with
    | none => rfl
    | some out =>
      obtain ⟨d', o'⟩ := out
      simp only [Option.bind_some]
      by_cases hend : ip + (4 + r.matched) ≥ ipLimit
      · rw [if_pos hend, if_pos hend]
      · have hcarries := carries_of_isMatch hmatch (by omega)
        have hcarries' := carries_of_isMatch hmatch' (by omega)
        rw [heq] at hcarries'
        have hdata : r'.data % 256 ^ 5 = r.data % 256 ^ 5 := hcarries'.2.trans hcarries.2.symm
        have hlow : r'.data % 2 ^ 32 = r.data % 2 ^ 32 := by omega
        have hnext : r'.data >>> 8 % 2 ^ 32 = r.data >>> 8 % 2 ^ 32 := by
          rw [Nat.shiftRight_eq_div_pow, Nat.shiftRight_eq_div_pow]
          omega
        obtain ⟨u, hu⟩ :=
          exists_load32_of_le (show ip + (4 + r.matched) - 1 + 4 ≤ input.length by omega)
        obtain ⟨c, table1, hreplace1, -, htable1⟩ := replaceCandidate_before htable u
          (p := ip + (4 + r.matched) - 1) (m := ip + (4 + r.matched)) (by omega) (by omega) (by omega)
        obtain ⟨c2, table2, hreplace2, hearlier, htable2⟩ := replaceCandidate_before htable1 r.data
          (p := ip + (4 + r.matched)) (m := ip + (4 + r.matched) + 1) (by omega) (by omega) (by omega)
        obtain ⟨w, hw⟩ := exists_load32_of_le (show c2 + 4 ≤ input.length by omega)
        simp only [if_neg hend, hu, hreplace1, replaceCandidate_congr hlow, hreplace2, hw, hlow, hnext,
          Option.bind_some]
        by_cases hsame : r.data % 2 ^ 32 = w
        · rw [if_pos hsame, if_pos hsame]
          exact ih hearlier (by omega) htable2
        · rw [if_neg hsame, if_neg hsame]

theorem compressLoop_same (abi abi' : Abi) (hlimit : ipLimit + 15 = input.length)
    (hsize : input.length ≤ 65536) (hdest : op + fragmentRoom input.length ≤ dest.length)
    {q : Progress} (hreached : Reached input front dest op 0 q)
    (hresume : Resumes input mask ipLimit q.ip (preload, table)) :
    compressLoop abi' input mask ipLimit fuel preload q table =
      compressLoop abi input mask ipLimit fuel preload q table := by
  induction fuel generalizing preload q table with
  | zero => rfl
  | succ fuel ih =>
    obtain ⟨d, o, nextEmit⟩ := q
    obtain ⟨hle, hpre, htable⟩ := hresume
    dsimp only at hle hpre htable
    obtain ⟨data, hdata⟩ := exists_load64_of_le (show nextEmit + 1 + 8 ≤ input.length by omega)
    obtain ⟨r, hr, hscan⟩ := scanForward_found hlimit hsize (Nat.succ_pos nextEmit) hpre
      (carries_load64 hdata) htable
    rw [compressLoop, compressLoop]
    simp only [hdata, hr, Option.bind_eq_bind, Option.bind_some]
    cases r with
    | none => rfl
    | some s =>
      obtain ⟨unrolled, found⟩ := s
      obtain ⟨hfound, hlater, hshort⟩ := hscan unrolled found rfl
      obtain ⟨⟨d', o'⟩, hfront, hliteral⟩ :=
        emitFront_reached hreached hsize hdest hlimit hfound hlater hshort
      have hwithin := hfound.within
      obtain ⟨q', more, hmatches, hreached', -, -, hmore⟩ :=
        emitMatches_reached abi hlimit hsize hdest (show ipLimit - found.ip < input.length by omega)
          hliteral hfound
      have hmatches' : emitMatches abi' input mask ipLimit input.length d' o' found = some (q', more) := by
        rw [← hmatches]
        exact emitMatches_same abi abi' hlimit hsize hfound.earlier hwithin hfound.below
      simp only [hfront, hmatches, hmatches', Option.bind_some]
      cases more with
      | none => rfl
      | some resume => exact ih hreached' (hmore resume rfl)

theorem compressMatches_same (abi abi' : Abi) (hsize : input.length ≤ 65536)
    (hdest : op + fragmentRoom input.length ≤ dest.length)
    (hreached : Reached input front dest op 0 ⟨dest, op, 0⟩) (htable : TableBelow mask 1 table) :
    compressMatches abi' input dest op table mask = compressMatches abi input dest op table mask := by
  rw [compressMatches, compressMatches]
  split_ifs with hmargin
  · have hfifteen : 15 ≤ input.length := hmargin
    obtain ⟨v, hv⟩ := exists_load32_of_le (show 1 + 4 ≤ input.length by omega)
    have hlimit : input.length - kInputMarginBytes + 15 = input.length :=
      Nat.sub_add_cancel hfifteen
    rw [hv]
    exact compressLoop_same abi abi' hlimit hsize hdest hreached ⟨Nat.zero_le _, hv, htable⟩
  · rfl

theorem compressFragment_same (abi abi' : Abi) (hsize : input.length ≤ 65536)
    (hdest : op + fragmentRoom input.length ≤ dest.length) {tableSize : ℕ}
    (hpositive : 0 < tableSize) (hlength : tableSize ≤ table.length) (hzero : ∀ e ∈ table, e = 0) :
    compressFragment abi' input dest op table tableSize = compressFragment abi input dest op table tableSize := by
  have hstart : Reached input [] dest op 0 ⟨dest, op, 0⟩ := by
    refine ⟨[], ⟨rfl, (List.append_nil _).symm, rfl⟩, ?_, Nat.zero_le _⟩
    rw [List.take_zero, List.append_nil]
    exact .done []
  have htable : TableBelow (tableSize - 1) 1 table := by
    refine ⟨by omega, ?_⟩
    intro e he
    rw [hzero e he]
    exact Nat.one_pos
  rw [compressFragment, compressFragment, compressMatches_same abi abi' hsize hdest hstart htable]

/-- Only what the source has left matters, and not in which fragments it comes. -/
theorem compressBlocks_same (abi abi' : Abi) {reader reader' : Source} {N written whole : ℕ}
    (hleft : reader'.left = reader.left) (hN : reader.left.length = N) (hfuel : N ≤ fuel)
    (hblock : min N kBlockSize ≤ whole) (hwritten : 60 * written ≤ 300 + 62 * n)
    (hroom : maxCompressedLength (n + N) ≤ dest.length) :
    compressBlocks abi' (calculateTableSize whole) fuel reader' N dest written =
      compressBlocks abi (calculateTableSize whole) fuel reader N dest written := by
  have hsize : kBlockSize = 65536 := by decide
  induction fuel generalizing reader reader' n dest written N with
  | zero =>
    obtain rfl : N = 0 := Nat.le_zero.mp hfuel
    rfl
  | succ fuel ih =>
    cases N with
    | zero => rfl
    | succ k =>
      have hpositive : 0 < min (k + 1) kBlockSize := by omega
      have hwithin : min (k + 1) kBlockSize ≤ 65536 := hsize ▸ Nat.min_le_right _ _
      have hfull : min (k + 1) kBlockSize = k + 1 ∨ min (k + 1) kBlockSize = 65536 := by omega
      have hle : min (k + 1) kBlockSize ≤ k + 1 := Nat.min_le_left _ _
      rw [compressBlocks, compressBlocks]
      generalize min (k + 1) kBlockSize = b at hblock hpositive hwithin hfull hle ⊢
      obtain ⟨after, pending, hnext, hskip⟩ := nextBlock_eq (show b ≤ reader.left.length by omega)
      obtain ⟨after', pending', hnext', hskip'⟩ :=
        nextBlock_eq (show b ≤ reader'.left.length by rw [hleft]; omega)
      rw [hleft] at hnext'
      have htaken : (reader.left.take b).length = b := by
        rw [List.length_take]
        omega
      rw [maxCompressedLength] at hroom
      have hshort : (reader.left.take b).length ≤ 65536 := by omega
      have hfits : written + fragmentRoom (reader.left.take b).length ≤ dest.length := by
        rw [htaken, fragmentRoom]
        omega
      have hzero : ∀ e ∈ List.replicate (calculateTableSize b) (0 : UInt16), e = 0 :=
        fun e he => List.eq_of_mem_replicate he
      obtain ⟨⟨d, o⟩, emitted, hr, hemits, -, hbound⟩ := compressFragment_decodes abi [] hshort hfits
        (calculateTableSize_pos b) List.length_replicate.ge hzero
      have hr' := compressFragment_same abi abi' hshort hfits (calculateTableSize_pos b)
        List.length_replicate.ge hzero
      rw [hr] at hr'
      have hlength := hemits.size
      have hop := hemits.next
      dsimp only at hlength hop
      simp only [hnext, hnext', getHashTable_eq hblock, Option.bind_eq_bind, Option.bind_some,
        List.length_replicate, hr, hr', hskip, hskip']
      obtain rfl | hmore := hfull
      · rw [Nat.sub_self, compressBlocks_zero, compressBlocks_zero]
      · have hrest : (reader.skip b).left.length = k + 1 - b := by
          rw [Source.skip, List.length_drop, hN]
        have hleft' : (reader'.skip b).left = (reader.skip b).left := by
          rw [Source.skip, Source.skip, hleft]
        have hsum : n + b + (k + 1 - b) = n + (k + 1) := by omega
        have hwritten' : 60 * o ≤ 300 + 62 * (n + b) := by omega
        apply ih hleft' hrest (by omega) (by omega) hwritten'
        rw [hsum, maxCompressedLength, hlength]
        exact hroom

/-- The stream is the same on every ABI and for every way in which the input is cut. -/
theorem compress_portable (abi abi' : Abi) (reader reader' : Source) (dest : List UInt8)
    (hleft : reader'.left = reader.left) (hlength : reader.left.length < 2 ^ 32)
    (hroom : maxCompressedLength reader.left.length ≤ dest.length) :
    ∃ r, compress abi reader dest = some r ∧ compress abi' reader' dest = some r := by
  obtain ⟨r, hr, -⟩ := compress_standsFor abi reader hlength hroom
  refine ⟨r, hr, ?_⟩
  have hshort : (encode32 reader.left.length).length ≤ 5 := by
    rw [encode32_eq hlength]
    exact Leb128.length_encode_le (hlength.trans (by decide)) (by decide)
  have hspace := hroom
  rw [maxCompressedLength] at hspace
  obtain ⟨d, hd, hsize, -⟩ := exists_emits dest 0 (encode32 reader.left.length) (by omega)
  rw [← hr, compress, compress, Source.available, Source.available, hleft, hd]
  apply compressBlocks_same abi abi' hleft rfl le_rfl le_rfl (n := 0)
  · omega
  · rw [Nat.zero_add, hsize]
    exact hroom

theorem compress_portable_fragments :
    ∃ r, compress .x86 ⟨List.replicate 40 7, fun _ => 1, fun _ _ => Nat.one_pos⟩
        (List.replicate 78 0) = some r ∧
      compress .arm64V8a (byteArraySource (List.replicate 40 7)) (List.replicate 78 0) = some r :=
  compress_portable .x86 .arm64V8a ⟨List.replicate 40 7, fun _ => 1, fun _ _ => Nat.one_pos⟩
    (byteArraySource (List.replicate 40 7)) (List.replicate 78 0) rfl (by decide) (by decide)

end EnvironmentCheck.SnappyCodec
